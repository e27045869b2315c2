/-
Rendering edit blocks and parsing them back.

The first pattern is run symbolically over a rendered list: its way to
the opening marker is forced (`run_opening`), the two texts end at the
first separator and at the first closing marker after it
(`run_body`), and the search goes on behind the match. So it finds the
rendered blocks exactly when no text hides a separator or a closing
marker (`blocks_first_pattern`). Whatever the second pattern finds comes
on top of that.
-/
import Velune.EditFormats.SearchReplace

variable {s : PyStr} {fenced : Bool} {prev' : Option Char} {g' : Groups}

namespace Velune.EditFormats

open Lib Lib.Regex

-- ===== rendering

/-- What is rendered: a path, the two texts, and the rest of the line
that opens the code fence, if there is one. -/
structure Shape where
  path : PyStr
  search : PyStr
  replace : PyStr
  info : PyStr := []

def markers : List PyStr := ["<<<<<<< SEARCH".toList, "=======".toList, ">>>>>>> REPLACE".toList]

def IsLines (s : PyStr) : Prop := s = [] ∨ s.getLast? = some '\n'

structure Shape.Ok (s : Shape) : Prop where
  path_plain : ∀ c ∈ s.path, Text.isSpace c = false ∧ isPathChar c = true
  extension : ∃ stem ext, s.path = stem ++ '.' :: ext ∧ ext ≠ [] ∧ '.' ∉ ext
  search_lines : IsLines s.search
  replace_lines : IsLines s.replace
  search_unmarked : ∀ line ∈ s.search.splitOn '\n', line ∉ markers
  replace_unmarked : ∀ line ∈ s.replace.splitOn '\n', line ∉ markers
  info_line : '\n' ∉ s.info

def fenceOpen (fenced : Bool) (info : PyStr) : PyStr :=
  if fenced then fence ++ info ++ ['\n'] else []

def closing (fenced : Bool) : PyStr := '\n' :: if fenced then fence ++ ['\n'] else []

def opening (fenced : Bool) (s : Shape) : PyStr :=
  s.path ++ '\n' :: (fenceOpen fenced s.info ++ (searchMark ++ "SEARCH\n".toList))

def body (s : Shape) : PyStr :=
  s.search ++ (separator ++ (s.replace ++ (replaceMark ++ "REPLACE".toList)))

def render (fenced : Bool) : List Shape → PyStr
  | [] => []
  | s :: rest => opening fenced s ++ (body s ++ (closing fenced ++ render fenced rest))

def Shape.block (s : Shape) : EditBlock := EditBlock.ofParts s.path s.search s.replace

def ClosesAt (s : PyStr) : Prop :=
  replaceMark ++ "REPLACE".toList <+: s ∨ replaceMark ++ "MODIFIED".toList <+: s

instance : DecidablePred ClosesAt := fun s =>
  inferInstanceAs (Decidable (replaceMark ++ "REPLACE".toList <+: s
    ∨ replaceMark ++ "MODIFIED".toList <+: s))

/-- No line of SEARCH ends in the separator, and REPLACE holds no
closing marker, under either of its names. -/
structure Shape.Clean (s : Shape) : Prop where
  search : ∀ i, ¬ separator <+: s.search.drop i
  replace : ∀ i, ¬ ClosesAt (s.replace.drop i)

-- ===== pieces

abbrev noWords : Char → Bool := fun _ => false

variable {β : Type} {k : Option Char → List Char → Groups → Option β}
variable {prev : Option Char} {g : Groups}

theorem run_newline (s : PyStr) : run noWords newline prev ('\n' :: s) g k = k (some '\n') s g := by
  unfold newline
  rw [run_cls_cons, if_pos (by simp)]

theorem run_newline_none (h : s.head? ≠ some '\n') : run noWords newline prev s g k = none := by
  unfold newline
  cases s with
  | nil => rw [Regex.run]
  | cons c s =>
      rw [run_cls_cons, if_neg]
      intro hc
      rw [beq_iff_eq] at hc
      exact h (by rw [hc]; rfl)

theorem run_fenceLine {info : PyStr} (hinfo : '\n' ∉ info) (s : PyStr) :
    run noWords fenceLine prev (fence ++ (info ++ '\n' :: s)) g k = k (some '\n') s g := by
  unfold fenceLine
  simp only [Re.cat]
  rw [run_seq, run_text, run_seq, run_many, runMany_greedy]
  · rw [run_newline]
  · intro c hc
    have hne : c ≠ '\n' := fun h => hinfo (h ▸ hc)
    simpa [notNewline] using hne
  · simp [notNewline]
  · intro i hi
    apply run_newline_none
    rw [List.drop_eq_getElem_cons hi]
    simp only [List.cons_append, List.head?_cons, ne_eq, Option.some.injEq]
    exact fun h => hinfo (h ▸ List.getElem_mem hi)

/-- A text beginning otherwise than with a backtick begins with no fence. -/
theorem not_fence_cons {c : Char} (hc : c ≠ Char.ofNat 96) (s : PyStr) : ¬ fence <+: c :: s := by
  rintro ⟨t, ht⟩
  injection ht with hhead
  exact hc hhead.symm

theorem run_fenceLine_none (h : ¬ fence <+: s) : run noWords fenceLine prev s g k = none := by
  unfold fenceLine
  simp only [Re.cat]
  rw [run_seq, run_text_eq_none _ _ _ _ h]

theorem run_opt_skip (h : ¬ fence <+: s) :
    run noWords (.opt fenceLine) prev s g k = k prev s g := by
  unfold Re.opt
  rw [run_alt, run_fenceLine_none h, Option.none_or, run_eps]

theorem run_opt_take {info s : PyStr} (hinfo : '\n' ∉ info)
    (hskip : k prev (fence ++ (info ++ '\n' :: s)) g = none) :
    run noWords (.opt fenceLine) prev (fence ++ (info ++ '\n' :: s)) g k
      = k (some '\n') s g := by
  unfold Re.opt
  rw [run_alt, run_fenceLine hinfo, run_eps, hskip, Option.or_none]

-- ===== opening

def afterMark : Re :=
  .cat [.group 2 (.many true fun _ => true), .text separator,
    .group 3 (.many true fun _ => true), .text replaceMark,
    .oneOf [.text "REPLACE".toList, .text "MODIFIED".toList]]

def fromMark : Re :=
  .seq (.text searchMark)
    (.seq (.oneOf [.text "SEARCH".toList, .text "ORIGINAL".toList]) (.seq newline afterMark))

theorem run_fromMark (X : PyStr) :
    run noWords fromMark prev (searchMark ++ ("SEARCH\n".toList ++ X)) g k
      = run noWords afterMark (some '\n') X g k := by
  unfold fromMark
  rw [run_seq, run_text, run_seq]
  simp only [Re.oneOf]
  rw [run_alt]
  have hsplit : "SEARCH\n".toList ++ X = "SEARCH".toList ++ '\n' :: X := rfl
  rw [hsplit, run_text, run_text_eq_none "ORIGINAL".toList _ _ _ (by simp), Option.or_none,
    run_seq, run_newline]

theorem run_fromMark_none (h : s.head? ≠ some '<') : run noWords fromMark prev s g k = none := by
  unfold fromMark
  rw [run_seq, run_text_eq_none]
  intro hpre
  obtain ⟨t, rfl⟩ := hpre
  exact h rfl

theorem run_mark {info : PyStr} (hinfo : '\n' ∉ info) (X : PyStr) :
    run noWords (.seq (.opt fenceLine) fromMark) prev
        (fenceOpen fenced info ++ (searchMark ++ ("SEARCH\n".toList ++ X))) g k
      = run noWords afterMark (some '\n') X g k := by
  rw [run_seq]
  cases fenced with
  | false =>
      have hopen : fenceOpen false info = [] := rfl
      have hfence : ¬ fence <+: searchMark ++ ("SEARCH\n".toList ++ X) :=
        not_fence_cons (c := '<') (by decide) _
      rw [hopen, List.nil_append, run_opt_skip hfence, run_fromMark]
  | true =>
      have hopen : fenceOpen true info ++ (searchMark ++ ("SEARCH\n".toList ++ X))
          = fence ++ (info ++ '\n' :: (searchMark ++ ("SEARCH\n".toList ++ X))) := by
        simp [fenceOpen]
      rw [hopen, run_opt_take hinfo (run_fromMark_none (by simp [fence])), run_fromMark]

/-- The path line: white space, the path as group 1, white space, the
end of the line. -/
def pathLine (rest : Re) : Re :=
  .seq (.many false isBlankChar)
    (.seq (.group 1 (.seq (.plus isPathChar) (.cls fun c => !Text.isSpace c)))
      (.seq (.many false isBlankChar) (.seq newline rest)))

theorem isBlankChar_of_isSpace {c : Char} (h : Text.isSpace c = false) :
    isBlankChar c = false := by
  cases hb : isBlankChar c with
  | false => rfl
  | true =>
      simp only [isBlankChar, Bool.or_eq_true, beq_iff_eq] at hb
      rcases hb with rfl | rfl <;> simp [Text.isSpace] at h

theorem newline_isSpace : Text.isSpace '\n' = true := by decide

/-- In front of a character that is neither white space nor the end of a
line, the rest of a path line cannot begin. -/
theorem run_lineEnd_none {rest : Re} {c : Char} (hc : Text.isSpace c = false) :
    run noWords (.seq (.many false isBlankChar) (.seq newline rest)) prev (c :: s) g k
      = none := by
  rw [run_seq, run_many, runMany_stop (by simpa using isBlankChar_of_isSpace hc), run_seq]
  apply run_newline_none
  simp only [List.head?_cons, ne_eq, Option.some.injEq]
  rintro rfl
  rw [newline_isSpace] at hc
  cases hc

theorem run_lineEnd {rest : Re} :
    run noWords (.seq (.many false isBlankChar) (.seq newline rest)) prev ('\n' :: s) g k
      = run noWords rest (some '\n') s g k := by
  rw [run_seq, run_many, runMany_stop (by simp [isBlankChar]), run_seq, run_newline]

theorem run_pathLine {path : PyStr}
    (hplain : ∀ c ∈ path, Text.isSpace c = false ∧ isPathChar c = true)
    (hlong : 2 ≤ path.length) (rest : Re) (s : PyStr) :
    run noWords (pathLine rest) prev (path ++ '\n' :: s) g k
      = run noWords rest (some '\n') s ((1, path) :: g) k := by
  -- the path is its first character, a middle, and its last
  obtain ⟨c, t, d, rfl⟩ : ∃ c t d, path = c :: (t ++ [d]) := by
    cases path with
    | nil => simp at hlong
    | cons c cs =>
        rcases List.eq_nil_or_concat' cs with rfl | ⟨t, d, rfl⟩
        · simp at hlong
        · exact ⟨c, t, d, rfl⟩
  have hc := hplain c (by simp)
  have hd := hplain d (by simp)
  have ht : ∀ e ∈ t, Text.isSpace e = false ∧ isPathChar e = true := fun e he =>
    hplain e (by simp [he])
  unfold pathLine
  rw [run_seq, run_many, runMany_stop (by simpa using isBlankChar_of_isSpace hc.1), run_seq,
    run_group, run_seq, Re.plus, run_seq, List.cons_append, run_cls_cons, if_pos hc.2, run_many]
  have hsplit : t ++ [d] ++ '\n' :: s = t ++ d :: ('\n' :: s) := by simp
  rw [hsplit, runMany_backtrack]
  · rw [run_cls_cons, if_pos (by simp [hd.1])]
    have htake : (c :: (t ++ d :: '\n' :: s)).take
        ((c :: (t ++ d :: '\n' :: s)).length - ('\n' :: s).length) = c :: (t ++ [d]) := by
      have hlen : (c :: (t ++ d :: '\n' :: s)).length - ('\n' :: s).length
          = (c :: (t ++ [d])).length := by
        simp only [List.length_cons, List.length_append, List.length_nil]
        omega
      rw [hlen, show c :: (t ++ d :: '\n' :: s) = (c :: (t ++ [d])) ++ '\n' :: s by simp,
        List.take_left']
      rfl
    rw [htake, run_lineEnd]
  · exact fun e he => (ht e he).2
  · exact hd.2
  · simp [isPathChar]
  · rw [run_cls_cons, if_neg (by simp [newline_isSpace])]
  · intro i hi
    rw [List.drop_eq_getElem_cons hi, List.cons_append, run_cls_cons,
      if_pos (by simp [(ht _ (List.getElem_mem hi)).1])]
    -- the next character still belongs to the path
    cases hrest : t.drop (i + 1) with
    | nil => exact run_lineEnd_none hd.1
    | cons e es =>
        have he : e ∈ t := List.mem_of_mem_drop (by rw [hrest]; simp)
        exact run_lineEnd_none (ht e he).1

theorem path_length {s : Shape} (h : s.Ok) : 2 ≤ s.path.length := by
  obtain ⟨stem, ext, hpath, hext, -⟩ := h.extension
  rw [hpath, List.length_append, List.length_cons]
  have := List.length_pos_of_ne_nil hext
  omega

theorem run_pathLine_fence (rest : Re) (s : PyStr) :
    run noWords (pathLine rest) prev (fence ++ s) g k = none := by
  have hfence : fence ++ s = Char.ofNat 96 :: (fence.tail ++ s) := rfl
  unfold pathLine
  rw [hfence, run_seq, run_many, runMany_stop (by simp [isBlankChar]), run_seq, run_group,
    run_seq, Re.plus, run_seq, run_cls_cons, if_neg (by simp [isPathChar])]

/-- Where a search starts: at the front of the response, or behind the
closing marker of the block before. -/
def Entry (fenced : Bool) (prev : Option Char) (lead : PyStr) : Prop :=
  (prev = none ∧ lead = []) ∨ (prev ≠ none ∧ lead = closing fenced)

theorem blockRe_pathLine : blockRe =
    .seq (.alt .textStart newline)
      (.seq (.opt fenceLine) (pathLine (.seq (.opt fenceLine) fromMark))) := rfl

theorem run_opening {lead : PyStr} (hentry : Entry fenced prev lead) {s : Shape}
    (hs : s.Ok) (X : PyStr) :
    run noWords blockRe prev (lead ++ (opening fenced s ++ X)) g k
      = run noWords afterMark (some '\n') X ((1, s.path) :: g) k := by
  obtain ⟨c, cs, hpath⟩ : ∃ c cs, s.path = c :: cs := by
    cases hpath : s.path with
    | nil => simpa [hpath] using path_length hs
    | cons c cs => exact ⟨c, cs, rfl⟩
  have hchar : c ≠ '\n' ∧ c ≠ Char.ofNat 96 := by
    have hc := (hs.path_plain c (by rw [hpath]; simp)).2
    simp only [isPathChar, Bool.and_eq_true, bne_iff_ne] at hc
    exact ⟨hc.1.1.1.1, hc.1.1.1.2⟩
  have hopening : opening fenced s ++ X = s.path ++ '\n' ::
      (fenceOpen fenced s.info ++ (searchMark ++ ("SEARCH\n".toList ++ X))) := by
    simp [opening]
  -- from the path on, behind the start or a newline
  have hfrom : ∀ {p : Option Char},
      run noWords (pathLine (.seq (.opt fenceLine) fromMark)) p (opening fenced s ++ X) g k
        = run noWords afterMark (some '\n') X ((1, s.path) :: g) k := by
    intro p
    rw [hopening, run_pathLine hs.path_plain (path_length hs), run_mark hs.info_line]
  have hnofence : ¬ fence <+: opening fenced s ++ X := by
    rw [hopening, hpath]
    exact not_fence_cons hchar.2 _
  rw [blockRe_pathLine, run_seq, run_alt]
  rcases hentry with ⟨rfl, rfl⟩ | ⟨hprev, rfl⟩
  · have hnewline : ∀ {k' : Option Char → List Char → Groups → Option β},
        run noWords newline none ([] ++ (opening fenced s ++ X)) g k' = none := by
      intro k'
      apply run_newline_none
      rw [List.nil_append, hopening, hpath]
      simp [hchar.1]
    rw [hnewline, Option.or_none, Regex.run, if_pos rfl, List.nil_append, run_seq,
      run_opt_skip hnofence, hfrom]
  · rw [Regex.run, if_neg hprev, Option.none_or]
    cases fenced with
    | false =>
        have hlead : closing false ++ (opening false s ++ X) = '\n' :: (opening false s ++ X) := rfl
        rw [hlead, run_newline, run_seq, run_opt_skip hnofence, hfrom]
    | true =>
        have hlead : closing true ++ (opening true s ++ X)
            = '\n' :: (fence ++ ([] ++ '\n' :: (opening true s ++ X))) := by
          simp [closing]
        rw [hlead, run_newline, run_seq, run_opt_take (by simp) (run_pathLine_fence _ _), hfrom]

-- ===== body

def closeName : Re := .oneOf [.text "REPLACE".toList, .text "MODIFIED".toList]

theorem afterMark_eq : afterMark =
    .seq (.group 2 (.many true fun _ => true)) (.seq (.text separator)
      (.seq (.group 3 (.many true fun _ => true)) (.seq (.text replaceMark) closeName))) := rfl

theorem take_passed (u rest : PyStr) : (u ++ rest).take ((u ++ rest).length - rest.length) = u := by
  rw [List.length_append, Nat.add_sub_cancel, List.take_left' rfl]

theorem run_closeName_none (h : ¬ ClosesAt s) :
    run noWords (.seq (.text replaceMark) closeName) prev s g k = none := by
  rw [run_seq]
  by_cases hmark : replaceMark <+: s
  · obtain ⟨t, rfl⟩ := hmark
    have hname : ∀ {name : PyStr}, name <+: t → replaceMark ++ name <+: replaceMark ++ t :=
      fun hpre => (List.prefix_append_right_inj _).2 hpre
    rw [run_text, closeName]
    simp only [Re.oneOf]
    rw [run_alt, run_text_eq_none _ _ _ _ fun hpre => h (.inl (hname hpre)),
      run_text_eq_none _ _ _ _ fun hpre => h (.inr (hname hpre)), Option.or_none]
  · rw [run_text_eq_none _ _ _ _ hmark]

theorem run_closeName (h : ClosesAt s) (hk : ∀ prev s g, (k prev s g).isSome = true) :
    ∃ name rest c, s = replaceMark ++ (name ++ rest) ∧
      (name = "REPLACE".toList ∨ name = "MODIFIED".toList) ∧
      ∀ prev g, run noWords (.seq (.text replaceMark) closeName) prev s g k
        = k (some c) rest g := by
  rcases h with ⟨rest, rfl⟩ | ⟨rest, rfl⟩
  · refine ⟨"REPLACE".toList, rest, 'E', List.append_assoc _ _ _, .inl rfl, fun prev g => ?_⟩
    obtain ⟨b, hb⟩ := Option.isSome_iff_exists.1 (hk (some 'E') rest g)
    rw [run_seq, List.append_assoc, run_text, closeName]
    simp only [Re.oneOf]
    rw [run_alt, run_text]
    change (k (some 'E') rest g).or _ = _
    rw [hb, Option.some_or]
  · refine ⟨"MODIFIED".toList, rest, 'D', List.append_assoc _ _ _, .inr rfl, fun prev g => ?_⟩
    have hother : ¬ "REPLACE".toList <+: "MODIFIED".toList ++ rest := by
      rintro ⟨t, ht⟩
      injection ht with hhead
      exact absurd hhead (by decide)
    rw [run_seq, List.append_assoc, run_text, closeName]
    simp only [Re.oneOf]
    rw [run_alt, run_text_eq_none _ _ _ _ hother, Option.none_or, run_text]
    rfl

/-- The two texts end at the first separator and at the first closing
marker behind it. -/
theorem run_afterMark {T : PyStr} {i j : Nat} (hsep : separator <+: T.drop i)
    (hclose : ClosesAt (T.drop j)) (hij : i + separator.length ≤ j)
    (hk : ∀ prev s g, (k prev s g).isSome = true) :
    ∃ u v name rest c, T = u ++ (separator ++ (v ++ (replaceMark ++ (name ++ rest)))) ∧
      (name = "REPLACE".toList ∨ name = "MODIFIED".toList) ∧
      (∀ l < u.length, ¬ separator <+: T.drop l) ∧
      (∀ l < v.length, ¬ ClosesAt ((v ++ (replaceMark ++ (name ++ rest))).drop l)) ∧
      ∀ prev g, run noWords afterMark prev T g k
        = k (some c) rest ((3, v) :: (2, u) :: g) := by
  obtain ⟨u, R, rfl, ⟨T', rfl⟩, hu, hbefore⟩ := exists_first hsep
  have hlater : ClosesAt (T'.drop (j - (u.length + separator.length))) := by
    have hj : j = (u ++ separator).length + (j - (u.length + separator.length)) := by
      rw [List.length_append]
      omega
    rwa [← List.append_assoc, hj, List.drop_length_add_append] at hclose
  obtain ⟨v, R', rfl, hR', -, hbefore'⟩ := exists_first hlater
  obtain ⟨name, rest, c, rfl, hname, hrun⟩ := run_closeName hR' hk
  have hinner : ∀ prev g, run noWords (.seq (.text separator)
      (.seq (.group 3 (.many true fun _ => true)) (.seq (.text replaceMark) closeName))) prev
        (separator ++ (v ++ (replaceMark ++ (name ++ rest)))) g k
      = k (some c) rest ((3, v) :: g) := by
    intro prev g
    rw [run_seq, run_text, run_seq, run_group, run_many, runMany_lazy v]
    · rw [take_passed, hrun]
    · intro l hl
      exact run_closeName_none (hbefore' l hl)
    · rw [hrun]
      exact hk _ _ _
  refine ⟨u, v, name, rest, c, rfl, hname, ?_, ?_, fun prev g => ?_⟩
  · intro l hl
    rw [List.drop_append_of_le_length (Nat.le_of_lt hl)]
    exact hbefore l hl
  · intro l hl
    rw [List.drop_append_of_le_length (Nat.le_of_lt hl)]
    exact hbefore' l hl
  · rw [afterMark_eq, run_seq, run_group, run_many, runMany_lazy u]
    · rw [take_passed, hinner]
    · intro l hl
      rw [run_seq, run_text_eq_none _ _ _ _ (hbefore l hl)]
    · rw [hinner]
      exact hk _ _ _

-- ===== scan

/-- A marker that has a newline at most at its end does not reach over
the end of a line: what begins inside whole lines lies inside them. -/
theorem prefix_of_isLines {pat s tail : PyStr} {i : Nat} (hs : IsLines s) (hi : i < s.length)
    (hpat : '\n' ∉ pat.dropLast) (h : pat <+: s.drop i ++ tail) : pat <+: s.drop i := by
  rcases List.prefix_or_prefix_of_prefix h (List.prefix_append (s.drop i) tail) with h | ⟨r, hr⟩
  · exact h
  · rcases List.eq_nil_or_concat' r with rfl | ⟨r, c, rfl⟩
    · rw [List.append_nil] at hr
      exact hr ▸ List.prefix_refl _
    -- the newline that ends the lines would stand inside the marker
    · refine absurd ?_ hpat
      rw [← hr, ← List.append_assoc, List.dropLast_concat]
      rcases hs with rfl | hlast
      · simp at hi
      · refine List.mem_append_left _ (List.mem_of_mem_getLast? ?_)
        rw [List.getLast?_drop, if_neg (Nat.not_le_of_lt hi)]
        exact hlast

theorem first_unique {P : PyStr → Prop} {u X s Y : PyStr} (h : u ++ X = s ++ Y) (hX : P X) (hY : P Y)
    (hu : ∀ l < u.length, ¬ P ((u ++ X).drop l)) (hs : ∀ l < s.length, ¬ P ((s ++ Y).drop l)) :
    u = s ∧ X = Y := by
  refine List.append_inj h (Nat.le_antisymm ?_ ?_)
  · by_contra hlt
    refine hu s.length (by omega) ?_
    rwa [h, List.drop_left' rfl]
  · by_contra hlt
    refine hs u.length (by omega) ?_
    rwa [← h, List.drop_left' rfl]

theorem not_inside {P : PyStr → Prop} (hclean : ∀ i, ¬ P (s.drop i))
    (hinside : ∀ i < s.length, ∀ tail, P (s.drop i ++ tail) → P (s.drop i)) (tail : PyStr) :
    ∀ l < s.length, ¬ P ((s ++ tail).drop l) := by
  intro l hl h
  rw [List.drop_append_of_le_length (Nat.le_of_lt hl)] at h
  exact hclean l (hinside l hl tail h)

theorem not_closesAt_nil : ¬ ClosesAt [] := by decide

theorem closesAt_append (h : ClosesAt s) (tail : PyStr) : ClosesAt (s ++ tail) :=
  h.imp (fun h => h.trans (List.prefix_append s tail)) fun h => h.trans (List.prefix_append s tail)

theorem closesAt_inside (hs : IsLines s) : ∀ i < s.length, ∀ tail,
    ClosesAt (s.drop i ++ tail) → ClosesAt (s.drop i) := fun _ hi _ h =>
  h.imp (prefix_of_isLines hs hi (by decide)) (prefix_of_isLines hs hi (by decide))

/-- The match at the front of a rendered list: it is the first block
exactly when that block is clean, and then goes on behind it. -/
theorem matchAt_render {lead : PyStr} (hentry : Entry fenced prev lead) {s : Shape}
    (hs : s.Ok) (tail : PyStr) :
    ∃ m, matchAt noWords blockRe prev (lead ++ (opening fenced s ++ (body s ++ tail))) = some m ∧
      m.groups.get 1 = s.path ∧ m.last ≠ none ∧
      (s.Clean → m.groups.get 2 = s.search ∧ m.groups.get 3 = s.replace ∧ m.rest = tail) ∧
      (m.groups.get 2 = s.search → m.groups.get 3 = s.replace → s.Clean) := by
  have hbody : body s ++ tail = s.search ++ (separator ++ (s.replace ++
      (replaceMark ++ ("REPLACE".toList ++ tail)))) := by
    simp only [body, List.append_assoc]
  have hsep : separator <+: (body s ++ tail).drop s.search.length := by
    rw [hbody, List.drop_left' rfl]
    exact List.prefix_append _ _
  have hmark : ClosesAt (replaceMark ++ ("REPLACE".toList ++ tail)) := by
    rw [← List.append_assoc]
    exact .inl (List.prefix_append _ _)
  have hclose : ClosesAt ((body s ++ tail).drop
      (s.search.length + (separator.length + s.replace.length))) := by
    rw [hbody, List.drop_length_add_append, List.drop_length_add_append, List.drop_left' rfl]
    exact hmark
  obtain ⟨u, v, name, rest, c, hT, hname, hu, hv, hrun⟩ := run_afterMark
    (k := fun last rest groups => some (Match.mk groups last rest)) hsep hclose (by omega)
    fun _ _ _ => rfl
  refine ⟨⟨[(3, v), (2, u), (1, s.path)], some c, rest⟩, ?_, rfl, by simp, ?_, ?_⟩
  · rw [matchAt, run_opening hentry hs, hrun]
  · intro hclean
    rw [hT] at hu hbody
    obtain ⟨rfl, hX⟩ := first_unique hbody (List.prefix_append _ _) (List.prefix_append _ _) hu
      (not_inside (P := fun t => separator <+: t) hclean.search
        (fun i hi _ => prefix_of_isLines hs.search_lines hi (by decide)) _)
    have hcloses : ClosesAt (replaceMark ++ (name ++ rest)) := by
      rw [← List.append_assoc]
      rcases hname with rfl | rfl
      · exact .inl (List.prefix_append _ _)
      · exact .inr (List.prefix_append _ _)
    obtain ⟨rfl, hY⟩ := first_unique (List.append_cancel_left hX) hcloses hmark hv
      (not_inside hclean.replace (closesAt_inside hs.replace_lines) _)
    refine ⟨rfl, rfl, ?_⟩
    have hend := List.append_cancel_left hY
    rcases hname with rfl | rfl
    · exact List.append_cancel_left hend
    · injection hend with hhead
      exact absurd hhead (by decide)
  · intro hsearch hreplace
    change u = s.search at hsearch
    change v = s.replace at hreplace
    subst hsearch hreplace
    refine ⟨fun i hi => ?_, fun i hi => ?_⟩
    · rcases Nat.lt_or_ge i s.search.length with hlt | hge
      · refine hu i hlt ?_
        rw [hbody, List.drop_append_of_le_length (Nat.le_of_lt hlt)]
        exact hi.trans (List.prefix_append _ _)
      · rw [List.drop_eq_nil_of_le hge] at hi
        exact absurd hi (by decide)
    · rcases Nat.lt_or_ge i s.replace.length with hlt | hge
      · refine hv i hlt ?_
        rw [List.drop_append_of_le_length (Nat.le_of_lt hlt)]
        exact closesAt_append hi _
      · rw [List.drop_eq_nil_of_le hge] at hi
        exact not_closesAt_nil hi

/-- Without an opening marker ahead the first pattern finds nothing. -/
theorem find_blockRe_none (hs : '<' ∉ s) : find noWords blockRe prev s = none := by
  cases hfind : find noWords blockRe prev s with
  | none => rfl
  | some m =>
      obtain ⟨t, s', rfl, hm⟩ := find_eq_some hfind
      have hnone : matchAt noWords blockRe (lastOf prev t) s' = none := by
        have hC : ∀ c (s : PyStr), '<' ∉ c :: s → '<' ∉ s := fun _ _ h hs => h (by simp [hs])
        have hmark : ∀ prev (s : PyStr) (g : Groups), '<' ∉ s →
            run noWords fromMark prev s g (fun last rest groups => some (Match.mk groups last rest))
              = none := fun _ s _ h => run_fromMark_none fun hhead => h (List.mem_of_mem_head? hhead)
        -- every way leads to a place further on, where the marker is missing
        have hafter := run_seq_eq_none (a := .opt fenceLine) hC hmark
        have hline := run_seq_eq_none (a := .many false isBlankChar) hC
          (run_seq_eq_none (a := newline) hC hafter)
        have hpath := run_seq_eq_none (a := .many false isBlankChar) hC
          (run_seq_eq_none (a := .group 1 (.seq (.plus isPathChar) (.cls fun c => !Text.isSpace c)))
            hC hline)
        exact run_seq_eq_none (a := .alt .textStart newline) hC
          (run_seq_eq_none (a := .opt fenceLine) hC hpath) _ _ _
          fun h => hs (List.mem_append_right t h)
      rw [hnone] at hm
      cases hm

theorem nonempty_path {s : Shape} (hs : s.Ok) : s.path ≠ [] := by
  intro h
  have := path_length hs
  rw [h] at this
  simp at this

/-- A match whose group 1 is the path of a shape is dropped only for its
length. -/
theorem blockOf_path {m : Match} {s : Shape} (hs : s.Ok) (hpath : m.groups.get 1 = s.path) :
    blockOf m = if MAX_PATH_CHARS < s.path.length then none
      else some (EditBlock.ofParts s.path (m.groups.get 2) (m.groups.get 3)) := by
  have hstrip : Text.strip s.path = s.path := Text.trim_eq_self fun c hc => (hs.path_plain c hc).1
  have hline : s.path.contains '\n' = false := by
    rw [← Bool.not_eq_true, List.contains_iff_mem]
    intro hmem
    have := (hs.path_plain _ hmem).2
    simp [isPathChar] at this
  unfold blockOf
  simp only [hpath, hstrip, nonempty_path hs, hline, Bool.false_eq_true, false_or]

theorem closing_cases (fenced : Bool) : '<' ∉ closing fenced := by
  cases fenced <;> decide

theorem render_cons (fenced : Bool) (s : Shape) (rest : List Shape) :
    render fenced (s :: rest) = opening fenced s ++ (body s ++ (closing fenced ++ render fenced rest)) :=
  rfl

theorem findAll_render {shapes : List Shape} :
    ∀ {n : Nat} {prev : Option Char} {lead : PyStr}, Entry fenced prev lead → shapes.length < n →
      (∀ s ∈ shapes, s.Ok ∧ s.Clean ∧ s.path.length ≤ MAX_PATH_CHARS) →
      (findAll noWords blockRe n prev (lead ++ render fenced shapes)).filterMap blockOf
        = shapes.map Shape.block := by
  induction shapes with
  | nil =>
      intro n prev lead hentry hn _
      obtain ⟨n, rfl⟩ : ∃ m, n = m + 1 := ⟨n - 1, by simp at hn; omega⟩
      have hlead : '<' ∉ lead ++ render fenced [] := by
        rcases hentry with ⟨-, rfl⟩ | ⟨-, rfl⟩
        · simp [render]
        · simpa [render] using closing_cases fenced
      rw [findAll, find_blockRe_none hlead]
      rfl
  | cons s rest ih =>
      intro n prev lead hentry hn hall
      obtain ⟨n, rfl⟩ : ∃ m, n = m + 1 := ⟨n - 1, by simp at hn; omega⟩
      obtain ⟨hs, hclean, hshort⟩ := hall s (by simp)
      obtain ⟨m, hm, hpath, hlast, hparts, -⟩ :=
        matchAt_render hentry hs (closing fenced ++ render fenced rest)
      obtain ⟨hsearch, hreplace, hrest⟩ := hparts hclean
      have hblock : blockOf m = some s.block := by
        rw [blockOf_path hs hpath, if_neg (Nat.not_lt.2 hshort), hsearch, hreplace]
        rfl
      rw [findAll, render_cons, find_front hm]
      simp only
      rw [List.filterMap_cons_some hblock, hrest, ih (.inr ⟨hlast, rfl⟩) (by simpa using hn)
        fun s hs => hall s (by simp [hs])]
      rfl

theorem block_inj {s : Shape} {original proposed : PyStr}
    (h : EditBlock.ofParts s.path original proposed = s.block) :
    original = s.search ∧ proposed = s.replace :=
  ⟨congrArg EditBlock.original h, congrArg EditBlock.proposed h⟩

/-- When a scan begins with the rendered blocks, they are clean and it
ends with them. -/
theorem clean_of_findAll {shapes : List Shape} {more : List EditBlock} :
    ∀ {n : Nat} {prev : Option Char} {lead : PyStr}, Entry fenced prev lead → shapes.length < n →
      (∀ s ∈ shapes, s.Ok ∧ s.path.length ≤ MAX_PATH_CHARS) →
      (findAll noWords blockRe n prev (lead ++ render fenced shapes)).filterMap blockOf ++ more
        = shapes.map Shape.block →
      (∀ s ∈ shapes, s.Clean) ∧ more = [] := by
  induction shapes with
  | nil =>
      intro n prev lead _ _ _ h
      rw [List.map_nil, List.append_eq_nil_iff] at h
      exact ⟨by simp, h.2⟩
  | cons s rest ih =>
      intro n prev lead hentry hn hall h
      obtain ⟨n, rfl⟩ : ∃ m, n = m + 1 := ⟨n - 1, by simp at hn; omega⟩
      obtain ⟨hs, hshort⟩ := hall s (by simp)
      obtain ⟨m, hm, hpath, hlast, hparts, hclean⟩ :=
        matchAt_render hentry hs (closing fenced ++ render fenced rest)
      have hblock := blockOf_path hs hpath
      rw [if_neg (Nat.not_lt.2 hshort)] at hblock
      rw [findAll, render_cons, find_front hm] at h
      simp only at h
      rw [List.filterMap_cons_some hblock, List.cons_append, List.map_cons] at h
      injection h with hhead htail
      obtain ⟨hsearch, hreplace⟩ := block_inj hhead
      have hs' := hclean hsearch hreplace
      rw [(hparts hs').2.2] at htail
      obtain ⟨hrest, hmore⟩ := ih (.inr ⟨hlast, rfl⟩) (by simpa using hn)
        (fun s hs => hall s (by simp [hs])) htail
      refine ⟨?_, hmore⟩
      intro t ht
      rcases List.mem_cons.1 ht with rfl | ht
      · exact hs'
      · exact hrest t ht

theorem length_le_render (fenced : Bool) (shapes : List Shape) :
    shapes.length ≤ (render fenced shapes).length := by
  induction shapes with
  | nil => simp
  | cons s rest ih =>
      have hclosing : 0 < (closing fenced).length := by cases fenced <;> decide
      simp only [render, List.length_cons, List.length_append]
      omega

theorem blocksOf_render {shapes : List Shape}
    (hall : ∀ s ∈ shapes, s.Ok ∧ s.Clean ∧ s.path.length ≤ MAX_PATH_CHARS) :
    blocksOf blockRe (render fenced shapes) = shapes.map Shape.block :=
  findAll_render (.inl ⟨rfl, rfl⟩) (Nat.lt_succ_of_le (length_le_render fenced shapes)) hall

-- ===== the second pattern

/-- What the second pattern takes for a path: it ends in a dot and
letters or digits. -/
def IsFencedPath (path : PyStr) : Prop :=
  ∃ stem ext, path = stem ++ '.' :: ext ∧ stem ≠ [] ∧ ext ≠ [] ∧
    (∀ c ∈ stem, isPathChar c = true) ∧ ∀ c ∈ ext, Text.isAlnum c = true

/-- A fenced block, as the second pattern sees one: a path line, a fence
line and an opening marker directly below it, a text, a separator, a
text, and a closing marker with a fence directly below it. -/
structure Fenced where
  path : PyStr
  blanks : PyStr
  info : PyStr
  opener : PyStr
  search : PyStr
  replace : PyStr
  closer : PyStr
  after : PyStr

structure Fenced.Ok (f : Fenced) : Prop where
  path : IsFencedPath f.path
  blanks : ∀ c ∈ f.blanks, isBlankChar c = true
  info : '\n' ∉ f.info
  opener : f.opener = "SEARCH".toList ∨ f.opener = "ORIGINAL".toList
  closer : f.closer = "REPLACE".toList ∨ f.closer = "MODIFIED".toList

def Fenced.text (f : Fenced) : PyStr :=
  f.path ++ (f.blanks ++ '\n' :: (fence ++ (f.info ++ '\n' :: (searchMark ++ (f.opener ++ '\n' ::
    (f.search ++ (separator ++ (f.replace ++ (replaceMark ++
      (f.closer ++ '\n' :: (fence ++ f.after)))))))))))

/-- A fenced block stands somewhere in a text, at the front of a line. -/
def HoldsFenced (text : PyStr) : Prop :=
  ∃ before, ∃ f : Fenced, f.Ok ∧ text = before ++ f.text ∧
    (before = [] ∨ before.getLast? = some '\n')

def fencedPathRe : Re := .cat [.plus isPathChar, .cls (· == '.'), .plus Text.isAlnum]

theorem takes_fencedPath {s s' : PyStr} :
    Takes noWords fencedPathRe prev s g prev' s' g' ↔
      ∃ path, IsFencedPath path ∧ s = path ++ s' ∧ prev' = lastOf prev path ∧ g' = g := by
  simp only [fencedPathRe, Re.cat, Takes, takes_plus, beq_iff_eq]
  constructor
  · rintro ⟨_, _, _, ⟨stem, hne, hstem, rfl, rfl, rfl⟩, _, _, _, ⟨_, rfl, rfl, rfl, rfl⟩,
      ext, hne', hext, rfl, rfl, rfl⟩
    refine ⟨stem ++ '.' :: ext, ⟨stem, ext, rfl, hne, hne', hstem, hext⟩, by simp, ?_, rfl⟩
    rw [lastOf_append, lastOf_cons]
  · rintro ⟨_, ⟨stem, ext, rfl, hne, hne', hstem, hext⟩, rfl, rfl, rfl⟩
    refine ⟨lastOf prev stem, '.' :: ext ++ s', g', ⟨stem, hne, hstem, by simp, rfl, rfl⟩,
      some '.', ext ++ s', g', ⟨'.', rfl, rfl, rfl, rfl⟩, ext, hne', hext, rfl, ?_, rfl⟩
    rw [lastOf_append, lastOf_cons]

theorem takes_newline {s s' : PyStr} :
    Takes noWords newline prev s g prev' s' g' ↔ s = '\n' :: s' ∧ prev' = some '\n' ∧ g' = g := by
  simp only [newline, Takes, beq_iff_eq]
  constructor
  · rintro ⟨_, rfl, rfl, rfl, rfl⟩
    exact ⟨rfl, rfl, rfl⟩
  · rintro ⟨rfl, rfl, rfl⟩
    exact ⟨'\n', rfl, rfl, rfl, rfl⟩

theorem notNewline_iff : (∀ c ∈ s, notNewline c = true) ↔ '\n' ∉ s := by
  constructor
  · intro h hmem
    simpa [notNewline] using h _ hmem
  · intro h c hc
    have hne : c ≠ '\n' := fun heq => h (heq ▸ hc)
    simpa [notNewline] using hne

theorem takes_fenceLine {s s' : PyStr} :
    Takes noWords fenceLine prev s g prev' s' g' ↔
      ∃ info, '\n' ∉ info ∧ s = fence ++ (info ++ '\n' :: s') ∧ prev' = some '\n' ∧ g' = g := by
  simp only [fenceLine, Re.cat, Takes, takes_text, takes_newline, notNewline_iff]
  constructor
  · rintro ⟨_, _, _, ⟨rfl, rfl, rfl⟩, _, _, _, ⟨info, hinfo, rfl, rfl, rfl⟩, rfl, rfl, rfl⟩
    exact ⟨info, hinfo, rfl, rfl, rfl⟩
  · rintro ⟨info, hinfo, rfl, rfl, rfl⟩
    exact ⟨_, _, _, ⟨rfl, rfl, rfl⟩, _, _, _, ⟨info, hinfo, rfl, rfl, rfl⟩, rfl, rfl, rfl⟩

theorem takes_names {a b s s' : PyStr} :
    Takes noWords (.oneOf [.text a, .text b]) prev s g prev' s' g' ↔
      ∃ name, (name = a ∨ name = b) ∧ s = name ++ s' ∧ prev' = lastOf prev name ∧ g' = g := by
  simp only [Re.oneOf, Takes, takes_text]
  constructor
  · rintro (⟨rfl, rfl, rfl⟩ | ⟨rfl, rfl, rfl⟩)
    · exact ⟨a, .inl rfl, rfl, rfl, rfl⟩
    · exact ⟨b, .inr rfl, rfl, rfl, rfl⟩
  · rintro ⟨_, rfl | rfl, rfl, rfl, rfl⟩
    · exact .inl ⟨rfl, rfl, rfl⟩
    · exact .inr ⟨rfl, rfl, rfl⟩

/-- The closing marker of a fenced block and the fence below it. -/
def closingRe : Re := .seq (.text replaceMark) (.seq closeName (.seq newline (.text fence)))

theorem takes_closing {s s' : PyStr} (h : Takes noWords closingRe prev s g prev' s' g') :
    ∃ closer, (closer = "REPLACE".toList ∨ closer = "MODIFIED".toList) ∧
      s = replaceMark ++ (closer ++ '\n' :: (fence ++ s')) ∧ g' = g := by
  simp only [closingRe, closeName, Takes, takes_text, takes_newline, takes_names] at h
  obtain ⟨_, _, _, ⟨rfl, -, rfl⟩, _, _, _, ⟨closer, hcloser, rfl, -, rfl⟩, _, _, _,
    ⟨rfl, -, rfl⟩, rfl, -, rfl⟩ := h
  exact ⟨closer, hcloser, rfl, rfl⟩

def textsRe : Re :=
  .seq (.group 2 (.many true fun _ => true)) (.seq (.text separator)
    (.seq (.group 3 (.many true fun _ => true)) closingRe))

theorem takes_texts {s s' : PyStr} (h : Takes noWords textsRe prev s g prev' s' g') :
    ∃ search replace closer t₂ t₃, (closer = "REPLACE".toList ∨ closer = "MODIFIED".toList) ∧
      s = search ++ (separator ++ (replace ++ (replaceMark ++ (closer ++ '\n' :: (fence ++ s')))))
      ∧ g' = (3, t₃) :: (2, t₂) :: g := by
  simp only [textsRe, Takes, takes_text] at h
  obtain ⟨_, _, _, ⟨_, ⟨search, -, rfl, -, rfl⟩, rfl⟩, _, _, _, ⟨rfl, -, rfl⟩, _, _, _,
    ⟨_, ⟨replace, -, rfl, -, rfl⟩, rfl⟩, hclosing⟩ := h
  obtain ⟨closer, hcloser, rfl, rfl⟩ := takes_closing hclosing
  exact ⟨search, replace, closer, _, _, hcloser, rfl, rfl⟩

def openedRe : Re :=
  .seq (.text searchMark) (.seq (.oneOf [.text "SEARCH".toList, .text "ORIGINAL".toList])
    (.seq newline textsRe))

theorem fenceBlockRe_eq : fenceBlockRe =
    .seq (.alt .textStart newline) (.seq (.group 1 fencedPathRe) (.seq (.many false isBlankChar)
      (.seq newline (.seq fenceLine openedRe)))) := rfl

theorem fenced_of_takes {s s' : PyStr} (h : Takes noWords fenceBlockRe prev s g prev' s' g') :
    ∃ lead, ∃ f : Fenced, f.Ok ∧ s = lead ++ f.text ∧ g'.get 1 = f.path ∧
      ((prev = none ∧ lead = []) ∨ lead = ['\n']) := by
  simp only [fenceBlockRe_eq, openedRe, Takes, takes_text, takes_newline, takes_fenceLine,
    takes_fencedPath, takes_names] at h
  obtain ⟨_, t₁, _, hlead, _, _, _, ⟨_, ⟨path, hpath, rfl, -, rfl⟩, rfl⟩, _, _, _,
    ⟨blanks, hblanks, rfl, -, rfl⟩, _, _, _, ⟨rfl, -, rfl⟩, _, _, _,
    ⟨info, hinfo, rfl, -, rfl⟩, _, _, _, ⟨rfl, -, rfl⟩, _, _, _,
    ⟨opener, hopener, rfl, -, rfl⟩, _, _, _, ⟨rfl, -, rfl⟩, htexts⟩ := h
  obtain ⟨search, replace, closer, t₂, t₃, hcloser, rfl, rfl⟩ := takes_texts htexts
  have hok : (Fenced.mk path blanks info opener search replace closer s').Ok :=
    ⟨hpath, hblanks, hinfo, hopener, hcloser⟩
  have hgroup : ∀ rest g₀, Groups.get ((3, t₃) :: (2, t₂) ::
      (1, (path ++ rest).take ((path ++ rest).length - rest.length)) :: g₀) 1 = path := by
    intro rest g₀
    rw [take_passed]
    rfl
  rcases hlead with ⟨hprev, -, rfl, -⟩ | ⟨rfl, -, -⟩
  · exact ⟨[], _, hok, rfl, hgroup _ _, .inl ⟨hprev, rfl⟩⟩
  · exact ⟨['\n'], _, hok, rfl, hgroup _ _, .inr rfl⟩

theorem takes_of_fenced {f : Fenced} (hf : f.Ok) {lead : PyStr}
    (hlead : (prev = none ∧ lead = []) ∨ lead = ['\n']) :
    ∃ prev' g', Takes noWords fenceBlockRe prev (lead ++ f.text) g prev' f.after g' := by
  have hclosing : ∀ {q h}, ∃ prev' g', Takes noWords closingRe q
      (replaceMark ++ (f.closer ++ '\n' :: (fence ++ f.after))) h prev' f.after g' := by
    intro q h
    simp only [closingRe, closeName, Takes, takes_text, takes_newline, takes_names]
    exact ⟨_, _, _, _, _, ⟨rfl, rfl, rfl⟩, _, _, _, ⟨_, hf.closer, rfl, rfl, rfl⟩, _, _, _,
      ⟨rfl, rfl, rfl⟩, rfl, rfl, rfl⟩
  have htexts : ∀ {q h}, ∃ prev' g', Takes noWords textsRe q (f.search ++ (separator ++
      (f.replace ++ (replaceMark ++ (f.closer ++ '\n' :: (fence ++ f.after)))))) h prev' f.after
        g' := by
    intro q h
    obtain ⟨_, _, hrest⟩ := hclosing
    simp only [textsRe, Takes, takes_text]
    exact ⟨_, _, _, _, _, ⟨_, ⟨_, fun _ _ => trivial, rfl, rfl, rfl⟩, rfl⟩, _, _, _, ⟨rfl, rfl, rfl⟩,
      _, _, _, ⟨_, ⟨_, fun _ _ => trivial, rfl, rfl, rfl⟩, rfl⟩, hrest⟩
  have hstart : ∃ q h, Takes noWords (.alt .textStart newline) prev (lead ++ f.text) g q f.text
      h := by
    rcases hlead with ⟨hprev, rfl⟩ | rfl
    · exact ⟨_, _, .inl ⟨hprev, rfl, rfl, rfl⟩⟩
    · exact ⟨_, _, .inr (takes_newline.2 ⟨rfl, rfl, rfl⟩)⟩
  obtain ⟨_, _, hstart⟩ := hstart
  obtain ⟨prev', g', hrest⟩ := htexts
  refine ⟨prev', g', ?_⟩
  rw [fenceBlockRe_eq]
  refine ⟨_, _, _, hstart, ?_⟩
  simp only [openedRe, Takes, takes_text, takes_newline, takes_fenceLine, takes_fencedPath,
    takes_names]
  exact ⟨_, _, _, ⟨_, ⟨_, hf.path, rfl, rfl, rfl⟩, rfl⟩, _, _, _, ⟨_, hf.blanks, rfl, rfl, rfl⟩,
    _, _, _, ⟨rfl, rfl, rfl⟩, _, _, _, ⟨_, hf.info, rfl, rfl, rfl⟩, _, _, _, ⟨rfl, rfl, rfl⟩,
    _, _, _, ⟨_, hf.opener, rfl, rfl, rfl⟩, _, _, _, ⟨rfl, rfl, rfl⟩, hrest⟩

theorem fenced_of_find {text : PyStr} {m : Match}
    (h : find noWords fenceBlockRe none text = some m) :
    ∃ before, ∃ f : Fenced, f.Ok ∧ text = before ++ f.text ∧ m.groups.get 1 = f.path ∧
      (before = [] ∨ before.getLast? = some '\n') := by
  obtain ⟨t, s', rfl, hm⟩ := find_eq_some h
  obtain ⟨prev', rest, g', htakes, hmatch⟩ := run_eq_some _ hm
  obtain ⟨lead, f, hf, rfl, hpath, hlead⟩ := fenced_of_takes htakes
  cases hmatch
  refine ⟨t ++ lead, f, hf, (List.append_assoc _ _ _).symm, hpath, ?_⟩
  rcases hlead with ⟨hlast, rfl⟩ | rfl
  · left
    simpa [lastOf] using hlast
  · right
    rw [List.getLast?_concat]

theorem find_of_holdsFenced {text : PyStr} (h : HoldsFenced text) :
    ∃ m, find noWords fenceBlockRe none text = some m := by
  obtain ⟨before, f, hf, rfl, hbefore⟩ := h
  apply Option.isSome_iff_exists.1
  rcases hbefore with rfl | hlast
  · obtain ⟨prev', g', htakes⟩ := @takes_of_fenced none [] f hf [] (.inl ⟨rfl, rfl⟩)
    exact find_isSome (t := []) (matchAt_isSome.2 ⟨_, _, _, htakes⟩)
  · obtain ⟨t, rfl⟩ := List.getLast?_eq_some_iff.1 hlast
    obtain ⟨prev', g', htakes⟩ := @takes_of_fenced (lastOf none t) [] f hf ['\n'] (.inr rfl)
    rw [List.append_assoc]
    exact find_isSome (matchAt_isSome.2 ⟨_, _, _, htakes⟩)

def ShortLines (text : PyStr) : Prop :=
  ∀ t, t <:+: text → '\n' ∉ t → t.length ≤ MAX_PATH_CHARS

theorem alnum_not_space {c : Char} (h : Text.isAlnum c = true) : Text.isSpace c = false := by
  have hle : ∀ a b : Char, a ≤ b ↔ a.toNat ≤ b.toNat := fun _ _ => Iff.rfl
  simp only [Text.isAlnum, Text.isLower, Text.isUpper, Text.isDigit, Bool.or_eq_true,
    Bool.and_eq_true, decide_eq_true_eq, hle, Char.reduceToNat] at h
  cases hspace : Text.isSpace c with
  | false => rfl
  | true =>
      simp only [Text.isSpace, Bool.or_eq_true, Bool.and_eq_true, decide_eq_true_eq, beq_iff_eq]
        at hspace
      omega

theorem Fenced.Ok.path_line {f : Fenced} (hf : f.Ok) : '\n' ∉ f.path := by
  obtain ⟨stem, ext, heq, -, -, hstem, halnum⟩ := hf.path
  intro hmem
  rw [heq] at hmem
  rcases List.mem_append.1 hmem with hmem | hmem
  · simpa [isPathChar] using hstem _ hmem
  · rcases List.mem_cons.1 hmem with hmem | hmem
    · exact absurd hmem (by decide)
    · have := alnum_not_space (halnum _ hmem)
      rw [newline_isSpace] at this
      cases this

/-- A match of the second pattern is a block, when its path is not too
long. -/
theorem blockOf_fenced {m : Match} {f : Fenced} (hf : f.Ok) (hpath : m.groups.get 1 = f.path)
    (hshort : f.path.length ≤ MAX_PATH_CHARS) : blockOf m ≠ none := by
  obtain ⟨stem, ext, heq, -, hext, -, halnum⟩ := hf.path
  have hne : Text.strip f.path ≠ [] := by
    obtain ⟨c, cs, rfl⟩ := List.exists_cons_of_ne_nil hext
    refine List.ne_nil_of_mem (Text.mem_trim (c := c) ?_ (alnum_not_space (halnum c (by simp))))
    rw [heq]
    simp
  have hline : '\n' ∉ Text.strip f.path := fun hmem => hf.path_line (Text.mem_of_mem_trim hmem)
  have hlength : ¬ MAX_PATH_CHARS < (Text.strip f.path).length :=
    Nat.not_lt.2 (Nat.le_trans (Text.length_trim_le _ _) hshort)
  unfold blockOf
  simp [hpath, hne, hline, hlength]

theorem blocksOf_fenceBlockRe {text : PyStr} (h : ¬ HoldsFenced text) :
    blocksOf fenceBlockRe text = [] := by
  have hnone : find noWords fenceBlockRe none text = none := by
    cases hfind : find noWords fenceBlockRe none text with
    | none => rfl
    | some m =>
        obtain ⟨before, f, hf, htext, -, hbefore⟩ := fenced_of_find hfind
        exact absurd ⟨before, f, hf, htext, hbefore⟩ h
  unfold blocksOf finditer
  rw [findAll, hnone]
  rfl

theorem blocksOf_fenceBlockRe_ne {text : PyStr} (hshort : ShortLines text) (h : HoldsFenced text) :
    blocksOf fenceBlockRe text ≠ [] := by
  obtain ⟨m, hm⟩ := find_of_holdsFenced h
  obtain ⟨before, f, hf, rfl, hpath, -⟩ := fenced_of_find hm
  have hblock : blockOf m ≠ none :=
    blockOf_fenced hf hpath (hshort _ ⟨before, _, List.append_assoc _ _ _⟩ hf.path_line)
  obtain ⟨b, hb⟩ := Option.ne_none_iff_exists'.1 hblock
  unfold blocksOf finditer
  rw [findAll, hm]
  simp only
  rw [List.filterMap_cons_some hb]
  exact List.cons_ne_nil _ _

-- ===== the whole

/-- What a list of shapes needs to be read back by the first pattern. -/
structure Readable (shapes : List Shape) : Prop where
  some : shapes ≠ []
  clean : ∀ s ∈ shapes, s.Clean
  short : ∀ s ∈ shapes, s.path.length ≤ MAX_PATH_CHARS

theorem length_of_mem_blocksOf {pattern : Re} {text : PyStr} {b : EditBlock}
    (hb : b ∈ blocksOf pattern text) : b.filePath.length ≤ MAX_PATH_CHARS := by
  obtain ⟨m, -, hm⟩ := List.mem_filterMap.1 hb
  unfold blockOf at hm
  simp only at hm
  split at hm
  next => cases hm
  next h =>
    cases hm
    simp only [not_or, Nat.not_lt] at h
    exact h.2.2

theorem parse_eq_ok {response : PyStr} {blocks : List EditBlock} :
    parse response = .ok blocks ↔
      blocks ≠ [] ∧ blocksOf blockRe response ++ blocksOf fenceBlockRe response = blocks := by
  unfold parse
  simp only
  split
  next hnone =>
    constructor
    · intro h
      cases h
    · rintro ⟨hne, rfl⟩
      exact absurd hnone hne
  next hsome =>
    constructor
    · intro h
      cases h
      exact ⟨hsome, rfl⟩
    · rintro ⟨-, rfl⟩
      rfl

/-- Readable shapes are read back, when the rendering holds no block of
the second pattern; and only readable ones are, and without such a block
unless a line is too long for a path. -/
theorem parse_render (fenced : Bool) (shapes : List Shape) (hok : ∀ s ∈ shapes, s.Ok) :
    (Readable shapes → ¬ HoldsFenced (render fenced shapes) →
      parse (render fenced shapes) = .ok (shapes.map Shape.block)) ∧
    (parse (render fenced shapes) = .ok (shapes.map Shape.block) →
      Readable shapes ∧ (ShortLines (render fenced shapes) →
        ¬ HoldsFenced (render fenced shapes))) := by
  constructor
  · intro hread hbare
    refine parse_eq_ok.2 ⟨fun h => hread.some (List.map_eq_nil_iff.1 h), ?_⟩
    rw [blocksOf_render fun s hs => ⟨hok s hs, hread.clean s hs, hread.short s hs⟩,
      blocksOf_fenceBlockRe hbare, List.append_nil]
  · intro h
    obtain ⟨hne, hblocks⟩ := parse_eq_ok.1 h
    have hshort : ∀ s ∈ shapes, s.path.length ≤ MAX_PATH_CHARS := by
      intro s hs
      have hmem : s.block ∈ blocksOf blockRe (render fenced shapes)
          ++ blocksOf fenceBlockRe (render fenced shapes) := by
        rw [hblocks]
        exact List.mem_map_of_mem hs
      rcases List.mem_append.1 hmem with hmem | hmem
      · exact length_of_mem_blocksOf hmem
      · exact length_of_mem_blocksOf hmem
    obtain ⟨hclean, hmore⟩ := clean_of_findAll (.inl ⟨rfl, rfl⟩)
      (Nat.lt_succ_of_le (length_le_render fenced shapes)) (fun s hs => ⟨hok s hs, hshort s hs⟩)
      hblocks
    exact ⟨⟨fun h => hne (by rw [h]; rfl), hclean, hshort⟩,
      fun hlines hholds => blocksOf_fenceBlockRe_ne hlines hholds hmore⟩

def oneLine : Shape := { path := "a.py".toList, search := "x\n".toList, replace := "y\n".toList }

def heading : Shape :=
  { path := "a.md".toList, search := "Title\n=========\n".toList, replace := "Title\n".toList }

theorem oneLine_ok : oneLine.Ok where
  path_plain := Text.all_mem (by decide)
  extension := ⟨"a".toList, "py".toList, rfl, by decide, by decide⟩
  search_lines := .inr rfl
  replace_lines := .inr rfl
  search_unmarked := by decide
  replace_unmarked := by decide
  info_line := by decide

theorem heading_ok : heading.Ok where
  path_plain := Text.all_mem (by decide)
  extension := ⟨"a".toList, "md".toList, rfl, by decide, by decide⟩
  search_lines := .inr rfl
  replace_lines := .inr rfl
  search_unmarked := by decide
  replace_unmarked := by decide
  info_line := by decide

/-- One bare edit is read back. -/
theorem parse_render_one : parse (render false [oneLine]) = .ok [oneLine.block] := by
  have hread : Readable [oneLine] := by
    refine ⟨by simp, fun s hs => ?_, by decide⟩
    rw [List.mem_singleton.1 hs]
    -- the texts are shorter than the markers
    have hlong : ∀ {pat t : PyStr} {i : Nat}, pat <+: t.drop i → pat.length ≤ t.length :=
      fun h => Nat.le_trans h.length_le (by rw [List.length_drop]; omega)
    refine ⟨fun i hi => absurd (hlong hi) (by decide), fun i hi => ?_⟩
    rcases hi with hi | hi
    · exact absurd (hlong hi) (by decide)
    · exact absurd (hlong hi) (by decide)
  have hbare : ¬ HoldsFenced (render false [oneLine]) := by
    intro h
    obtain ⟨m, hm⟩ := find_of_holdsFenced h
    have hnone : find noWords fenceBlockRe none (render false [oneLine]) = none := by
      decide +kernel
    rw [hnone] at hm
    cases hm
  exact (parse_render false [oneLine] (by simpa using oneLine_ok)).1 hread hbare

/-- Fenced, it is read twice; and a bare heading is cut at its
underline. -/
theorem parse_render_fails :
    ¬ (∀ shapes, (∀ s ∈ shapes, s.Ok) →
        parse (render true shapes) = .ok (shapes.map Shape.block)) ∧
    ¬ (∀ shapes, (∀ s ∈ shapes, s.Ok) →
        parse (render false shapes) = .ok (shapes.map Shape.block)) := by
  constructor
  · intro h
    have hparse := h [oneLine] (by simpa using oneLine_ok)
    have htwice : parse (render true [oneLine]) = .ok [oneLine.block, oneLine.block] :=
      parse_eq_ok.2 ⟨by decide, by decide +kernel⟩
    rw [htwice] at hparse
    simp at hparse
  · intro h
    obtain ⟨-, hblocks⟩ := parse_eq_ok.1 (h [heading] (by simpa using heading_ok))
    exact absurd hblocks (by decide +kernel)

end Velune.EditFormats
