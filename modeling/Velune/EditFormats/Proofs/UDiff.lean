/-
Applying a unified diff, and where it goes wrong.

A diff's text is read back as its hunks (`finditer_unifiedHunks`): lines
that end in a line break stay lines, signs and all. A hunk is put at its
place in the new text, except that one with nothing of the old text in it
comes one line too early; what that spoils nothing later mends, so the
result is told part by part (`applyGroups_iff`).
-/
import Velune.EditFormats.UDiff

namespace Velune.EditFormats

open Lib Lib.Diff

-- ===== lines

/-- A line with its break: `\n`, or `\r\n`. -/
def IsLine (line : PyStr) : Prop :=
  ∃ body, (∀ c ∈ body, Text.isLineBreak c = false) ∧
    (line = body ++ ['\n'] ∨ line = body ++ ['\r', '\n'])

theorem IsLine.cons {line : PyStr} (h : IsLine line) {c : Char}
    (hc : Text.isLineBreak c = false) : IsLine (c :: line) := by
  obtain ⟨body, hbody, rfl | rfl⟩ := h
  · exact ⟨c :: body, List.forall_mem_cons.2 ⟨hc, hbody⟩, .inl rfl⟩
  · exact ⟨c :: body, List.forall_mem_cons.2 ⟨hc, hbody⟩, .inr rfl⟩

theorem splitlinesKeep_cons {c : Char} (hc : Text.isLineBreak c = false) {s line : PyStr}
    {lines : List PyStr} (h : Text.splitlinesKeep s = line :: lines) :
    Text.splitlinesKeep (c :: s) = (c :: line) :: lines := by
  unfold Text.splitlinesKeep
  split
  next hnil => cases hnil
  next heq =>
    cases heq
    exact absurd hc (by decide)
  next heq =>
    cases heq
    rw [hc, if_neg Bool.false_ne_true, h]

theorem splitlinesKeep_newline (rest : PyStr) :
    Text.splitlinesKeep ('\n' :: rest) = ['\n'] :: Text.splitlinesKeep rest := by
  rw [Text.splitlinesKeep, if_pos (by decide)]
  intro _ h
  cases h

theorem splitlinesKeep_line {line : PyStr} (h : IsLine line) (rest : PyStr) :
    Text.splitlinesKeep (line ++ rest) = line :: Text.splitlinesKeep rest := by
  obtain ⟨body, hbody, hline⟩ := h
  induction body generalizing line with
  | nil =>
      rcases hline with rfl | rfl
      · exact splitlinesKeep_newline rest
      · rfl
  | cons c body ih =>
      obtain ⟨hc, hbody⟩ := List.forall_mem_cons.1 hbody
      rcases hline with rfl | rfl
      · exact splitlinesKeep_cons hc (ih hbody (.inl rfl))
      · exact splitlinesKeep_cons hc (ih hbody (.inr rfl))

theorem splitlinesKeep_flatten : ∀ {lines : List PyStr}, (∀ line ∈ lines, IsLine line) →
    Text.splitlinesKeep lines.flatten = lines
  | [], _ => rfl
  | line :: lines, h => by
      obtain ⟨hline, hlines⟩ := List.forall_mem_cons.1 h
      rw [List.flatten_cons, splitlinesKeep_line hline, splitlinesKeep_flatten hlines]

theorem isLine_of_mem : ∀ {s : PyStr},
    (∀ line ∈ Text.splitlinesKeep s, line.getLast? = some '\n') →
      ∀ line ∈ Text.splitlinesKeep s, IsLine line
  | [], _ => fun line hline => absurd hline List.not_mem_nil
  | c :: rest, h => by
      have ih := @isLine_of_mem rest
      unfold Text.splitlinesKeep at h ⊢
      split at h
      next hnil => cases hnil
      next tail heq =>
        cases heq
        have ih' := @isLine_of_mem tail
        obtain ⟨-, htail⟩ := List.forall_mem_cons.1 h
        exact List.forall_mem_cons.2 ⟨⟨[], fun c hc => absurd hc List.not_mem_nil, .inr rfl⟩,
          ih' htail⟩
      next heq =>
        cases heq
        split at h
        next hbreak =>
          obtain ⟨hc, hrest⟩ := List.forall_mem_cons.1 h
          rw [if_pos hbreak]
          refine List.forall_mem_cons.2 ⟨⟨[], fun c hc => absurd hc List.not_mem_nil, .inl ?_⟩,
            ih hrest⟩
          have hnewline : c = '\n' := Option.some.inj hc
          rw [hnewline]
          rfl
        next hbreak =>
          rw [if_neg hbreak]
          have hc : c ≠ '\n' := fun heq => hbreak (heq ▸ by decide)
          split at h
          next =>
            have hlast := h [c] (List.mem_singleton_self _)
            exact absurd (Option.some.inj hlast) hc
          next line lines hlines =>
            obtain ⟨hline, hrest⟩ := List.forall_mem_cons.1 h
            cases line with
            | nil => exact absurd (Option.some.inj hline) hc
            | cons d line =>
                have hlast : (d :: line).getLast? = some '\n' := by
                  rw [← hline]
                  exact (List.getLast?_cons_cons ..).symm
                rw [hlines] at ih
                obtain ⟨hfirst, hothers⟩ := List.forall_mem_cons.1
                  (ih (List.forall_mem_cons.2 ⟨hlast, hrest⟩))
                exact List.forall_mem_cons.2
                  ⟨hfirst.cons (Bool.not_eq_true _ ▸ hbreak), hothers⟩

-- ===== scanning

variable {digits : Char → Option Nat}

theorem hunkBody_false (t : PyStr) (rest : PyStr) (h : '\n' ∉ t) :
    hunkBody false (t ++ '\n' :: rest)
      = (t ++ '\n' :: (hunkBody true rest).1, (hunkBody true rest).2) := by
  induction t with
  | nil => rfl
  | cons c t ih =>
      have hc : (c == '\n') = false := beq_eq_false_iff_ne.2 fun heq => h (heq ▸ List.mem_cons_self)
      have hstart : ¬(false = true ∧ "@@".toList <+: c :: (t ++ '\n' :: rest)) := fun hstart =>
        Bool.false_ne_true hstart.1
      rw [List.cons_append, hunkBody, if_neg hstart, hc]
      rw [ih fun hmem => h (List.mem_cons_of_mem c hmem)]
      rfl

theorem hunkBody_line {c : Char} (hsign : c ≠ '@') {line : PyStr} (h : IsLine (c :: line))
    (rest : PyStr) :
    hunkBody true ((c :: line) ++ rest)
      = ((c :: line) ++ (hunkBody true rest).1, (hunkBody true rest).2) := by
  have hstart : ¬(true = true ∧ "@@".toList <+: c :: (line ++ rest)) := fun hstart =>
    hsign (List.cons_prefix_cons.1 hstart.2).1.symm
  obtain ⟨t, ht, hline⟩ : ∃ t, '\n' ∉ t ∧ c :: line = t ++ ['\n'] := by
    obtain ⟨body, hbody, hline | hline⟩ := h
    · exact ⟨body, fun hmem => absurd (hbody _ hmem) (by decide), hline⟩
    · refine ⟨body ++ ['\r'], fun hmem => ?_, by rw [hline, List.append_assoc]; rfl⟩
      rcases List.mem_append.1 hmem with hmem | hmem
      · exact absurd (hbody _ hmem) (by decide)
      · exact absurd (List.mem_singleton.1 hmem) (by decide)
  rw [List.cons_append, hunkBody, if_neg hstart]
  cases t with
  | nil =>
      obtain ⟨rfl, rfl⟩ := List.cons.inj hline
      rfl
  | cons d t =>
      rw [List.cons_append] at hline
      obtain ⟨rfl, rfl⟩ := List.cons.inj hline
      have hc : (c == '\n') = false := beq_eq_false_iff_ne.2 fun heq => ht (heq ▸ List.mem_cons_self)
      have hbody := hunkBody_false t rest fun hmem => ht (List.mem_cons_of_mem c hmem)
      have htext : (t ++ ['\n']) ++ rest = t ++ '\n' :: rest := by
        rw [List.append_assoc]
        rfl
      rw [hc, htext, hbody]
      simp only [List.cons_append, List.append_assoc, List.nil_append]

def Signed (line : PyStr) : Prop := IsLine line ∧ ∃ c rest, line = c :: rest ∧ c ≠ '@'

theorem hunkBody_lines {rest : PyStr} (hrest : rest = [] ∨ "@@".toList <+: rest) :
    ∀ {lines : List PyStr}, (∀ line ∈ lines, Signed line) →
      hunkBody true (lines.flatten ++ rest) = (lines.flatten, rest)
  | [], _ => by
      show hunkBody true rest = ([], rest)
      rcases hrest with rfl | hrest
      · rfl
      · cases rest with
        | nil => rfl
        | cons c rest => rw [hunkBody, if_pos ⟨rfl, hrest⟩]
  | line :: lines, h => by
      obtain ⟨⟨hline, c, tail, rfl, hsign⟩, hlines⟩ := List.forall_mem_cons.1 h
      rw [List.flatten_cons, List.append_assoc, hunkBody_line hsign hline,
        hunkBody_lines hrest hlines]

-- ===== headers

theorem digitValue_of_isDigit {c : Char} (h : c.isDigit = true) :
    digitValue digits c = some (c.toNat - '0'.toNat) := by
  rw [Char.isDigit, Bool.and_eq_true, decide_eq_true_eq, decide_eq_true_eq] at h
  have hlow : 48 ≤ c.toNat := h.1
  have hhigh : c.toNat ≤ 57 := h.2
  have hdigit : Text.isDigit c = true := by
    rw [Text.isDigit, Bool.and_eq_true, decide_eq_true_eq, decide_eq_true_eq]
    exact h
  rw [digitValue, if_pos (by omega), if_pos hdigit]

theorem number_toDigits (n : Nat) {rest : PyStr}
    (hrest : ∀ c ∈ rest.head?, digitValue digits c = none) :
    number digits (Nat.toDigits 10 n ++ rest) = some (n, rest) := by
  have hall : ∀ c ∈ Nat.toDigits 10 n, (digitValue digits c).isSome = true := by
    intro c hc
    rw [digitValue_of_isDigit (Nat.isDigit_of_mem_toDigits (by decide) (by decide) hc)]
    rfl
  have hstop : ∀ p : Char → Bool, (∀ c ∈ rest.head?, p c = false) →
      rest.takeWhile p = [] ∧ rest.dropWhile p = rest := by
    intro p hp
    cases rest with
    | nil => exact ⟨rfl, rfl⟩
    | cons c rest =>
        have hc := hp c rfl
        exact ⟨List.takeWhile_cons_of_neg (by rw [hc]; exact Bool.false_ne_true),
          List.dropWhile_cons_of_neg (by rw [hc]; exact Bool.false_ne_true)⟩
  obtain ⟨htake, hdrop⟩ := hstop (fun c => (digitValue digits c).isSome) fun c hc => by
    rw [hrest c hc]
    rfl
  have hvalue : ∀ (l : List Char) (init : Nat), (∀ c ∈ l, c.isDigit = true) →
      l.foldl (fun n c => 10 * n + (digitValue digits c).getD 0) init
        = Nat.ofDigitChars 10 l init := by
    intro l
    induction l with
    | nil => exact fun init _ => Nat.ofDigitChars_nil.symm
    | cons c l ih =>
        intro init h
        obtain ⟨hc, hl⟩ := List.forall_mem_cons.1 h
        rw [List.foldl_cons, digitValue_of_isDigit hc, Nat.ofDigitChars_cons]
        exact ih _ hl
  unfold number
  rw [List.takeWhile_append_of_pos hall, List.dropWhile_append_of_pos hall, htake, hdrop,
    List.append_nil]
  dsimp only
  rw [hvalue _ _ fun c hc => Nat.isDigit_of_mem_toDigits (by decide) (by decide) hc,
    Nat.ofDigitChars_ten_toDigits]
  exact if_neg Nat.toDigits_ne_nil

def rangeStart (start stop : Nat) : Nat := if stop - start = 0 then start else start + 1

def rangeCount (start stop : Nat) : Option Nat :=
  if stop - start = 1 then none else some (stop - start)

theorem number_formatRange (start stop : Nat) (rest : PyStr)
    (hdigit : ∀ c ∈ rest.head?, digitValue digits c = none) (hcomma : rest.head? ≠ some ',') :
    ∃ s, number digits (formatRange start stop ++ rest) = some (rangeStart start stop, s) ∧
      count digits s = some (rangeCount start stop, rest) := by
  unfold formatRange rangeStart rangeCount
  by_cases hone : stop - start = 1
  · rw [if_pos hone, if_pos hone, if_neg (by omega)]
    refine ⟨rest, number_toDigits _ hdigit, ?_⟩
    unfold count
    split
    next tail => exact absurd rfl hcomma
    next => rfl
  · rw [if_neg hone, if_neg hone]
    refine ⟨',' :: (Nat.toDigits 10 (stop - start) ++ rest), ?_, ?_⟩
    · rw [List.append_assoc]
      refine number_toDigits _ fun c hc => ?_
      cases hc
      rfl
    · show (number digits (Nat.toDigits 10 (stop - start) ++ rest)).map _ = _
      rw [number_toDigits _ hdigit]
      rfl

theorem literal_append (t rest : PyStr) : literal t (t ++ rest) = some rest := by
  rw [literal, if_pos (List.prefix_append t rest), List.drop_left]

theorem header_hunkHeader (g : List Opcode) (rest : PyStr) :
    header digits (hunkHeader g ++ rest)
      = some (rangeStart (first g).i1 (last g).i2, rangeCount (first g).i1 (last g).i2, rest) := by
  have hspace : ∀ t : PyStr, (∀ c ∈ (' ' :: t).head?, digitValue digits c = none) ∧
      (' ' :: t).head? ≠ some ',' := by
    refine fun t => ⟨fun c hc => ?_, fun hc => by cases hc⟩
    cases hc
    rfl
  obtain ⟨s, hnumber, hcount⟩ := number_formatRange (first g).i1 (last g).i2
    (" +".toList ++ (formatRange (first g).j1 (last g).j2 ++ (" @@\n".toList ++ rest)))
    (hspace _).1 (hspace _).2
  obtain ⟨s', hnumber', hcount'⟩ := number_formatRange (first g).j1 (last g).j2
    (" @@\n".toList ++ rest) (hspace _).1 (hspace _).2
  have hend : " @@\n".toList ++ rest = " @@".toList ++ ('\n' :: rest) := rfl
  have hbreak : ('\n' :: rest).dropWhile (· != '\n') = "\n".toList ++ rest := by
    rw [List.dropWhile_cons_of_neg (by decide)]
    rfl
  have htext : hunkHeader g ++ rest = "@@ -".toList ++ (formatRange (first g).i1 (last g).i2
      ++ (" +".toList ++ (formatRange (first g).j1 (last g).j2 ++ (" @@\n".toList ++ rest)))) := by
    simp only [hunkHeader, List.append_assoc]
  rw [htext]
  unfold header
  rw [literal_append]
  simp only [Option.bind_eq_bind, Option.bind_some, hnumber, hcount, literal_append, hnumber',
    hcount']
  rw [hend, literal_append]
  simp only [Option.bind_some, hbreak, literal_append]
  rfl

-- ===== hunks

section Hunks

variable {a b : List PyStr}

def hunkOf (a b : List PyStr) (g : List Opcode) : Hunk :=
  ⟨rangeStart (first g).i1 (last g).i2, rangeCount (first g).i1 (last g).i2,
    (g.flatMap (opcodeLines a b)).flatten⟩

theorem mem_of_mem_slice {α : Type} {l : List α} {i j : Nat} {x : α} (h : x ∈ slice l i j) : x ∈ l :=
  List.mem_of_mem_take (List.mem_of_mem_drop h)

theorem signed_opcodeLines (ha : ∀ line ∈ a, IsLine line) (hb : ∀ line ∈ b, IsLine line)
    (c : Opcode) : ∀ line ∈ opcodeLines a b c, Signed line := by
  have hold : ∀ {sign : Char}, Text.isLineBreak sign = false → sign ≠ '@' →
      ∀ line ∈ (slice a c.i1 c.i2).map (sign :: ·), Signed line := by
    intro sign hbreak hsign line hline
    obtain ⟨tail, htail, rfl⟩ := List.mem_map.1 hline
    exact ⟨(ha tail (mem_of_mem_slice htail)).cons hbreak, sign, tail, rfl, hsign⟩
  have hnew : ∀ line ∈ (slice b c.j1 c.j2).map ('+' :: ·), Signed line := by
    intro line hline
    obtain ⟨tail, htail, rfl⟩ := List.mem_map.1 hline
    exact ⟨(hb tail (mem_of_mem_slice htail)).cons (by decide), '+', tail, rfl, by decide⟩
  unfold opcodeLines
  cases c.tag with
  | equal => exact hold (by decide) (by decide)
  | replace =>
      intro line hline
      rcases List.mem_append.1 hline with hline | hline
      · exact hold (by decide) (by decide) line hline
      · exact hnew line hline
  | delete => exact hold (by decide) (by decide)
  | insert => exact hnew

theorem findHunks_unifiedHunks (ha : ∀ line ∈ a, IsLine line) (hb : ∀ line ∈ b, IsLine line) :
    ∀ {groups : List (List Opcode)} {fuel : Nat}, (unifiedHunks a b groups).length < fuel →
      findHunks digits fuel true (unifiedHunks a b groups) = groups.map (hunkOf a b)
  | [], fuel, h => by
      cases fuel with
      | zero => exact absurd h (Nat.not_lt_zero _)
      | succ fuel => rfl
  | g :: groups, fuel, h => by
      have htext : unifiedHunks a b (g :: groups)
          = hunkHeader g ++ ((g.flatMap (opcodeLines a b)).flatten ++ unifiedHunks a b groups) := by
        rw [unifiedHunks, List.flatMap_cons, List.append_assoc]
        rfl
      have hhead : ∃ s, hunkHeader g = '@' :: s := ⟨_, rfl⟩
      obtain ⟨s, hs⟩ := hhead
      have hbody : hunkBody true ((g.flatMap (opcodeLines a b)).flatten ++ unifiedHunks a b groups)
          = ((g.flatMap (opcodeLines a b)).flatten, unifiedHunks a b groups) := by
        refine hunkBody_lines ?_ fun line hline => ?_
        · cases groups with
          | nil => exact .inl rfl
          | cons g' groups =>
              refine .inr ?_
              rw [unifiedHunks, List.flatMap_cons, hunkHeader]
              simp only [List.append_assoc]
              exact ⟨_, rfl⟩
        · obtain ⟨c, -, hline⟩ := List.mem_flatMap.1 hline
          exact signed_opcodeLines ha hb c line hline
      have hheader := @header_hunkHeader digits g
        ((g.flatMap (opcodeLines a b)).flatten ++ unifiedHunks a b groups)
      rw [htext] at h ⊢
      rw [hs] at h hheader ⊢
      cases fuel with
      | zero => exact absurd h (Nat.not_lt_zero _)
      | succ fuel =>
          rw [List.cons_append] at h hheader ⊢
          have hfuel : (unifiedHunks a b groups).length < fuel := by
            simp only [List.length_cons, List.length_append] at h
            omega
          rw [findHunks, if_pos rfl, hheader]
          dsimp only
          rw [hbody]
          dsimp only
          rw [findHunks_unifiedHunks ha hb hfuel]
          rfl

theorem additions_eq {g : List Opcode} {i j i' j' : Nat} (h : Walk a b i j g i' j') :
    (g.flatMap (opcodeLines a b)).filterMap addition = slice b j j' := by
  have hmap : ∀ {sign : Char} {l : List PyStr}, (∀ line, addition (sign :: line) = some line) →
      (l.map (sign :: ·)).filterMap addition = l := by
    intro sign l hsign
    rw [List.filterMap_map]
    exact (List.filterMap_congr fun line _ => hsign line).trans List.filterMap_some
  have hnone : ∀ l : List PyStr, (l.map ('-' :: ·)).filterMap addition = [] := by
    intro l
    rw [List.filterMap_map]
    exact List.filterMap_eq_nil_iff.2 fun line _ => rfl
  have hone : ∀ c : Opcode, c.Fits a b →
      (opcodeLines a b c).filterMap addition = slice b c.j1 c.j2 := by
    intro c hfits
    have htag := hfits.2.2.2.2
    unfold opcodeLines
    cases hkind : c.tag with
    | equal =>
        rw [hkind] at htag
        exact (hmap fun line => rfl).trans htag.equal
    | replace =>
        rw [List.filterMap_append, hnone, List.nil_append]
        exact hmap fun line => rfl
    | delete =>
        rw [hkind] at htag
        rw [htag.2, slice_self]
        exact hnone _
    | insert => exact hmap fun line => rfl
  rw [List.filterMap_flatMap, ← flatMap_right h]
  exact List.flatMap_congr fun c hc => hone c (h.le_of_mem c hc).2.2

/-- Where a hunk is put, before the offset: one line too early if it has
nothing of the old text. -/
def placeOf (start stop : Nat) : Int := if start < stop then start else (start : Int) - 1

theorem applyHunk_hunkOf (ha : ∀ line ∈ a, IsLine line) (hb : ∀ line ∈ b, IsLine line)
    {g : List Opcode} (hne : g ≠ []) {i j i' j' : Nat} (h : Walk a b i j g i' j')
    (lines : List PyStr) (offset : Int) :
    applyHunk (lines, offset) (hunkOf a b g)
      = (setSlice lines (placeOf i i' + offset) (placeOf i i' + offset + (i' - i))
          (slice b j j'), offset + ((j' - j) - (i' - i))) := by
  obtain ⟨hi, hj, hi', hj'⟩ := walk_ends hne h
  have hle := h.le
  have hsigned : ∀ line ∈ g.flatMap (opcodeLines a b), IsLine line := by
    intro line hline
    obtain ⟨c, -, hline⟩ := List.mem_flatMap.1 hline
    exact (signed_opcodeLines ha hb c line hline).1
  have hlength : ((slice b j j').length : Int) = j' - j := by
    have hbound : j' ≤ b.length := by
      cases g with
      | nil => exact absurd rfl hne
      | cons c g =>
          rcases List.eq_nil_or_concat (c :: g) with hnil | ⟨front, d, hconcat⟩
          · cases hnil
          · rw [hconcat, List.concat_eq_append] at h
            obtain ⟨k, l, -, -, -, hfits, -, rfl⟩ := walk_append.1 h
            exact hfits.2.2.2.1
    rw [length_slice hbound]
    omega
  have hcount : ((rangeCount i i').getD 1 : Int) = i' - i := by
    unfold rangeCount
    split
    next hone =>
      show (1 : Int) = i' - i
      omega
    next =>
      show ((i' - i : Nat) : Int) = i' - i
      omega
  have hstart : ((rangeStart i i' : Nat) : Int) - 1 = placeOf i i' := by
    unfold rangeStart placeOf
    split
    next hempty => rw [if_neg (by omega)]
    next hsome =>
      rw [if_pos (by omega)]
      omega
  unfold applyHunk hunkOf
  rw [hi, hi']
  simp only [splitlinesKeep_flatten hsigned, additions_eq h, hlength, hcount, hstart]

-- ===== results

def Outside (groups : List (List Opcode)) (p : Nat) : Prop :=
  ∀ g ∈ groups, ¬((first g).i1 ≤ p ∧ p < (last g).i2)

/-- What a group with nothing of the old text puts down is the line in front
of it, again and again. -/
def Copies (b : List PyStr) (g : List Opcode) : Prop :=
  (first g).i1 = (last g).i2 →
    ∀ line ∈ slice b (first g).j1 (last g).j2, b[(first g).j1 - 1]? = some line

theorem setSlice_eq {lines : List PyStr} {p q : Nat} (hpq : p ≤ q) (hq : q ≤ lines.length)
    (new : List PyStr) : setSlice lines p q new = lines.take p ++ (new ++ lines.drop q) := by
  have hclamp : ∀ r : Nat, r ≤ lines.length → clampIndex lines.length (r : Int) = r := by
    intro r hr
    rw [clampIndex, if_neg (by omega), Int.toNat_natCast, Nat.min_eq_left hr]
  unfold setSlice
  rw [hclamp p (Nat.le_trans hpq hq), hclamp q hq]
  dsimp only
  rw [Nat.max_eq_right hpq]

/-- Lines put one place too early are in place exactly when they are copies
of the line they come before. -/
theorem early_eq_iff {l m new : List PyStr} (hlength : l.length = m.length) (hpos : 0 < l.length) :
    l.take (l.length - 1) ++ (new ++ l.drop (l.length - 1)) = m ++ new ↔
      l = m ∧ ∀ line ∈ new, m[l.length - 1]? = some line := by
  rcases List.eq_nil_or_concat l with rfl | ⟨l, x, rfl⟩
  · exact absurd hpos (Nat.lt_irrefl 0)
  rcases List.eq_nil_or_concat m with rfl | ⟨m, y, rfl⟩
  · rw [List.length_concat] at hlength
    cases hlength
  rw [List.length_concat, List.length_concat, Nat.succ_inj] at hlength
  simp only [List.concat_eq_append, List.length_append, List.length_singleton, Nat.add_sub_cancel,
    List.take_left, List.drop_left]
  have hlast : (m ++ [y])[l.length]? = some y := by
    rw [hlength, List.getElem?_concat_length]
  rw [hlast]
  -- the new lines between two others
  have hrun : ∀ new : List PyStr, new ++ [x] = y :: new ↔ x = y ∧ ∀ line ∈ new, some y = some line := by
    intro new
    induction new with
    | nil => simp
    | cons z new ih =>
        rw [List.cons_append, List.cons.injEq, List.forall_mem_cons, Option.some.injEq]
        constructor
        · intro h
          obtain ⟨rfl, hrest⟩ := h
          obtain ⟨hx, hnew⟩ := ih.1 hrest
          exact ⟨hx, rfl, hnew⟩
        · intro h
          obtain ⟨hx, rfl, hnew⟩ := h
          exact ⟨rfl, ih.2 ⟨hx, hnew⟩⟩
  constructor
  · intro h
    rw [List.append_assoc] at h
    obtain ⟨rfl, hrest⟩ := List.append_inj h hlength
    obtain ⟨rfl, hnew⟩ := (hrun new).1 hrest
    exact ⟨rfl, hnew⟩
  · intro h
    obtain ⟨heq, hnew⟩ := h
    obtain ⟨rfl, hxy⟩ := List.append_inj heq hlength
    rw [List.append_assoc]
    refine congrArg (l ++ ·) ((hrun new).2 ⟨List.singleton_inj.1 hxy, hnew⟩)

/-- The hunks applied from a place on, to lines `front` in front of it and
the lines of `t` behind it: the new text comes out when `front` is the new
text so far, `t` agrees with the old text where nothing is taken away, and
what is put down too early does no harm. -/
theorem applyGroups_iff (ha : ∀ line ∈ a, IsLine line) (hb : ∀ line ∈ b, IsLine line)
    {t : List PyStr} (ht : t.length = a.length) : ∀ {groups : List (List Opcode)} {i j : Nat}
    {apart : Bool} {front : List PyStr}, Grouped a b apart i j groups a.length b.length →
    front.length = j →
    (∀ g ∈ groups.head?, (first g).i1 = (last g).i2 →
      apart = true ∨ 0 < (first g).i1 ∧ 0 < (first g).j1) →
    ((groups.foldl (fun st g => applyHunk st (hunkOf a b g)) (front ++ t.drop i, (j : Int) - i)).1 = b
      ↔ front = b.take j ∧
        (∀ p, i ≤ p → p < a.length → Outside groups p → t[p]? = a[p]?) ∧
        ∀ g ∈ groups, Copies b g)
  | [], i, j, apart, front, h, hfront, _ => by
      have hlength : front.length = (b.take j).length := by
        rw [hfront, List.length_take, Nat.min_eq_left h.right]
      have hback : t.drop i = b.drop j ↔ ∀ p, i ≤ p → p < a.length → t[p]? = a[p]? := by
        rw [← slice_end b j, ← h.equal, ← slice_eq_slice, ← ht, slice_end]
      show front ++ t.drop i = b ↔ _
      constructor
      · intro heq
        rw [← List.take_append_drop j b] at heq
        obtain ⟨hf, hd⟩ := List.append_inj heq hlength
        exact ⟨hf, fun p hi hp _ => hback.1 hd p hi hp, fun g hg => absurd hg List.not_mem_nil⟩
      · intro heq
        obtain ⟨hf, hd, -⟩ := heq
        rw [hf, hback.2 fun p hi hp => hd p hi hp fun g hg => absurd hg List.not_mem_nil,
          List.take_append_drop]
  | g :: groups, i, j, apart, front, h, hfront, hempty => by
      obtain ⟨k, l, m, o, hgap, hapart, hne, hwalk, hrest⟩ := h
      obtain ⟨hk, hl, hm, ho⟩ := walk_ends hne hwalk
      have hik := hgap.left
      have hjl := hgap.right
      have hsame := hgap.same
      obtain ⟨hkm, hlo⟩ := hwalk.le
      obtain ⟨hma, hob⟩ := hrest.le
      -- the lines in front of the hunk
      have hlength : (front ++ slice t i k).length = l := by
        rw [List.length_append, hfront, length_slice (by omega)]
        omega
      have hlines : front ++ t.drop i = (front ++ slice t i k) ++ t.drop k := by
        rw [List.append_assoc, ← slice_end t k, slice_append_slice t hik (by omega), slice_end]
      have hfront' : front ++ slice t i k = b.take l ↔
          front = b.take j ∧ ∀ p, i ≤ p → p < k → t[p]? = a[p]? := by
        rw [← slice_eq_slice, hgap.equal, ← take_append_slice b hjl]
        constructor
        · intro heq
          refine List.append_inj heq ?_
          rw [hfront, List.length_take, Nat.min_eq_left (by omega)]
        · exact fun heq => by rw [heq.1, heq.2]
      have houtside : (∀ p, i ≤ p → p < a.length → Outside (g :: groups) p → t[p]? = a[p]?) ↔
          (∀ p, i ≤ p → p < k → t[p]? = a[p]?) ∧
            ∀ p, m ≤ p → p < a.length → Outside groups p → t[p]? = a[p]? := by
        constructor
        · intro hall
          refine ⟨fun p hi hp => hall p hi (by omega) ?_, fun p hp hpa hout => hall p (by omega) hpa ?_⟩
          · refine List.forall_mem_cons.2 ⟨fun hin => ?_, fun g' hg' hin => ?_⟩
            · rw [hk] at hin
              omega
            · have hlate := hrest.le_first g' hg'
              omega
          · refine List.forall_mem_cons.2 ⟨fun hin => ?_, hout⟩
            rw [hm] at hin
            omega
        · intro hall p hi hpa hout
          obtain ⟨hg, hgroups⟩ := List.forall_mem_cons.1 hout
          rw [hk, hm] at hg
          by_cases hp : p < k
          · exact hall.1 p hi hp
          · exact hall.2 p (by omega) hpa hgroups
      have hoffset : (j : Int) - i = l - k := by omega
      have hnext : (l : Int) - k + ((o - l) - (m - k)) = o - m := by omega
      have hnewlength : (slice b l o).length = o - l := length_slice hob
      rw [List.foldl_cons, applyHunk_hunkOf ha hb hne hwalk, hlines, hoffset, hnext, houtside,
        List.forall_mem_cons]
      by_cases hold : k < m
      · -- at its place
        have hstart : placeOf k m + ((l : Int) - k) = (l : Nat) := by
          rw [placeOf, if_pos hold]
          omega
        have hstop : ((l : Nat) : Int) + (m - k) = (l + (m - k) : Nat) := by omega
        have hput : setSlice ((front ++ slice t i k) ++ t.drop k) (placeOf k m + ((l : Int) - k))
            (placeOf k m + ((l : Int) - k) + (m - k)) (slice b l o)
            = ((front ++ slice t i k) ++ slice b l o) ++ t.drop m := by
          have hlead : ((front ++ slice t i k) ++ t.drop k).take l = front ++ slice t i k := by
            rw [← hlength, List.take_left]
          have htail : ((front ++ slice t i k) ++ t.drop k).drop (l + (m - k)) = t.drop m := by
            rw [← List.drop_drop, ← hlength, List.drop_left, List.drop_drop,
              Nat.add_sub_cancel' hkm]
          have hin : l + (m - k) ≤ ((front ++ slice t i k) ++ t.drop k).length := by
            rw [List.length_append, List.length_drop, hlength]
            omega
          rw [hstart, hstop, setSlice_eq (Nat.le_add_right _ _) hin, hlead, htail,
            ← List.append_assoc]
        have hcopies : Copies b g := fun heq => absurd (hk.symm.trans (heq.trans hm)) (Nat.ne_of_lt hold)
        rw [hput, applyGroups_iff ha hb ht hrest ?_ fun _ _ _ => .inl rfl,
          ← take_append_slice b hlo, List.append_left_inj, hfront', and_assoc, and_assoc]
        · refine and_congr_right fun _ => and_congr_right fun _ => and_congr_right fun _ => ?_
          exact ⟨fun hall => ⟨hcopies, hall⟩, And.right⟩
        · rw [List.length_append, hlength, hnewlength]
          omega
      · -- one line too early
        have hkm' : k = m := by omega
        have hfirst : (first g).i1 = (last g).i2 := by rw [hk, hm, hkm']
        have hpos : 0 < k ∧ 0 < l := by
          rcases hempty g rfl hfirst with hap | ⟨hki, hlj⟩
          · have hlt := hapart hap
            exact ⟨by omega, by omega⟩
          · exact ⟨hk ▸ hki, hl ▸ hlj⟩
        have hstart : placeOf k m + ((l : Int) - k) = (l - 1 : Nat) := by
          rw [placeOf, if_neg hold]
          omega
        have hstop : ((l - 1 : Nat) : Int) + (m - k) = (l - 1 : Nat) := by omega
        have hput : setSlice ((front ++ slice t i k) ++ t.drop k) (placeOf k m + ((l : Int) - k))
            (placeOf k m + ((l : Int) - k) + (m - k)) (slice b l o)
            = ((front ++ slice t i k).take (l - 1)
                ++ (slice b l o ++ (front ++ slice t i k).drop (l - 1))) ++ t.drop m := by
          rw [hstart, hstop, setSlice_eq (Nat.le_refl _), List.take_append_of_le_length (by omega),
            List.drop_append_of_le_length (by omega), ← hkm']
          · simp only [List.append_assoc]
          · rw [List.length_append, hlength]
            omega
        have hcopies : Copies b g ↔ ∀ line ∈ slice b l o, (b.take l)[l - 1]? = some line := by
          have hlast : (b.take l)[l - 1]? = b[l - 1]? := by
            rw [List.getElem?_take, if_pos (by omega)]
          rw [hlast, Copies, hl, ho]
          exact ⟨fun hall => hall hfirst, fun hall _ => hall⟩
        have hearly := @early_eq_iff (front ++ slice t i k) (b.take l) (slice b l o)
          (by rw [hlength, List.length_take, Nat.min_eq_left (by omega)]) (by omega)
        rw [hlength] at hearly
        rw [hput, applyGroups_iff ha hb ht hrest ?_ fun _ _ _ => .inl rfl,
          ← take_append_slice b hlo, hearly, hfront', hcopies]
        · constructor
          · intro hall
            obtain ⟨⟨⟨h₁, h₂⟩, h₃⟩, h₄, h₅⟩ := hall
            exact ⟨h₁, ⟨h₂, h₄⟩, h₃, h₅⟩
          · intro hall
            obtain ⟨h₁, ⟨h₂, h₄⟩, h₃, h₅⟩ := hall
            exact ⟨⟨⟨h₁, h₂⟩, h₃⟩, h₄, h₅⟩
        · rw [List.length_append, List.length_append, List.length_take, List.length_drop, hlength,
            hnewlength]
          omega

/-- The lines when something has been put down in front of the old text: the
last line is still in front of it. -/
def beforeLast (a new : List PyStr) : List PyStr :=
  a.take (a.length - 1) ++ (new ++ a.drop (a.length - 1))

/-- What hunks with nothing of the old text put down does no harm. -/
structure Harmless (a b : List PyStr) (groups : List (List Opcode)) : Prop where
  /-- Below the first line, it is copies of the line in front of it. -/
  below : ∀ g ∈ groups, 0 < (first g).i1 → Copies b g
  /-- In front of the first line, the last line of the old text makes no
  difference there, except where it will be taken away. -/
  top : ∀ g ∈ groups, (last g).i2 = 0 →
    let new := b.take (last g).j2
    (beforeLast a new).take (last g).j2 = new ∧
      ∀ p < a.length, Outside groups p → (beforeLast a new)[(last g).j2 + p]? = a[p]?

theorem setSlice_last (lines new : List PyStr) :
    setSlice lines (-1) (-1) new = beforeLast lines new := by
  have hclamp : clampIndex lines.length (-1) = lines.length - 1 := by
    rw [clampIndex, if_pos (by decide)]
    omega
  unfold setSlice
  rw [hclamp]
  dsimp only
  rw [Nat.max_self]
  rfl

theorem applyGroups_start (ha : ∀ line ∈ a, IsLine line) (hb : ∀ line ∈ b, IsLine line)
    {groups : List (List Opcode)} (h : Grouped a b false 0 0 groups a.length b.length) :
    (groups.foldl (fun st g => applyHunk st (hunkOf a b g)) (a, (0 : Int))).1 = b
      ↔ Harmless a b groups := by
  have hplain : (∀ g ∈ groups.head?, 0 < (last g).i2) →
      ((groups.foldl (fun st g => applyHunk st (hunkOf a b g)) (a, (0 : Int))).1 = b
        ↔ Harmless a b groups) := by
    intro hhead
    have hstart : ∀ g ∈ groups.head?, (first g).i1 = (last g).i2 →
        false = true ∨ 0 < (first g).i1 ∧ 0 < (first g).j1 := by
      intro g hg heq
      have hpos := hhead g hg
      cases groups with
      | nil => cases hg
      | cons g' groups =>
          cases hg
          obtain ⟨k, l, m, o, hgap, -, hne, hwalk, -⟩ := h
          obtain ⟨hk, hl, -, -⟩ := walk_ends hne hwalk
          have hsame := hgap.same
          exact .inr (by omega)
    have hall : ∀ g ∈ groups, 0 < (last g).i2 := by
      intro g hg
      cases groups with
      | nil => exact absurd hg List.not_mem_nil
      | cons g' groups =>
          rcases List.mem_cons.1 hg with rfl | hg
          · exact hhead g rfl
          · obtain ⟨k, l, m, o, -, -, -, -, hrest⟩ := h
            exact (hrest.behind g hg).2
    have hiff := @applyGroups_iff a b ha hb a rfl groups 0 0 false [] h rfl hstart
    rw [List.nil_append, List.drop_zero] at hiff
    refine hiff.trans ⟨fun hres => ?_, fun hres => ⟨rfl, fun _ _ _ _ => rfl, fun g hg => ?_⟩⟩
    · exact ⟨fun g hg _ => hres.2.2 g hg, fun g hg htop => absurd htop (Nat.ne_of_gt (hall g hg))⟩
    · intro hempty
      exact hres.below g hg (hempty ▸ hall g hg) hempty
  cases groups with
  | nil => exact hplain fun g hg => by cases hg
  | cons g groups =>
      by_cases htop : 0 < (last g).i2
      · exact hplain fun g' hg' => by
          cases hg'
          exact htop
      · -- put down in front of the old text
        obtain ⟨k, l, m, o, hgap, -, hne, hwalk, hrest⟩ := h
        obtain ⟨hk, hl, hm, ho⟩ := walk_ends hne hwalk
        have hle := hwalk.le
        have hsame := hgap.same
        obtain ⟨rfl, rfl, rfl⟩ : k = 0 ∧ l = 0 ∧ m = 0 := by omega
        have hob := hrest.le.2
        have hlength : (beforeLast a (b.take o)).length = o + a.length := by
          simp only [beforeLast, List.length_append, List.length_take, List.length_drop]
          omega
        have hput : applyHunk (a, 0) (hunkOf a b g)
            = ((beforeLast a (b.take o)).take o ++ ((beforeLast a (b.take o)).drop o).drop 0,
                (o : Int) - (0 : Nat)) := by
          rw [applyHunk_hunkOf ha hb hne hwalk, List.drop_zero, List.take_append_drop]
          refine Prod.ext ?_ ?_
          · exact setSlice_last a (b.take o)
          · show (0 : Int) + ((o - (0 : Nat)) - ((0 : Nat) - (0 : Nat))) = (o : Int) - (0 : Nat)
            omega
        have hiff := @applyGroups_iff a b ha hb ((beforeLast a (b.take o)).drop o)
          (by rw [List.length_drop, hlength, Nat.add_sub_cancel_left]) groups 0 o true
          ((beforeLast a (b.take o)).take o) hrest
          (by rw [List.length_take, hlength, Nat.min_eq_left (Nat.le_add_right _ _)])
          fun _ _ _ => .inl rfl
        have hbelow := hrest.behind
        rw [List.foldl_cons, hput, hiff]
        have hout : ∀ p, Outside (g :: groups) p ↔ Outside groups p := by
          intro p
          refine ⟨fun hall => (List.forall_mem_cons.1 hall).2, fun hall =>
            List.forall_mem_cons.2 ⟨fun hin => ?_, hall⟩⟩
          rw [hm] at hin
          exact absurd hin.2 (Nat.not_lt_zero p)
        constructor
        · intro hres
          obtain ⟨hlead, hrestlines, hcopies⟩ := hres
          refine ⟨List.forall_mem_cons.2 ⟨fun hpos => ?_, fun g' hg' _ => hcopies g' hg'⟩,
            List.forall_mem_cons.2 ⟨fun _ => ?_, fun g' hg' hzero => ?_⟩⟩
          · rw [hk] at hpos
            exact absurd hpos (Nat.lt_irrefl 0)
          · rw [ho]
            refine ⟨hlead, fun p hp hall => ?_⟩
            rw [← hrestlines p (Nat.zero_le p) hp ((hout p).1 hall), List.getElem?_drop]
          · exact absurd hzero (Nat.ne_of_gt (hbelow g' hg').2)
        · intro hres
          obtain ⟨hlead, hrestlines⟩ := hres.top g List.mem_cons_self hm
          rw [ho] at hlead hrestlines
          refine ⟨hlead, fun p _ hp hall => ?_, fun g' hg' => ?_⟩
          · rw [List.getElem?_drop]
            exact hrestlines p hp ((hout p).2 hall)
          · exact hres.below g' (List.mem_cons_of_mem g hg') (hbelow g' hg').1

theorem isLine_applyGroups (ha : ∀ line ∈ a, IsLine line) (hb : ∀ line ∈ b, IsLine line) :
    ∀ {groups : List (List Opcode)} {st : List PyStr × Int},
      (∀ g ∈ groups, g ≠ [] ∧ ∃ k l m o, Walk a b k l g m o) → (∀ line ∈ st.1, IsLine line) →
      ∀ line ∈ (groups.foldl (fun st g => applyHunk st (hunkOf a b g)) st).1, IsLine line
  | [], _, _, hst => hst
  | g :: groups, st, h, hst => by
      obtain ⟨⟨hne, k, l, m, o, hwalk⟩, hgroups⟩ := List.forall_mem_cons.1 h
      rw [List.foldl_cons]
      refine isLine_applyGroups ha hb hgroups fun line hline => ?_
      rw [applyHunk_hunkOf ha hb hne hwalk] at hline
      rcases List.mem_append.1 hline with hline | hline
      · exact hst line (List.mem_of_mem_take hline)
      · rcases List.mem_append.1 hline with hline | hline
        · exact hb line (mem_of_mem_slice hline)
        · exact hst line (List.mem_of_mem_drop hline)

end Hunks

-- ===== inverse

section Inverse

variable {aText bText : PyStr}
  (ha : ∀ line ∈ Text.splitlinesKeep aText, line.getLast? = some '\n')
  (hb : ∀ line ∈ Text.splitlinesKeep bText, line.getLast? = some '\n')
  {codes : List Opcode} (h : Script (Text.splitlinesKeep aText) (Text.splitlinesKeep bText) codes)
  (n : Nat)
include h

/-- With context, or nothing to put anything in front of, no hunk does harm. -/
theorem harmless_of_context (hn : 1 ≤ n ∨ aText = []) :
    Harmless (Text.splitlinesKeep aText) (Text.splitlinesKeep bText) (groupedOpcodes n codes) := by
  have hgrouped := grouped_groupedOpcodes h.walk n
  by_cases hnil : Text.splitlinesKeep aText = []
  · rw [hnil] at hgrouped ⊢
    have hzero : ∀ g ∈ groupedOpcodes n codes, (first g).i1 = 0 := by
      intro g hg
      have hle := hgrouped.last_le g hg
      have hlength : ([] : List PyStr).length = 0 := rfl
      omega
    refine ⟨fun g hg hpos => absurd hpos (by rw [hzero g hg]; exact Nat.lt_irrefl 0), fun g hg _ => ?_⟩
    refine ⟨?_, fun p hp => absurd hp (Nat.not_lt_zero p)⟩
    simp only [beforeLast, List.take_nil, List.drop_nil, List.nil_append, List.append_nil,
      List.take_take, Nat.min_self]
  · have hold := old_nonempty h hnil (hn.resolve_right fun heq => hnil (by rw [heq]; rfl))
    refine ⟨fun g hg _ hempty => ?_, fun g hg htop => ?_⟩
    · exact absurd hempty (Nat.ne_of_lt (hold g hg))
    · exact absurd (htop ▸ hold g hg) (Nat.not_lt_zero _)

include ha hb

/-- The hunks of a diff, found in its text and applied to the old one, give
the new one exactly when those with nothing of the old text do no harm; and
with context no hunk does. -/
theorem applyHunks_iff (digits : Char → Option Nat) :
    (applyHunks aText (finditer digits (unifiedHunks (Text.splitlinesKeep aText)
        (Text.splitlinesKeep bText) (groupedOpcodes n codes))) = bText
      ↔ Harmless (Text.splitlinesKeep aText) (Text.splitlinesKeep bText) (groupedOpcodes n codes)) ∧
      (1 ≤ n ∨ aText = [] →
        Harmless (Text.splitlinesKeep aText) (Text.splitlinesKeep bText)
          (groupedOpcodes n codes)) := by
  have ha' := isLine_of_mem ha
  have hb' := isLine_of_mem hb
  have hgrouped := grouped_groupedOpcodes h.walk n
  refine ⟨?_, harmless_of_context h n⟩
  rw [← applyGroups_start ha' hb' hgrouped, finditer, findHunks_unifiedHunks ha' hb' (Nat.lt_succ_self _),
    applyHunks, List.foldl_map]
  have hlines := @isLine_applyGroups _ _ ha' hb' _ (Text.splitlinesKeep aText, 0)
    hgrouped.walk_of_mem ha'
  constructor
  · intro htext
    rw [← splitlinesKeep_flatten hlines, htext]
  · intro hlist
    rw [hlist, Text.flatten_splitlinesKeep]

end Inverse

def between : List Opcode := [⟨.equal, 0, 1, 0, 1⟩, ⟨.insert, 1, 1, 1, 2⟩, ⟨.equal, 1, 2, 2, 3⟩]

theorem between_script : Script (Text.splitlinesKeep "x\ny\n".toList)
    (Text.splitlinesKeep "x\nz\ny\n".toList) between := by
  refine ⟨⟨rfl, rfl, ?_, rfl, rfl, ?_, rfl, rfl, ?_, rfl, rfl⟩, ?_, ?_⟩
  · exact ⟨by decide, by decide, by decide, by decide,
      ⟨by decide, by decide, by decide, by decide, by decide, by decide⟩⟩
  · exact ⟨by decide, by decide, by decide, by decide, by decide, by decide⟩
  · exact ⟨by decide, by decide, by decide, by decide,
      ⟨by decide, by decide, by decide, by decide, by decide, by decide⟩⟩
  · exact ⟨by decide, by decide, trivial⟩
  · decide

/-- With a line of context, it gets there. -/
theorem applyHunks_iff_between :
    applyHunks "x\ny\n".toList (finditer (fun _ => none) (unifiedHunks
      (Text.splitlinesKeep "x\ny\n".toList) (Text.splitlinesKeep "x\nz\ny\n".toList)
      (groupedOpcodes 1 between))) = "x\nz\ny\n".toList := by
  obtain ⟨hiff, hcontext⟩ := applyHunks_iff (by decide) (by decide) between_script 1 fun _ => none
  exact hiff.2 (hcontext (.inl (Nat.le_refl 1)))

/-- Without context, it comes in front of both. -/
theorem applyHunks_early :
    unifiedHunks (Text.splitlinesKeep "x\ny\n".toList) (Text.splitlinesKeep "x\nz\ny\n".toList)
        (groupedOpcodes 0 between) = "@@ -1,0 +2 @@\n+z\n".toList ∧
      applyHunks "x\ny\n".toList (finditer (fun _ => none) (unifiedHunks
        (Text.splitlinesKeep "x\ny\n".toList) (Text.splitlinesKeep "x\nz\ny\n".toList)
        (groupedOpcodes 0 between))) = "z\nx\ny\n".toList ∧
      "z\nx\ny\n".toList ≠ "x\nz\ny\n".toList ∧
      Script (Text.splitlinesKeep "x\ny\n".toList) (Text.splitlinesKeep "x\nz\ny\n".toList)
        between := by
  refine ⟨?_, ?_, by decide, between_script⟩
  · decide +kernel
  · decide +kernel

end Velune.EditFormats
