/-
Ignore files as git reads them: one list of patterns, each for names at any
depth or, with a slash, for places; the last one that matches decides.

How one segment of a pattern matches one name is a parameter (`glob`); what
is used of it is in `Globs`.

A pattern for places means the same below a directory as it does in it, if
the directory's own names are put in front of its segments
(`segsMatch_below`), which is what putting the directory's text in front of
the line does (`parseBody_below`).
-/
import Velune.Lib.SplitText
import Velune.Lib.Text

namespace Lib.Gitignore

-- ===== patterns

structure Pattern where
  negate : Bool
  dirOnly : Bool
  /-- it has a slash before its end -/
  anchored : Bool
  segs : List (List Char)
  deriving DecidableEq

def doubleStar : List Char := ['*', '*']

/-- A pattern without its `!`: its segments, unless it is empty. -/
def parseBody (negate : Bool) (body : List Char) : Option Pattern :=
  let dirOnly := body.getLast? == some '/'
  let body := if dirOnly then body.dropLast else body
  let inner := if body.head? == some '/' then body.drop 1 else body
  if body = [] then none else some ⟨negate, dirOnly, body.contains '/', splitText ['/'] inner⟩

def parse (line : List Char) : Option Pattern :=
  if line.head? == some '#' then none
  else if line.head? == some '!' then parseBody true (line.drop 1)
  else parseBody false line

section

variable (glob : List Char → List Char → Bool)

def segsMatch : List (List Char) → List (List Char) → Bool
  | [], path => path.isEmpty
  | seg :: segs, path =>
      if seg = doubleStar then
        if segs = [] then !path.isEmpty else path.tails.any (segsMatch segs)
      else
        match path with
        | [] => false
        | name :: path => glob seg name && segsMatch segs path

def Pattern.matches (p : Pattern) (path : List (List Char)) (isDir : Bool) : Bool :=
  (!p.dirOnly || isDir) &&
    if p.anchored then segsMatch glob p.segs path
    else path.getLast?.any (glob (p.segs.headD []))

def lineVerdict (line : List Char) (path : List (List Char)) (isDir : Bool) : Option Bool :=
  (parse line).bind fun p => if p.matches glob path isDir then some (!p.negate) else none

end

/-- Excluded by what is said of the place, or of a directory it is in. -/
def excluded (decides : List (List Char) → Bool → Option Bool) (path : List (List Char)) (isDir : Bool) :
    Bool :=
  path.inits.any fun above => !above.isEmpty && decides above (isDir || above != path) == some true

-- ===== the last one decides

section

variable {α β : Type*}

def lastSome : List (Option β) → Option β
  | [] => none
  | v :: vs => (lastSome vs).or v

theorem lastSome_append (vs ws : List (Option β)) :
    lastSome (vs ++ ws) = (lastSome ws).or (lastSome vs) := by
  induction vs with
  | nil => exact (Option.or_none).symm
  | cons v vs ih => rw [List.cons_append, lastSome, ih, lastSome, Option.or_assoc]

theorem lastSome_flatMap (xs : List α) (f : α → List (Option β)) :
    lastSome (xs.flatMap f) = lastSome (xs.map fun x => lastSome (f x)) := by
  induction xs with
  | nil => rfl
  | cons x xs ih => rw [List.flatMap_cons, lastSome_append, List.map_cons, lastSome, ih]

/-- Of a list that grows in `rank` where anything is said, the last word is
that of the highest rank. -/
theorem lastSome_map_eq_some {f : α → Option β} {rank : α → Nat} : ∀ {xs : List α},
    (xs.Pairwise fun x y => f x ≠ none → f y ≠ none → rank x < rank y) → ∀ {b : β},
      lastSome (xs.map f) = some b ↔
        ∃ x ∈ xs, f x = some b ∧ ∀ y ∈ xs, f y ≠ none → rank y ≤ rank x
  | [], _, b => by
      constructor
      · intro h
        cases h
      · intro h
        obtain ⟨x, hx, -⟩ := h
        cases hx
  | x :: xs, hsorted, b => by
      obtain ⟨hfirst, hrest⟩ := List.pairwise_cons.1 hsorted
      have ih := @lastSome_map_eq_some f rank xs hrest
      rw [List.map_cons, lastSome]
      cases hlast : lastSome (xs.map f) with
      | some c =>
          rw [Option.some_or]
          obtain ⟨z, hz, hfz, hzmax⟩ := (ih (b := c)).1 hlast
          have hzne : f z ≠ none := by
            rw [hfz]
            exact Option.some_ne_none c
          constructor
          · intro h
            cases h
            refine ⟨z, List.mem_cons_of_mem x hz, hfz, List.forall_mem_cons.2 ⟨?_, hzmax⟩⟩
            exact fun hx => Nat.le_of_lt (hfirst z hz hx hzne)
          · intro h
            obtain ⟨y, hy, hfy, hymax⟩ := h
            have hyne : f y ≠ none := by
              rw [hfy]
              exact Option.some_ne_none b
            rcases List.mem_cons.1 hy with heq | hmem
            · have hlt := hfirst z hz (heq ▸ hyne) hzne
              have hle := hymax z (List.mem_cons_of_mem x hz) hzne
              rw [heq] at hle
              omega
            · rw [← hlast]
              exact ih.2 ⟨y, hmem, hfy, fun w hw => hymax w (List.mem_cons_of_mem x hw)⟩
      | none =>
          have hnone : ∀ y ∈ xs, f y = none := by
            intro y hy
            by_contra hne
            have hall : ∀ ys : List α, lastSome (ys.map f) = none → ∀ y ∈ ys, f y = none := by
              intro ys
              induction ys with
              | nil => exact fun _ => List.forall_mem_nil _
              | cons w ws ihw =>
                  intro hw
                  rw [List.map_cons, lastSome, Option.or_eq_none_iff] at hw
                  exact List.forall_mem_cons.2 ⟨hw.2, ihw hw.1⟩
            exact hne (hall xs hlast y hy)
          rw [Option.none_or]
          constructor
          · intro h
            refine ⟨x, List.mem_cons_self, h, List.forall_mem_cons.2 ⟨fun _ => Nat.le_refl _, ?_⟩⟩
            intro y hy hne
            exact absurd (hnone y hy) hne
          · intro h
            obtain ⟨y, hy, hfy, -⟩ := h
            rcases List.mem_cons.1 hy with heq | hmem
            · rw [← heq]
              exact hfy
            · rw [hnone y hmem] at hfy
              cases hfy

theorem lastSome_map_congr {f : α → Option β} {rank : α → Nat} {xs ys : List α}
    (hxs : xs.Pairwise fun x y => f x ≠ none → f y ≠ none → rank x < rank y)
    (hys : ys.Pairwise fun x y => f x ≠ none → f y ≠ none → rank x < rank y)
    (h : ∀ x, f x ≠ none → (x ∈ xs ↔ x ∈ ys)) :
    lastSome (xs.map f) = lastSome (ys.map f) := by
  refine Option.ext fun b => ?_
  rw [lastSome_map_eq_some hxs, lastSome_map_eq_some hys]
  have hsome {x : α} (hx : f x = some b) : f x ≠ none := by
    rw [hx]
    exact Option.some_ne_none b
  constructor
  · intro hex
    obtain ⟨x, hx, hfx, hmax⟩ := hex
    exact ⟨x, (h x (hsome hfx)).1 hx, hfx, fun y hy hne => hmax y ((h y hne).2 hy) hne⟩
  · intro hex
    obtain ⟨x, hx, hfx, hmax⟩ := hex
    exact ⟨x, (h x (hsome hfx)).2 hx, hfx, fun y hy hne => hmax y ((h y hne).1 hy) hne⟩

theorem lastSome_ne_false {vs : List (Option Bool)} (h : some false ∉ vs) :
    lastSome vs ≠ some false := by
  induction vs with
  | nil => exact fun hnone => by cases hnone
  | cons v vs ih =>
      obtain ⟨hv, hvs⟩ := not_or.1 (mt List.mem_cons.2 h)
      rw [lastSome]
      cases hlast : lastSome vs with
      | some b =>
          have hrest := ih hvs
          rw [hlast] at hrest
          exact hrest
      | none => exact fun heq => hv heq.symm

theorem lastSome_eq_true_iff {vs : List (Option Bool)} (h : some false ∉ vs) :
    lastSome vs = some true ↔ some true ∈ vs := by
  induction vs with
  | nil => simp [lastSome]
  | cons v vs ih =>
      obtain ⟨hv, hvs⟩ := not_or.1 (mt List.mem_cons.2 h)
      have ih := ih hvs
      have hne := lastSome_ne_false hvs
      rw [lastSome, List.mem_cons]
      cases hlast : lastSome vs with
      | none =>
          rw [hlast] at ih
          rw [Option.none_or, or_iff_left fun hmem => Option.some_ne_none true (ih.2 hmem).symm]
          exact eq_comm
      | some b =>
          rw [hlast] at ih hne
          cases b with
          | false => exact absurd rfl hne
          | true => exact ⟨fun _ => Or.inr (ih.1 rfl), fun _ => rfl⟩

end

def verdict (glob : List Char → List Char → Bool) (lines path : List (List Char)) (isDir : Bool) :
    Option Bool :=
  lastSome (lines.map fun line => lineVerdict glob line path isDir)

-- ===== a directory

structure Plain (name : List Char) : Prop where
  ne_nil : name ≠ []
  chars : ∀ c ∈ name, c ≠ '*' ∧ c ≠ '?' ∧ c ≠ '[' ∧ c ≠ '\\' ∧ c ≠ '/'

theorem Plain.ne_doubleStar {name : List Char} (h : Plain name) : name ≠ doubleStar := by
  intro heq
  exact (h.chars '*' (heq ▸ List.mem_cons_self)).1 rfl

theorem Plain.slash_not_mem {name : List Char} (h : Plain name) : '/' ∉ name := fun hmem =>
  (h.chars '/' hmem).2.2.2.2 rfl

structure Globs (glob : List Char → List Char → Bool) : Prop where
  plain : ∀ {seg}, Plain seg → ∀ name, glob seg name = true ↔ name = seg
  stars : ∀ name, glob doubleStar name = true
  empty : ∀ name, glob [] name = false

def dirText (dir : List (List Char)) : List Char := Text.join ['/'] dir

theorem dirText_cons (name : List Char) {dir : List (List Char)} (h : dir ≠ []) :
    dirText (name :: dir) = name ++ '/' :: dirText dir := by
  obtain ⟨next, dir, rfl⟩ := List.exists_cons_of_ne_nil h
  simp [dirText, Text.join]

theorem dirText_singleton (name : List Char) : dirText [name] = name := by
  simp [dirText, Text.join]

theorem dirText_head {name : List Char} (hname : name ≠ []) (dir : List (List Char)) :
    (dirText (name :: dir)).head? = name.head? := by
  obtain ⟨c, name, rfl⟩ := List.exists_cons_of_ne_nil hname
  cases dir with
  | nil => rw [dirText_singleton]
  | cons next dir =>
      rw [dirText_cons _ (List.cons_ne_nil _ _)]
      rfl

theorem splitText_dir (rest : List Char) : ∀ {dir : List (List Char)}, dir ≠ [] →
    (∀ name ∈ dir, Plain name) →
      splitText ['/'] (dirText dir ++ '/' :: rest) = dir ++ splitText ['/'] rest
  | [], hne, _ => absurd rfl hne
  | [name], _, hplain => by
      rw [dirText_singleton, splitText_singleton (hplain name List.mem_cons_self).slash_not_mem]
      rfl
  | name :: next :: dir, _, hplain => by
      have ih := splitText_dir rest (List.cons_ne_nil next dir)
        fun other hmem => hplain other (List.mem_cons_of_mem name hmem)
      rw [dirText_cons name (List.cons_ne_nil _ _), List.append_assoc, List.cons_append,
        splitText_singleton (hplain name List.mem_cons_self).slash_not_mem, ih]
      rfl

def innerOf (body : List Char) : List Char := if body.head? == some '/' then body.drop 1 else body

def trimEnd (body : List Char) : List Char :=
  if body.getLast? == some '/' then body.dropLast else body

theorem exists_parseBody {line : List Char} {p : Pattern} (hparse : parse line = some p) :
    ∃ negate body, parseBody negate body = some p := by
  unfold parse at hparse
  split at hparse
  · cases hparse
  · split at hparse
    · exact ⟨true, line.drop 1, hparse⟩
    · exact ⟨false, line, hparse⟩

theorem parseBody_eq (negate : Bool) (body : List Char) :
    parseBody negate body = if trimEnd body = [] then none else
      some ⟨negate, body.getLast? == some '/', (trimEnd body).contains '/',
        splitText ['/'] (innerOf (trimEnd body))⟩ := rfl

theorem exists_of_head {c : Char} {line : List Char} (h : (line.head? == some c) = true) :
    ∃ rest, line = c :: rest := by
  rw [beq_iff_eq, List.head?_eq_some_iff] at h
  exact h

theorem segs_of_not_anchored {line : List Char} {p : Pattern} (hparse : parse line = some p)
    (hanchored : ¬p.anchored = true) : ∃ seg, p.segs = [seg] := by
  obtain ⟨negate, body, hbody⟩ := exists_parseBody hparse
  rw [parseBody_eq] at hbody
  split at hbody
  next => cases hbody
  next =>
    cases hbody
    have hslash : '/' ∉ trimEnd body := by simpa using hanchored
    refine ⟨trimEnd body, ?_⟩
    rw [innerOf, if_neg, splitText_of_not_mem hslash]
    intro hhead
    obtain ⟨rest, hrest⟩ := exists_of_head hhead
    exact hslash (hrest ▸ List.mem_cons_self)

/-- Of a body that is not empty without its last slash, both slashes can be
taken in either order. -/
theorem innerOf_trimEnd {body : List Char} (h : trimEnd body ≠ []) :
    innerOf body ≠ [] ∧ (innerOf body).getLast? = body.getLast? ∧
      innerOf (trimEnd body) = trimEnd (innerOf body) := by
  cases body with
  | nil => exact absurd rfl h
  | cons c body =>
      by_cases hc : c = '/'
      · subst hc
        cases body with
        | nil => exact absurd rfl h
        | cons d body =>
            have hinner : innerOf ('/' :: d :: body) = d :: body := rfl
            rw [hinner]
            refine ⟨List.cons_ne_nil _ _, (List.getLast?_cons_cons).symm, ?_⟩
            unfold trimEnd
            rw [List.getLast?_cons_cons]
            split
            · rfl
            · rfl
      · have hinner : innerOf (c :: body) = c :: body := if_neg (by simpa using hc)
        rw [hinner]
        refine ⟨List.cons_ne_nil _ _, rfl, ?_⟩
        obtain ⟨e, more, htrim⟩ := List.exists_cons_of_ne_nil h
        have he : e = c := by
          unfold trimEnd at htrim
          split at htrim
          · cases body with
            | nil => cases htrim
            | cons d body =>
                rw [List.dropLast_cons_cons] at htrim
                exact (List.cons.inj htrim).1.symm
          · exact (List.cons.inj htrim).1.symm
        rw [htrim, he]
        exact if_neg (by simpa using hc)

theorem trimEnd_append {x core : List Char} (hcore : core ≠ []) :
    trimEnd (x ++ core) = x ++ trimEnd core := by
  unfold trimEnd
  rw [List.getLast?_append_of_ne_nil _ hcore, List.dropLast_append_of_ne_nil hcore]
  split
  · rfl
  · rfl

/-- A line with a directory put in front of it is a line for places, with the
directory's names in front of its segments. -/
theorem parseBody_below {negate : Bool} {body : List Char} {p : Pattern} {dir : List (List Char)}
    (hdir : dir ≠ []) (hplain : ∀ name ∈ dir, Plain name) (h : parseBody negate body = some p) :
    parseBody negate (dirText dir ++ '/' :: innerOf body)
      = some { p with anchored := true, segs := dir ++ p.segs } := by
  rw [parseBody_eq] at h
  split at h
  next => cases h
  next hne =>
    cases h
    obtain ⟨hcore, hlast, hinner⟩ := innerOf_trimEnd hne
    have hcons : '/' :: innerOf body ≠ [] := List.cons_ne_nil _ _
    have htrim : trimEnd (dirText dir ++ '/' :: innerOf body)
        = dirText dir ++ '/' :: trimEnd (innerOf body) := by
      have hsplit : dirText dir ++ '/' :: innerOf body = (dirText dir ++ ['/']) ++ innerOf body := by
        rw [List.append_assoc]
        rfl
      rw [hsplit, trimEnd_append hcore, List.append_assoc]
      rfl
    have hend : (dirText dir ++ '/' :: innerOf body).getLast? = body.getLast? := by
      rw [List.getLast?_append_of_ne_nil _ hcons, ← hlast]
      obtain ⟨d, core, heq⟩ := List.exists_cons_of_ne_nil hcore
      rw [heq, List.getLast?_cons_cons]
    have hhead : innerOf (dirText dir ++ '/' :: trimEnd (innerOf body))
        = dirText dir ++ '/' :: trimEnd (innerOf body) := by
      obtain ⟨name, dir, rfl⟩ := List.exists_cons_of_ne_nil hdir
      have hname := hplain name List.mem_cons_self
      obtain ⟨c, more, hc⟩ := List.exists_cons_of_ne_nil hname.ne_nil
      have hslash : c ≠ '/' := (hname.chars c (hc ▸ List.mem_cons_self)).2.2.2.2
      have hfirst : (dirText (name :: dir)).head? = some c := by
        rw [dirText_head hname.ne_nil, hc]
        rfl
      refine if_neg ?_
      rw [List.head?_append, hfirst]
      simpa using hslash
    rw [parseBody_eq, htrim, hend, hhead, splitText_dir _ hdir hplain, hinner]
    rw [if_neg (by simp)]
    simp only [Option.some.injEq, Pattern.mk.injEq, true_and, and_true]
    simp

section

variable {glob : List Char → List Char → Bool}

theorem segsMatch_nil : ∀ {segs : List (List Char)}, segs ≠ [] → segsMatch glob segs [] = false
  | [], h => absurd rfl h
  | seg :: segs, _ => by
      rw [segsMatch]
      split
      · split
        · rfl
        next hne =>
          have ih := segsMatch_nil hne
          simp [ih]
      · rfl

theorem segsMatch_stars (path : List (List Char)) : segsMatch glob [doubleStar] path = !path.isEmpty := by
  cases path with
  | nil => rfl
  | cons name path => rfl

theorem any_stars (hglob : Globs glob) (path : List (List Char)) :
    path.getLast?.any (glob doubleStar) = !path.isEmpty := by
  cases path with
  | nil => rfl
  | cons name path =>
      rw [List.getLast?_eq_some_getLast (List.cons_ne_nil _ _)]
      exact hglob.stars _

theorem segsMatch_below (hglob : Globs glob)
    {segs : List (List Char)} : ∀ {dir path : List (List Char)}, (∀ name ∈ dir, Plain name) →
      (segsMatch glob (dir ++ segs) path = true ↔
        ∃ rest, path = dir ++ rest ∧ segsMatch glob segs rest = true)
  | [], path, _ => by simp
  | seg :: dir, path, hplain => by
      obtain ⟨hseg, hdir⟩ := List.forall_mem_cons.1 hplain
      cases path with
      | nil =>
          rw [List.cons_append, segsMatch_nil (List.cons_ne_nil _ _)]
          simp
      | cons name path =>
          have ih := @segsMatch_below hglob segs dir path hdir
          rw [List.cons_append, segsMatch, if_neg hseg.ne_doubleStar]
          simp only [Bool.and_eq_true]
          rw [hglob.plain hseg, ih]
          constructor
          · intro h
            obtain ⟨hname, rest, hpath, hmatch⟩ := h
            exact ⟨rest, by rw [hname, hpath]; rfl, hmatch⟩
          · intro h
            obtain ⟨rest, hpath, hmatch⟩ := h
            obtain ⟨hname, hpath⟩ := List.cons.inj hpath
            exact ⟨hname, rest, hpath, hmatch⟩

theorem lineVerdict_nil (line : List Char) (isDir : Bool) : lineVerdict glob line [] isDir = none := by
  unfold lineVerdict
  cases hparse : parse line with
  | none => rfl
  | some p =>
      obtain ⟨negate, body, hbody⟩ := exists_parseBody hparse
      rw [parseBody_eq] at hbody
      split at hbody
      · cases hbody
      · cases hbody
        have hne : splitText ['/'] (innerOf (trimEnd body)) ≠ [] := splitFrom_ne_nil _ _ 0
        simp [Pattern.matches, segsMatch_nil hne]

end

-- ===== excluded

section

variable {decides decides' : List (List Char) → Bool → Option Bool}

theorem excluded_iff {path : List (List Char)} {isDir : Bool} :
    excluded decides path isDir = true ↔
      ∃ above, above <+: path ∧ above ≠ [] ∧ decides above (isDir || above != path) = some true := by
  unfold excluded
  rw [List.any_eq_true]
  constructor
  · intro hex
    obtain ⟨above, hmem, hdecides⟩ := hex
    simp only [Bool.and_eq_true, Bool.not_eq_true', List.isEmpty_eq_false_iff, beq_iff_eq]
      at hdecides
    exact ⟨above, (List.mem_inits above path).1 hmem, hdecides.1, hdecides.2⟩
  · intro hex
    obtain ⟨above, hpre, hne, hdecides⟩ := hex
    refine ⟨above, (List.mem_inits above path).2 hpre, ?_⟩
    simp only [Bool.and_eq_true, Bool.not_eq_true', List.isEmpty_eq_false_iff, beq_iff_eq]
    exact ⟨hne, hdecides⟩

theorem excluded_below {above path : List (List Char)} {isDir : Bool} (hpre : above <+: path)
    (hlt : above.length < path.length) (h : excluded decides above true = true) :
    excluded decides path isDir = true := by
  obtain ⟨dir, hdir, hne, hdecides⟩ := excluded_iff.1 h
  rw [Bool.true_or] at hdecides
  refine excluded_iff.2 ⟨dir, hdir.trans hpre, hne, ?_⟩
  have hother : (dir != path) = true := by
    rw [bne_iff_ne]
    intro heq
    have hle := hdir.length_le
    rw [heq] at hle
    omega
  rw [hother, Bool.or_true]
  exact hdecides

/-- A place is excluded for itself, or with a directory that it is in. -/
theorem excluded_eq (path : List (List Char)) (isDir : Bool) :
    excluded decides path isDir = true ↔
      (path ≠ [] ∧ decides path isDir = some true) ∨
        ∃ above, above <+: path ∧ above.length < path.length ∧ excluded decides above true = true := by
  constructor
  · intro h
    obtain ⟨dir, hpre, hne, hdecides⟩ := excluded_iff.1 h
    by_cases heq : dir = path
    · subst heq
      rw [bne_self_eq_false, Bool.or_false] at hdecides
      exact Or.inl ⟨hne, hdecides⟩
    · rw [bne_iff_ne.2 heq, Bool.or_true] at hdecides
      refine Or.inr ⟨dir, hpre, ?_, excluded_iff.2 ⟨dir, List.prefix_rfl, hne, hdecides⟩⟩
      refine Nat.lt_of_le_of_ne hpre.length_le fun hlength => heq ?_
      exact hpre.eq_of_length hlength
  · intro h
    rcases h with hself | habove
    · refine excluded_iff.2 ⟨path, List.prefix_rfl, hself.1, ?_⟩
      rw [bne_self_eq_false, Bool.or_false]
      exact hself.2
    · obtain ⟨above, hpre, hlt, hexcluded⟩ := habove
      exact excluded_below hpre hlt hexcluded

/-- To exclude the same, it is enough to say the same where no excluded
directory is above. -/
theorem excluded_congr (h : ∀ path isDir, (∀ dir, dir <+: path → dir.length < path.length →
      excluded decides dir true = false) → decides' path isDir = decides path isDir)
    (path : List (List Char)) (isDir : Bool) :
    excluded decides' path isDir = excluded decides path isDir := by
  induction hn : path.length using Nat.strong_induction_on generalizing path isDir with
  | h n ih =>
    subst hn
    rw [Bool.eq_iff_iff, excluded_eq, excluded_eq path]
    by_cases hopen : ∀ dir, dir <+: path → dir.length < path.length →
        excluded decides dir true = false
    · rw [h path isDir hopen]
      refine or_congr Iff.rfl (exists_congr fun dir => and_congr_right fun hpre => ?_)
      refine and_congr_right fun hlt => ?_
      rw [ih dir.length hlt dir true rfl]
    · obtain ⟨dir, hdir⟩ := not_forall.1 hopen
      obtain ⟨hpre, hdir⟩ := Classical.not_imp.1 hdir
      obtain ⟨hlt, hdir⟩ := Classical.not_imp.1 hdir
      rw [Bool.not_eq_false] at hdir
      have hdir' := ih dir.length hlt dir true rfl
      rw [hdir] at hdir'
      exact ⟨fun _ => Or.inr ⟨dir, hpre, hlt, hdir⟩, fun _ => Or.inr ⟨dir, hpre, hlt, hdir'⟩⟩

end

-- ===== without exceptions

def Positive (lines : List (List Char)) : Prop := ∀ line ∈ lines, line.head? ≠ some '!'

instance (lines : List (List Char)) : Decidable (Positive lines) := List.decidableBAll _ lines

section

variable {glob : List Char → List Char → Bool}

/-- What a line without a `!` excludes as a file it excludes as a directory. -/
theorem lineVerdict_positive {line : List Char} (h : line.head? ≠ some '!')
    (path : List (List Char)) (isDir : Bool) :
    lineVerdict glob line path isDir ≠ some false ∧
      (lineVerdict glob line path false = some true → lineVerdict glob line path true = some true) := by
  unfold lineVerdict
  cases hparse : parse line with
  | none => exact ⟨fun hnone => (by cases hnone), fun hnone => (by cases hnone)⟩
  | some p =>
      have hnegate : p.negate = false := by
        unfold parse at hparse
        split at hparse
        · cases hparse
        · rw [if_neg (by simpa using h), parseBody_eq] at hparse
          split at hparse
          · cases hparse
          · cases hparse
            rfl
      simp only [Option.bind_some, hnegate]
      constructor
      · split
        · exact fun heq => by cases heq
        · exact fun heq => by cases heq
      · intro hfile
        obtain ⟨hmatches, -⟩ := (Option.ite_none_right_eq_some).1 hfile
        unfold Pattern.matches at hmatches ⊢
        rw [Bool.and_eq_true_iff] at hmatches
        rw [if_pos]
        · rfl
        · rw [Bool.or_true, Bool.true_and]
          exact hmatches.2

theorem verdict_positive {lines : List (List Char)} (h : Positive lines) (path : List (List Char))
    (isDir : Bool) : verdict glob lines path isDir ≠ some false ∧
      (verdict glob lines path false = some true → verdict glob lines path true = some true) := by
  have hfree (isDir : Bool) : some false ∉ lines.map fun line => lineVerdict glob line path isDir := by
    intro hmem
    obtain ⟨line, hline, heq⟩ := List.mem_map.1 hmem
    exact (lineVerdict_positive (h line hline) path isDir).1 heq
  unfold verdict
  refine ⟨lastSome_ne_false (hfree isDir), ?_⟩
  rw [lastSome_eq_true_iff (hfree false), lastSome_eq_true_iff (hfree true)]
  intro hmem
  obtain ⟨line, hline, heq⟩ := List.mem_map.1 hmem
  exact List.mem_map.2 ⟨line, hline, (lineVerdict_positive (h line hline) path false).2 heq⟩

end

-- ===== stars

/-- A star for any run of characters; all others for themselves. -/
def starRun : List Char → List Char → Bool
  | [], name => name.isEmpty
  | c :: seg, name =>
      if c = '*' then name.tails.any (starRun seg)
      else
        match name with
        | [] => false
        | d :: name => c == d && starRun seg name

def starGlob (seg name : List Char) : Bool := !seg.isEmpty && starRun seg name

theorem starRun_free {seg : List Char} (h : '*' ∉ seg) (name : List Char) :
    starRun seg name = true ↔ name = seg := by
  induction seg generalizing name with
  | nil => exact List.isEmpty_iff
  | cons c seg ih =>
      obtain ⟨hc, hseg⟩ := not_or.1 (mt List.mem_cons.2 h)
      rw [starRun.eq_def]
      simp only
      rw [if_neg (Ne.symm hc)]
      cases name with
      | nil => simp
      | cons d name =>
          simp only [Bool.and_eq_true, beq_iff_eq, List.cons.injEq]
          rw [ih hseg]
          exact and_congr_left fun _ => eq_comm

theorem starRun_star (seg name : List Char) :
    starRun ('*' :: seg) name = name.tails.any (starRun seg) := by
  rw [starRun.eq_def]
  exact if_pos rfl

theorem starGlob_globs : Globs starGlob where
  plain {seg} h name := by
    unfold starGlob
    rw [List.isEmpty_eq_false_iff.2 h.ne_nil]
    exact starRun_free (fun hmem => (h.chars '*' hmem).1 rfl) name
  stars name := by
    change starRun ('*' :: ['*']) name = true
    rw [starRun_star, List.any_eq_true]
    exact ⟨[], (List.mem_tails [] name).2 List.nil_suffix, rfl⟩
  empty name := rfl

end Lib.Gitignore
