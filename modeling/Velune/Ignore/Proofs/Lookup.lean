/-
The lookup tables answer with the last matching rule.

A view is built by adding rules in order, so one step is enough
(`lastMatch_add`): every index in a view is smaller than the one added
(`View.Below`), and so the new rule is the answer when it matches and
changes nothing when it does not. The verdict of a rule set is then the
one of the last rule that applies (`ruleVerdict_eq`).
-/
import Velune.Ignore.Matcher

namespace Velune.Ignore

open Lib Lib.Regex

variable {flags : Flags}

-- ===== single rules

def Rule.hits (flags : Flags) (rule : Rule) (rel : List PyStr) : Bool :=
  match rule.kind with
  | .name key => flags.fold (relName rel) == flags.fold key
  | .path key => flags.fold (relText rel) == flags.fold key
  | .suffix key => (flags.fold key).isSuffixOf (flags.fold (relName rel))
  | .multi => matchSegments flags rule.segs rel
  | .regex => (matchAt noWords (rule.regex flags) none (relText rel)).isSome

/-- A rule says something about a path: it matches, and is not for
directories only when the path is none. -/
def Rule.applies (flags : Flags) (rel : List PyStr) (isDir : Bool) (rule : Rule) : Bool :=
  (isDir || !rule.dirOnly) && rule.hits flags rel

def lastVerdict (flags : Flags) (rules : List Rule) (rel : List PyStr) (isDir : Bool) :
    Option Bool :=
  (rules.filter (·.applies flags rel isDir)).getLast?.map fun rule => !rule.negate

-- ===== newest indices

theorem newer_left {i : Nat} {b : Option Nat} (h : ∀ j ∈ b, j < i) : newer (some i) b = some i := by
  cases b with
  | none => rfl
  | some j =>
      have := h j rfl
      rw [newer, Nat.max_eq_left (by omega)]

theorem newer_right {i : Nat} {a : Option Nat} (h : ∀ j ∈ a, j < i) : newer a (some i) = some i := by
  cases a with
  | none => rfl
  | some j =>
      have := h j rfl
      rw [newer, Nat.max_eq_right (by omega)]

theorem mem_newer {a b : Option Nat} {j : Nat} (h : j ∈ newer a b) : j ∈ a ∨ j ∈ b := by
  cases a with
  | none => exact .inr h
  | some i =>
      cases b with
      | none => exact .inl h
      | some k =>
          rw [newer, Option.mem_some_iff] at h
          rcases Nat.le_total i k with hik | hik
          · exact .inr (by rw [← h, Nat.max_eq_right hik]; rfl)
          · exact .inl (by rw [← h, Nat.max_eq_left hik]; rfl)

theorem newer_below {n : Nat} {a b : Option Nat} (ha : ∀ j ∈ a, j < n) (hb : ∀ j ∈ b, j < n) :
    ∀ j ∈ newer a b, j < n := fun j hj => (mem_newer hj).elim (ha j) (hb j)

def newestOf (l : List (Option Nat)) : Option Nat := l.foldl newer none

theorem newestOf_concat (l : List (Option Nat)) (x : Option Nat) :
    newestOf (l ++ [x]) = newer (newestOf l) x := by
  rw [newestOf, List.foldl_append]
  rfl

theorem le_newer {a b : Option Nat} {i : Nat} (h : i ∈ a ∨ i ∈ b) : ∃ j ∈ newer a b, i ≤ j := by
  cases a with
  | none =>
      rcases h with h | h
      · cases h
      · exact ⟨i, h, Nat.le_refl i⟩
  | some k =>
      cases b with
      | none =>
          rcases h with h | h
          · exact ⟨i, h, Nat.le_refl i⟩
          · cases h
      | some l =>
          refine ⟨max k l, rfl, ?_⟩
          rcases h with h | h
          · rw [← Option.mem_some_iff.1 h]
            exact Nat.le_max_left k l
          · rw [← Option.mem_some_iff.1 h]
            exact Nat.le_max_right k l

theorem mem_of_newestOf {l : List (Option Nat)} {j : Nat} (h : newestOf l = some j) :
    some j ∈ l := by
  induction l using List.reverseRecOn with
  | nil => cases h
  | append_singleton l x ih =>
      rw [newestOf_concat] at h
      rcases mem_newer h with h | h
      · exact List.mem_append_left _ (ih h)
      · exact List.mem_append_right _ (List.mem_singleton.2 h.symm)

theorem le_newestOf {l : List (Option Nat)} {i : Nat} (h : some i ∈ l) :
    ∃ j, newestOf l = some j ∧ i ≤ j := by
  induction l using List.reverseRecOn with
  | nil => cases h
  | append_singleton l x ih =>
      rw [newestOf_concat]
      rcases List.mem_append.1 h with h | h
      · obtain ⟨k, hk, hle⟩ := ih h
        obtain ⟨j, hj, hle'⟩ := le_newer (b := x) (.inl hk)
        exact ⟨j, hj, Nat.le_trans hle hle'⟩
      · exact le_newer (.inr (List.mem_singleton.1 h).symm)

theorem newestOf_eq_some {l : List (Option Nat)} {j : Nat} :
    newestOf l = some j ↔ some j ∈ l ∧ ∀ i, some i ∈ l → i ≤ j := by
  constructor
  · intro h
    refine ⟨mem_of_newestOf h, fun i hi => ?_⟩
    obtain ⟨k, hk, hle⟩ := le_newestOf hi
    rw [h] at hk
    cases hk
    exact hle
  · rintro ⟨hmem, hmax⟩
    obtain ⟨k, hk, hle⟩ := le_newestOf hmem
    rw [hk, Nat.le_antisymm (hmax k (mem_of_newestOf hk)) hle]

theorem newestOf_congr {l l' : List (Option Nat)} (h : ∀ j : Nat, some j ∈ l ↔ some j ∈ l') :
    newestOf l = newestOf l' := by
  apply Option.ext
  intro j
  rw [newestOf_eq_some, newestOf_eq_some, h j]
  simp only [h]

-- ===== suffixes

theorem newestSuffix_eq (suffixes : Dict PyStr Nat) (longest : Nat) (name : PyStr) :
    newestSuffix suffixes longest name = newestOf
      ((List.range' (name.length - longest) (name.length + 1 - (name.length - longest))).map
        fun start => suffixes (name.drop start)) := by
  rw [newestOf, List.foldl_map]
  rfl

variable {suffixes : Dict PyStr Nat}

theorem mem_suffixes {longest : Nat} {name : PyStr} {j : Nat} :
    some j ∈ (List.range' (name.length - longest) (name.length + 1 - (name.length - longest))).map
        (fun start => suffixes (name.drop start)) ↔
      ∃ t, t <:+ name ∧ t.length ≤ longest ∧ suffixes t = some j := by
  rw [List.mem_map]
  constructor
  · rintro ⟨start, hstart, hj⟩
    obtain ⟨i, hi, rfl⟩ := List.mem_range'.1 hstart
    exact ⟨_, List.drop_suffix _ _, by rw [List.length_drop]; omega, hj⟩
  · rintro ⟨t, ht, hlong, hj⟩
    have hle := ht.length_le
    refine ⟨name.length - t.length, List.mem_range'.2 ⟨longest - t.length - (longest - name.length),
      by omega, by omega⟩, ?_⟩
    rw [← List.suffix_iff_eq_drop.1 ht]
    exact hj

theorem newestSuffix_insert {longest i : Nat} {key name : PyStr}
    (hbelow : ∀ k j, suffixes k = some j → j < i) (hkey : key <:+ name)
    (hlong : key.length ≤ longest) :
    newestSuffix (suffixes.insert key i) longest name = some i := by
  rw [newestSuffix_eq, newestOf_eq_some]
  refine ⟨mem_suffixes.2 ⟨key, hkey, hlong, Dict.insert_self _ _ _⟩, fun j hj => ?_⟩
  obtain ⟨t, -, -, ht⟩ := mem_suffixes.1 hj
  rcases Dict.insert_eq_some ht with ⟨-, rfl⟩ | ⟨-, ht⟩
  · exact Nat.le_refl _
  · exact Nat.le_of_lt (hbelow t j ht)

/-- A newer key that is none changes nothing, and neither does looking
for longer ones. -/
theorem newestSuffix_skip {longest more i : Nat} {key name : PyStr}
    (hlong : ∀ k j, suffixes k = some j → k.length ≤ longest) (hkey : ¬ key <:+ name) :
    newestSuffix (suffixes.insert key i) (max longest more) name
      = newestSuffix suffixes longest name := by
  rw [newestSuffix_eq, newestSuffix_eq]
  refine newestOf_congr fun j => ?_
  rw [mem_suffixes, mem_suffixes]
  constructor
  · rintro ⟨t, ht, -, hj⟩
    rcases Dict.insert_eq_some hj with ⟨rfl, -⟩ | ⟨-, hj⟩
    · exact absurd ht hkey
    · exact ⟨t, ht, hlong t j hj, hj⟩
  · rintro ⟨t, ht, hle, hj⟩
    have hne : t ≠ key := fun h => hkey (h ▸ ht)
    exact ⟨t, ht, Nat.le_trans hle (Nat.le_max_left _ _), by rwa [Dict.insert_of_ne _ _ hne]⟩

-- ===== expressions

theorem newestGlob_cons (i : Nat) (r : Re) (globs : List (Nat × Re)) (rel : PyStr) :
    newestGlob ((i, r) :: globs) rel
      = if (matchAt noWords r none rel).isSome then some i else newestGlob globs rel := by
  obtain ⟨hsome, hhead⟩ := @matchAt_group noWords i r none rel
  unfold newestGlob
  rw [List.map_cons, matchAt_oneOf_cons]
  cases hm : matchAt noWords (.group i r) none rel with
  | none =>
      rw [hm] at hsome
      rw [Option.none_or, ← hsome]
      rfl
  | some m =>
      rw [hm] at hsome hhead
      rw [Option.some_or, Option.bind_some, hhead m rfl, if_pos (by rw [← hsome]; rfl)]

theorem newestGlob_mem {globs : List (Nat × Re)} {rel : PyStr} {j : Nat}
    (h : newestGlob globs rel = some j) : ∃ g ∈ globs, g.1 = j := by
  induction globs with
  | nil =>
      unfold newestGlob at h
      rw [List.map_nil, matchAt_oneOf_nil] at h
      cases h
  | cons g globs ih =>
      rw [newestGlob_cons] at h
      split at h
      next => exact ⟨g, by simp, by simpa using h⟩
      next =>
        obtain ⟨g', hg', hj⟩ := ih h
        exact ⟨g', by simp [hg'], hj⟩

-- ===== segment patterns

theorem newestMulti_best {i : Nat} {multis : List (Nat × List (Option Item))}
    (h : ∀ m ∈ multis, m.1 < i) (rel : List PyStr) :
    newestMulti flags rel (some i) multis = some i := by
  cases multis with
  | nil => rfl
  | cons m multis =>
      have := h m (by simp)
      rw [newestMulti, if_pos (by simp; omega)]

theorem newestMulti_mem {multis : List (Nat × List (Option Item))} {rel : List PyStr}
    {best : Option Nat} {j : Nat} (h : newestMulti flags rel best multis = some j) :
    best = some j ∨ ∃ m ∈ multis, m.1 = j := by
  induction multis with
  | nil => exact .inl h
  | cons m multis ih =>
      rw [newestMulti] at h
      split at h
      next => exact .inl h
      next =>
        split at h
        next => exact .inr ⟨m, by simp, by simpa using h⟩
        next =>
          rcases ih h with h | ⟨m', hm', hj⟩
          · exact .inl h
          · exact .inr ⟨m', by simp [hm'], hj⟩

-- ===== views

/-- All indices of a view are small, and its longest suffix is. -/
structure View.Below (view : View) (n : Nat) : Prop where
  names : ∀ k j, view.names k = some j → j < n
  paths : ∀ k j, view.paths k = some j → j < n
  suffixes : ∀ k j, view.suffixes k = some j → j < n
  longest : ∀ k j, view.suffixes k = some j → k.length ≤ view.longestSuffix
  globs : ∀ g ∈ view.globs, g.1 < n
  multis : ∀ m ∈ view.multis, m.1 < n

theorem View.Below.empty : View.empty.Below 0 where
  names _ _ h := by cases h
  paths _ _ h := by cases h
  suffixes _ _ h := by cases h
  longest _ _ h := by cases h
  globs _ h := by cases h
  multis _ h := by cases h

def View.best (flags : Flags) (view : View) (rel : List PyStr) : Option Nat :=
  newer (newer (newer (view.names (flags.fold (relName rel)))
      (view.paths (flags.fold (relText rel))))
    (newestSuffix view.suffixes view.longestSuffix (flags.fold (relName rel))))
    (newestGlob view.globs (relText rel))

theorem View.lastMatch_eq (view : View) (rel : List PyStr) :
    view.lastMatch flags rel = newestMulti flags rel (view.best flags rel) view.multis := rfl

theorem newestSuffix_below {longest n : Nat} {name : PyStr}
    (h : ∀ k j, suffixes k = some j → j < n) : ∀ j ∈ newestSuffix suffixes longest name, j < n := by
  intro j hj
  rw [newestSuffix_eq] at hj
  obtain ⟨t, -, -, ht⟩ := mem_suffixes.1 (mem_of_newestOf hj)
  exact h t j ht

theorem newestGlob_below {globs : List (Nat × Re)} {rel : PyStr} {n : Nat}
    (h : ∀ g ∈ globs, g.1 < n) : ∀ j ∈ newestGlob globs rel, j < n := by
  intro j hj
  obtain ⟨g, hg, rfl⟩ := newestGlob_mem hj
  exact h g hg

theorem View.Below.best {view : View} {n : Nat} (h : view.Below n) (rel : List PyStr) :
    ∀ j ∈ view.best flags rel, j < n :=
  newer_below (newer_below (newer_below (h.names _) (h.paths _)) (newestSuffix_below h.suffixes))
    (newestGlob_below h.globs)

/-- Adding a rule: it is the answer when it matches, and changes nothing
when it does not. -/
theorem View.lastMatch_add {view : View} {i : Nat} (h : view.Below i) (rule : Rule)
    (rel : List PyStr) :
    (view.add flags i rule).lastMatch flags rel
      = if rule.hits flags rel then some i else view.lastMatch flags rel := by
  have hnames := h.names (flags.fold (relName rel))
  have hpaths := h.paths (flags.fold (relText rel))
  have hsuffix : ∀ j ∈ newestSuffix view.suffixes view.longestSuffix (flags.fold (relName rel)),
      j < i := newestSuffix_below h.suffixes
  have hglob : ∀ j ∈ newestGlob view.globs (relText rel), j < i := newestGlob_below h.globs
  rw [View.lastMatch_eq, View.lastMatch_eq]
  unfold View.add Rule.hits
  cases hkind : rule.kind with
  | name key =>
      simp only [beq_iff_eq]
      by_cases hkey : flags.fold (relName rel) = flags.fold key
      · rw [if_pos hkey]
        have hbest : View.best flags { view with names := view.names.insert (flags.fold key) i } rel
            = some i := by
          simp only [View.best, hkey, Dict.insert_self]
          rw [← hkey, newer_left hpaths, newer_left hsuffix, newer_left hglob]
        rw [hbest, newestMulti_best h.multis]
      · rw [if_neg hkey]
        simp only [View.best, Dict.insert_of_ne _ _ hkey]
  | path key =>
      simp only [beq_iff_eq]
      by_cases hkey : flags.fold (relText rel) = flags.fold key
      · rw [if_pos hkey]
        have hbest : View.best flags { view with paths := view.paths.insert (flags.fold key) i } rel
            = some i := by
          simp only [View.best, hkey, Dict.insert_self]
          rw [newer_right hnames, newer_left hsuffix, newer_left hglob]
        rw [hbest, newestMulti_best h.multis]
      · rw [if_neg hkey]
        simp only [View.best, Dict.insert_of_ne _ _ hkey]
  | suffix key =>
      simp only [List.isSuffixOf_iff_suffix]
      by_cases hkey : flags.fold key <:+ flags.fold (relName rel)
      · rw [if_pos hkey]
        have hbest : View.best flags
            { view with
              suffixes := view.suffixes.insert (flags.fold key) i
              longestSuffix := max view.longestSuffix (flags.fold key).length } rel = some i := by
          simp only [View.best]
          rw [newestSuffix_insert h.suffixes hkey (Nat.le_max_right _ _),
            newer_right (newer_below hnames hpaths), newer_left hglob]
        rw [hbest, newestMulti_best h.multis]
      · rw [if_neg hkey]
        simp only [View.best, newestSuffix_skip h.longest hkey]
  | multi =>
      have hbest : View.best flags { view with multis := (i, rule.segs) :: view.multis } rel
          = view.best flags rel := rfl
      have hold : ¬ (view.best flags rel).any (i ≤ ·) = true := by
        intro hany
        obtain ⟨j, hj, hle⟩ := (Option.any_eq_true _ _).1 hany
        have := h.best rel j hj
        simp only [decide_eq_true_eq] at hle
        omega
      rw [hbest, newestMulti, if_neg hold]
  | regex =>
      simp only
      by_cases hhit : (matchAt noWords (rule.regex flags) none (relText rel)).isSome = true
      · rw [if_pos hhit]
        have hbest : View.best flags { view with globs := (i, rule.regex flags) :: view.globs } rel
            = some i := by
          simp only [View.best]
          rw [newestGlob_cons, if_pos hhit,
            newer_right (newer_below (newer_below hnames hpaths) hsuffix)]
        rw [hbest, newestMulti_best h.multis]
      · rw [if_neg hhit]
        simp only [View.best, newestGlob_cons, if_neg hhit]

theorem View.Below.mono {view : View} {n m : Nat} (h : view.Below n) (hnm : n ≤ m) :
    view.Below m where
  names k j hj := Nat.lt_of_lt_of_le (h.names k j hj) hnm
  paths k j hj := Nat.lt_of_lt_of_le (h.paths k j hj) hnm
  suffixes k j hj := Nat.lt_of_lt_of_le (h.suffixes k j hj) hnm
  longest := h.longest
  globs g hg := Nat.lt_of_lt_of_le (h.globs g hg) hnm
  multis m hm := Nat.lt_of_lt_of_le (h.multis m hm) hnm

theorem insert_below {d : Dict PyStr Nat} {n i : Nat} {key : PyStr}
    (h : ∀ k j, d k = some j → j < n) (hi : i < n) : ∀ k j, d.insert key i k = some j → j < n := by
  intro k j hj
  rcases Dict.insert_eq_some hj with ⟨-, rfl⟩ | ⟨-, hj⟩
  · exact hi
  · exact h k j hj

theorem View.Below.add {view : View} {n i : Nat} (h : view.Below n) (hi : i < n) (rule : Rule) :
    (view.add flags i rule).Below n := by
  unfold View.add
  cases rule.kind with
  | name key => exact { h with names := insert_below h.names hi }
  | path key => exact { h with paths := insert_below h.paths hi }
  | suffix key =>
      refine { h with suffixes := insert_below h.suffixes hi, longest := ?_ }
      intro k j hj
      rcases Dict.insert_eq_some hj with ⟨rfl, -⟩ | ⟨-, hj⟩
      · exact Nat.le_max_right _ _
      · exact Nat.le_trans (h.longest k j hj) (Nat.le_max_left _ _)
  | multi =>
      refine { h with multis := fun m hm => ?_ }
      rcases List.mem_cons.1 hm with rfl | hm
      · exact hi
      · exact h.multis m hm
  | regex =>
      refine { h with globs := fun g hg => ?_ }
      rcases List.mem_cons.1 hg with rfl | hg
      · exact hi
      · exact h.globs g hg

theorem View.Below.lastMatch {view : View} {n : Nat} (h : view.Below n) (rel : List PyStr) :
    ∀ j ∈ view.lastMatch flags rel, j < n := by
  intro j hj
  rcases newestMulti_mem hj with hj | ⟨m, hm, rfl⟩
  · exact h.best rel j hj
  · exact h.multis m hm

-- ===== rule sets

theorem indexed_concat (rules : List Rule) (rule : Rule) :
    indexed (rules ++ [rule]) = indexed rules ++ [(rules.length, rule)] := by
  simp [indexed, List.zipIdx_append]

theorem filter_concat {α : Type*} (p : α → Bool) (l : List α) (a : α) :
    (l ++ [a]).filter p = l.filter p ++ if p a then [a] else [] := by
  rw [List.filter_append]
  by_cases ha : p a = true
  · rw [if_pos ha, List.filter_cons_of_pos ha, List.filter_nil]
  · rw [if_neg ha, List.filter_cons_of_neg ha, List.filter_nil]

theorem makeView_concat (rules : List (Nat × Rule)) (r : Nat × Rule) :
    makeView flags (rules ++ [r]) = (makeView flags rules).add flags r.1 r.2 := by
  rw [makeView, List.foldl_append]
  rfl

theorem makeView_below (p : Rule → Bool) (rules : List Rule) :
    (makeView flags ((indexed rules).filter fun r => p r.2)).Below rules.length := by
  induction rules using List.reverseRecOn with
  | nil => exact .empty
  | append_singleton rules rule ih =>
      have hmore : (makeView flags ((indexed rules).filter fun r => p r.2)).Below
          (rules ++ [rule]).length := ih.mono (by simp)
      rw [indexed_concat, filter_concat]
      by_cases hp : p rule = true
      · rw [if_pos hp, makeView_concat]
        exact hmore.add (by simp) rule
      · rw [if_neg hp, List.append_nil]
        exact hmore

/-- The last match of a view is the last rule that belongs to it and
matches. -/
theorem lastMatch_makeView (p : Rule → Bool) (rules : List Rule) (rel : List PyStr) :
    ((makeView flags ((indexed rules).filter fun r => p r.2)).lastMatch flags rel).bind
        (fun i => rules[i]?)
      = (rules.filter fun rule => p rule && rule.hits flags rel).getLast? := by
  induction rules using List.reverseRecOn with
  | nil => cases (makeView flags ((indexed []).filter fun r => p r.2)).lastMatch flags rel <;> rfl
  | append_singleton rules rule ih =>
      have hbelow : (makeView flags ((indexed rules).filter fun r => p r.2)).Below rules.length :=
        makeView_below p rules
      -- an old index finds the old rule
      have hold : ((makeView flags ((indexed rules).filter fun r => p r.2)).lastMatch flags rel).bind
          (fun i => (rules ++ [rule])[i]?)
          = (rules.filter fun rule => p rule && rule.hits flags rel).getLast? := by
        rw [← ih]
        cases hlast : (makeView flags ((indexed rules).filter fun r => p r.2)).lastMatch flags rel with
        | none => rfl
        | some i =>
            rw [Option.bind_some, Option.bind_some, List.getElem?_append_left]
            exact hbelow.lastMatch rel i hlast
      rw [indexed_concat, filter_concat, filter_concat]
      by_cases hp : p rule = true
      · rw [if_pos hp, makeView_concat, View.lastMatch_add hbelow]
        by_cases hhit : rule.hits flags rel = true
        · rw [if_pos hhit, if_pos (by simp [hp, hhit]), Option.bind_some,
            List.getElem?_concat_length, List.getLast?_concat]
        · rw [if_neg hhit, if_neg (by simp [hhit]), List.append_nil, hold]
      · rw [if_neg hp, if_neg (by simp [hp]), List.append_nil, List.append_nil, hold]

def viewFor (flags : Flags) (rules : List Rule) (isDir : Bool) : View :=
  makeView flags ((indexed rules).filter fun r => isDir || !r.2.dirOnly)

theorem lastMatch_viewFor (rules : List Rule) (rel : List PyStr) (isDir : Bool) :
    ((viewFor flags rules isDir).lastMatch flags rel).bind (fun i => rules[i]?)
      = (rules.filter (·.applies flags rel isDir)).getLast? :=
  lastMatch_makeView (fun rule => isDir || !rule.dirOnly) rules rel

theorem viewFor_eq {rules : List Rule} {set : RuleSet} (h : makeRuleset flags rules = some set)
    (isDir : Bool) : (if isDir then set.dirs else set.files) = viewFor flags rules isDir := by
  unfold makeRuleset at h
  split at h
  next => cases h
  next =>
    cases h
    cases isDir with
    | true =>
        rw [if_pos rfl, viewFor]
        simp only [Bool.true_or, List.filter_true]
    | false =>
        rw [if_neg (by simp), viewFor]
        simp only [Bool.false_or]

/-- The verdict of a rule set is what the last rule that applies says. -/
theorem ruleVerdict_eq (rules : List Rule) (rel : List PyStr) (isDir : Bool) :
    ruleVerdict flags (makeRuleset flags rules) rel isDir = lastVerdict flags rules rel isDir := by
  unfold lastVerdict
  rw [← lastMatch_viewFor]
  cases hset : makeRuleset flags rules with
  | none =>
      have hnil : rules = [] := by
        unfold makeRuleset at hset
        split at hset
        next h => exact h
        next => cases hset
      subst hnil
      cases (viewFor flags [] isDir).lastMatch flags rel <;> rfl
  | some set =>
      have hnegates : set.negates = rules.map (·.negate) := by
        unfold makeRuleset at hset
        split at hset
        next => cases hset
        next =>
          cases hset
          rfl
      rw [ruleVerdict, Option.bind_some, viewFor_eq hset, hnegates]
      cases hlast : (viewFor flags rules isDir).lastMatch flags rel with
      | none => rfl
      | some i =>
          have hi : i < rules.length :=
            (makeView_below (fun rule => isDir || !rule.dirOnly) rules).lastMatch rel i hlast
          simp [List.getElem?_eq_getElem hi]

end Velune.Ignore
