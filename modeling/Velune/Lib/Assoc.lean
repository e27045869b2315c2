/-
Dictionaries as their entries in order: a value that is set takes the
place of the old one or stands at the end, and a popped one is gone.
Unlike `Dict` two of these can be compared and their keys listed.
-/
namespace Lib

abbrev Assoc (κ ν : Type) := List (κ × ν)

namespace Assoc

variable {κ ν : Type} [DecidableEq κ]

def get? : Assoc κ ν → κ → Option ν
  | [], _ => none
  | (k, v) :: rest, key => if k = key then some v else get? rest key

def set : Assoc κ ν → κ → ν → Assoc κ ν
  | [], key, value => [(key, value)]
  | (k, v) :: rest, key, value =>
      if k = key then (k, value) :: rest else (k, v) :: set rest key value

def pop : Assoc κ ν → κ → Assoc κ ν
  | [], _ => []
  | (k, v) :: rest, key => if k = key then pop rest key else (k, v) :: pop rest key

def keys (entries : Assoc κ ν) : List κ := entries.map (·.1)

theorem get?_set_self (entries : Assoc κ ν) (key : κ) (value : ν) :
    (entries.set key value).get? key = some value := by
  induction entries with
  | nil => exact if_pos rfl
  | cons e rest ih =>
      obtain ⟨k, v⟩ := e
      unfold set
      split
      next hk => exact if_pos hk
      next hk => exact (if_neg hk).trans ih

theorem get?_set_of_ne (entries : Assoc κ ν) {key other : κ} (value : ν) (h : other ≠ key) :
    (entries.set key value).get? other = entries.get? other := by
  induction entries with
  | nil => exact if_neg fun heq => h heq.symm
  | cons e rest ih =>
      obtain ⟨k, v⟩ := e
      unfold set
      split
      next hk =>
        have hother : k ≠ other := fun heq => h (heq.symm.trans hk)
        exact (if_neg hother).trans (if_neg hother).symm
      next hk =>
        unfold get?
        rw [ih]

theorem get?_pop_of_ne (entries : Assoc κ ν) {key other : κ} (h : other ≠ key) :
    (entries.pop key).get? other = entries.get? other := by
  induction entries with
  | nil => rfl
  | cons e rest ih =>
      obtain ⟨k, v⟩ := e
      unfold pop
      split
      next hk =>
        have hother : k ≠ other := fun heq => h (heq.symm.trans hk)
        exact ih.trans (if_neg hother).symm
      next hk =>
        unfold get?
        rw [ih]

theorem get?_pop_self (entries : Assoc κ ν) (key : κ) : (entries.pop key).get? key = none := by
  induction entries with
  | nil => rfl
  | cons e rest ih =>
      obtain ⟨k, v⟩ := e
      unfold pop
      split
      next hk => exact ih
      next hk => exact (if_neg hk).trans ih

variable {entries : Assoc κ ν}

theorem get?_set_cases {key k : κ} {value v : ν} (h : (entries.set key value).get? k = some v) :
    (k = key ∧ v = value) ∨ (k ≠ key ∧ entries.get? k = some v) := by
  rcases Decidable.em (k = key) with rfl | hne
  · rw [get?_set_self] at h
    exact Or.inl ⟨rfl, (Option.some.inj h).symm⟩
  · rw [get?_set_of_ne _ _ hne] at h
    exact Or.inr ⟨hne, h⟩

theorem set_same {key : κ} {value : ν} (h : entries.get? key = some value) :
    entries.set key value = entries := by
  induction entries with
  | nil => cases h
  | cons e rest ih =>
      obtain ⟨k, v⟩ := e
      unfold get? at h
      unfold set
      split at h
      next hk =>
        cases h
        exact if_pos hk
      next hk => rw [if_neg hk, ih h]

theorem mem_keys_iff (entries : Assoc κ ν) (key : κ) :
    key ∈ entries.keys ↔ ∃ value, entries.get? key = some value := by
  induction entries with
  | nil => exact iff_of_false List.not_mem_nil fun ⟨_, h⟩ => by cases h
  | cons e rest ih =>
      obtain ⟨k, v⟩ := e
      refine List.mem_cons.trans ?_
      unfold get?
      split
      next hk => exact iff_of_true (Or.inl hk.symm) ⟨v, rfl⟩
      next hk => exact (or_iff_right fun heq => hk heq.symm).trans ih

theorem keys_set_new {key : κ} (h : key ∉ entries.keys) (value : ν) :
    (entries.set key value).keys = entries.keys ++ [key] := by
  induction entries with
  | nil => rfl
  | cons e rest ih =>
      obtain ⟨k, v⟩ := e
      unfold set
      have hk : k ≠ key := fun hk => h (hk ▸ List.mem_cons_self ..)
      rw [if_neg hk]
      exact congrArg (k :: ·) (ih fun hmem => h (List.mem_cons_of_mem k hmem))

theorem keys_set_old {key : κ} (h : key ∈ entries.keys) (value : ν) :
    (entries.set key value).keys = entries.keys := by
  induction entries with
  | nil => exact (List.not_mem_nil h).elim
  | cons e rest ih =>
      obtain ⟨k, v⟩ := e
      unfold set
      split
      next hk => rfl
      next hk =>
        have hrest := (List.mem_cons.1 h).resolve_left fun heq => hk heq.symm
        exact congrArg (k :: ·) (ih hrest)

theorem set_new {key : κ} (h : entries.get? key = none) (value : ν) :
    entries.set key value = entries ++ [(key, value)] := by
  induction entries with
  | nil => rfl
  | cons e rest ih =>
      obtain ⟨k, v⟩ := e
      unfold get? at h
      unfold set
      split at h
      next => cases h
      next hk =>
        rw [if_neg hk, ih h]
        rfl

theorem pop_set_new {key : κ} (h : entries.get? key = none) (value : ν) :
    (entries.set key value).pop key = entries := by
  induction entries with
  | nil => exact if_pos rfl
  | cons e rest ih =>
      obtain ⟨k, v⟩ := e
      unfold get? at h
      unfold set
      split at h
      next => cases h
      next hk =>
        rw [if_neg hk]
        unfold pop
        rw [if_neg hk, ih h]

theorem mem_of_get? {key : κ} {value : ν} (h : entries.get? key = some value) :
    (key, value) ∈ entries := by
  induction entries with
  | nil => cases h
  | cons e rest ih =>
      obtain ⟨k, v⟩ := e
      unfold get? at h
      split at h
      next hk =>
        cases h
        exact hk ▸ List.mem_cons_self ..
      next => exact List.mem_cons_of_mem _ (ih h)

theorem get?_eq_some_iff (h : entries.keys.Nodup) {key : κ} {value : ν} :
    entries.get? key = some value ↔ (key, value) ∈ entries := by
  induction entries with
  | nil => exact iff_of_false (fun hget => by cases hget) List.not_mem_nil
  | cons e rest ih =>
      obtain ⟨k, v⟩ := e
      obtain ⟨hnew, hrest⟩ := List.nodup_cons.1 h
      rw [List.mem_cons]
      unfold get?
      split
      next hk =>
        subst hk
        refine ⟨fun hget => Or.inl (by rw [Option.some.inj hget]), fun hmem => ?_⟩
        rcases hmem with heq | hmem
        · rw [(Prod.mk.inj heq).2]
        · exact (hnew (List.mem_map_of_mem (f := (·.1)) hmem)).elim
      next hk =>
        rw [ih hrest]
        refine ⟨Or.inr, fun hmem => hmem.resolve_left fun heq => hk (Prod.mk.inj heq).1.symm⟩

theorem mem_keys_set (entries : Assoc κ ν) (key k : κ) (value : ν) :
    k ∈ (entries.set key value).keys ↔ k = key ∨ k ∈ entries.keys := by
  induction entries with
  | nil => exact List.mem_cons
  | cons e rest ih =>
      obtain ⟨j, w⟩ := e
      unfold set
      split
      next hj =>
        subst hj
        exact ⟨Or.inr, fun h => h.elim (fun heq => heq ▸ List.mem_cons_self ..) id⟩
      next hj =>
        refine List.mem_cons.trans ((or_congr_right ih).trans ?_)
        refine or_left_comm.trans (or_congr_right ?_)
        exact List.mem_cons.symm

theorem mem_keys_foldl_set (k : κ) : ∀ (new : List (κ × ν)) (entries : Assoc κ ν),
    k ∈ (new.foldl (fun found e => found.set e.1 e.2) entries).keys
      ↔ k ∈ entries.keys ∨ k ∈ new.map (·.1) := by
  intro new
  induction new with
  | nil => exact fun entries => (or_iff_left List.not_mem_nil).symm
  | cons e rest ih =>
      intro entries
      rw [List.foldl_cons, ih, mem_keys_set, List.map_cons, List.mem_cons, or_comm (a := k = e.1),
        or_assoc]

theorem keys_set (h : entries.keys.Nodup) (key : κ) (value : ν) :
    (entries.set key value).keys.Nodup := by
  induction entries with
  | nil => exact List.nodup_cons.2 ⟨List.not_mem_nil, List.nodup_nil⟩
  | cons e rest ih =>
      obtain ⟨k, v⟩ := e
      obtain ⟨hnew, hrest⟩ := List.nodup_cons.1 h
      unfold set
      split
      next hk => exact h
      next hk =>
        refine List.nodup_cons.2 ⟨fun hmem => ?_, ih hrest⟩
        exact ((mem_keys_set rest key k value).1 hmem).elim hk hnew

theorem get?_eq_none_iff (entries : Assoc κ ν) (key : κ) :
    entries.get? key = none ↔ key ∉ entries.keys := by
  rw [mem_keys_iff, Option.eq_none_iff_forall_ne_some, not_exists]

/-- Keys that are all new, set one after another, stand behind what there
is. -/
theorem foldl_set_new : ∀ {new : List (κ × ν)} {entries : Assoc κ ν},
    (entries.keys ++ new.map (·.1)).Nodup →
      new.foldl (fun found e => found.set e.1 e.2) entries = entries ++ new := by
  intro new
  induction new with
  | nil =>
      intro entries _
      exact (List.append_nil entries).symm
  | cons e rest ih =>
      intro entries h
      have hnew : e.1 ∉ entries.keys := fun hmem =>
        (List.nodup_append.1 h).2.2 e.1 hmem e.1 (List.mem_cons_self ..) rfl
      have hkeys : ((entries ++ [e]).keys ++ rest.map (·.1)).Nodup := by
        unfold keys at h ⊢
        rw [List.map_append, List.append_assoc]
        exact h
      rw [List.foldl_cons, set_new ((get?_eq_none_iff entries e.1).2 hnew) e.2]
      show rest.foldl _ (entries ++ [e]) = _
      rw [ih hkeys, List.append_assoc, List.singleton_append]

section Update

variable {β : Type} (key : β → κ) (f : Option ν → β → ν)

def updates (xs : List β) (entries : Assoc κ ν) : Assoc κ ν :=
  xs.foldl (fun found x => found.set (key x) (f (found.get? (key x)) x)) entries

/-- A value is what the updates at its key make of it, one after another. -/
theorem get?_updates (k : κ) : ∀ (xs : List β) (entries : Assoc κ ν),
    (updates key f xs entries).get? k
      = (xs.filter fun x => key x = k).foldl (fun found x => some (f found x)) (entries.get? k) := by
  intro xs
  induction xs with
  | nil => exact fun entries => rfl
  | cons x rest ih =>
      intro entries
      show (updates key f rest (entries.set (key x) (f (entries.get? (key x)) x))).get? k = _
      rw [ih]
      by_cases hk : key x = k
      · subst hk
        rw [List.filter_cons, if_pos (decide_eq_true rfl), get?_set_self]
        rfl
      · rw [List.filter_cons_of_neg (by simpa using hk), get?_set_of_ne _ _ fun heq => hk heq.symm]

theorem keys_updates (xs : List β) : ∀ {entries : Assoc κ ν}, entries.keys.Nodup →
    (updates key f xs entries).keys.Nodup := by
  induction xs with
  | nil => exact fun h => h
  | cons x rest ih => exact fun h => ih (keys_set h _ _)

end Update

theorem keys_pop (entries : Assoc κ ν) (key : κ) :
    (entries.pop key).keys.Sublist entries.keys := by
  induction entries with
  | nil => exact List.Sublist.refl _
  | cons e rest ih =>
      obtain ⟨k, v⟩ := e
      unfold pop
      split
      next hk => exact ih.cons k
      next hk => exact ih.cons_cons k

end Assoc

end Lib
