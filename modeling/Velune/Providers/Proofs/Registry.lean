/-
When the registry serves the adapter it should.

A cached adapter is good while the revision of its key is the one it was
built at, and that tells of the keys that this process saves alone. So
`get` serves current keys, and the instances that are owned, while keys
change by nothing else (`registry_serves`).
-/
import Velune.Providers.Registry

namespace Velune.Providers

open Lib

-- ===== condition

/-- The adapter of a name was built at the current revision of its key. -/
def RegistryState.Current (s : RegistryState) (name : PyStr) : Prop :=
  s.providerKeyRevisions.get? name = some (s.keyRevision name)

/-- The events that leave the cached adapters good: no key of one changes
without its revision, and no revision of an owned instance that a factory
could replace changes without the key; and an instance is handed in under
a name that has no factory, or whose adapter is current. -/
structure Tracked (event : RegistryEvent) (s : RegistryState) : Prop where
  keyed : ∀ name key, s.providers.get? name = some (.keyed key) → s.Current name →
    (s.after event).keyRevision name = s.keyRevision name → (s.after event).key name = s.key name
  owned : ∀ name id, s.owned name = some id → hasFactory name = true →
    (s.after event).key name = s.key name → (s.after event).keyRevision name = s.keyRevision name
  register : ∀ name id, event = .register name id → canonicalProviderId name = name
    ∧ (hasFactory name = true → s.Current name)

structure Good (s : RegistryState) : Prop where
  keyed : ∀ name key, s.providers.get? name = some (.keyed key) →
    hasFactory name = true ∧ (s.Current name → key = s.key name)
  counted : ∀ name revision, s.providerKeyRevisions.get? name = some revision →
    revision ≤ s.keyRevision name
  owned : ∀ name id, s.owned name = some id → canonicalProviderId name = name
    ∧ s.providers.get? name = some (.handed id) ∧ (hasFactory name = true → s.Current name)

-- ===== steps

section Steps

variable {s s' : RegistryState} {event : RegistryEvent} {name : PyStr}

theorem since_owned {id : Nat} (h : (s'.since s).owned name = some id) :
    s'.key name = s.key name ∧ s'.owned name = some id := by
  change (if s'.key name = s.key name then s'.owned name else none) = some id at h
  split at h
  · rename_i hkey
    exact ⟨hkey, h⟩
  · cases h

theorem Good.since (h : Good s') : Good (s'.since s) where
  keyed := h.keyed
  counted := h.counted
  owned name id hid := h.owned name id (since_owned hid).2

theorem Good.keys (h : Good s) (htracked : Tracked event s)
    (hproviders : (s.after event).providers = s.providers)
    (hbuilt : (s.after event).providerKeyRevisions = s.providerKeyRevisions)
    (howned : (s.after event).owned = s.owned)
    (hgrows : ∀ name, s.keyRevision name ≤ (s.after event).keyRevision name) :
    Good ((s.after event).since s) where
  keyed name key hkeyed := by
    change (s.after event).providers.get? name = _ at hkeyed
    rw [hproviders] at hkeyed
    obtain ⟨hfactory, hcurrent⟩ := h.keyed name key hkeyed
    refine ⟨hfactory, fun hnow => ?_⟩
    have hrecorded : s.providerKeyRevisions.get? name = some ((s.after event).keyRevision name) := by
      rw [← hbuilt]
      exact hnow
    have hsame : (s.after event).keyRevision name = s.keyRevision name :=
      Nat.le_antisymm (h.counted name _ hrecorded) (hgrows name)
    have hbefore : s.Current name := by
      unfold RegistryState.Current
      rw [hrecorded, hsame]
    rw [hcurrent hbefore]
    exact (htracked.keyed name key hkeyed hbefore hsame).symm
  counted name revision hrevision := by
    change (s.after event).providerKeyRevisions.get? name = _ at hrevision
    rw [hbuilt] at hrevision
    exact Nat.le_trans (h.counted name revision hrevision) (hgrows name)
  owned name id hid := by
    obtain ⟨hkey, hid⟩ := since_owned hid
    rw [howned] at hid
    obtain ⟨hcanonical, hhanded, hcurrent⟩ := h.owned name id hid
    refine ⟨hcanonical, ?_, fun hfactory => ?_⟩
    · change (s.after event).providers.get? name = _
      rw [hproviders]
      exact hhanded
    · change (s.after event).providerKeyRevisions.get? name = some ((s.after event).keyRevision name)
      rw [hbuilt, htracked.owned name id hid hfactory hkey]
      exact hcurrent hfactory

theorem bump_grows (s : RegistryState) (name other : PyStr) :
    s.keyRevision other ≤ (s.bumpRevision name).keyRevision other := by
  change _ ≤ (((s.keyRevisions.set name (s.keyRevision name + 1)).get? other).getD 0)
  by_cases h : other = name
  · rw [h, Assoc.get?_set_self]
    exact Nat.le_succ _
  · rw [Assoc.get?_set_of_ne _ _ h]
    exact Nat.le_refl _

theorem Good.rebuild (h : Good s) (hnone : s.owned name = none) : Good (s.rebuild name).2 := by
  unfold RegistryState.rebuild
  split
  · rename_i hfactory
    refine ⟨fun other key hkeyed => ?_, fun other revision hrevision => ?_, fun other id hid => ?_⟩
    · by_cases hother : other = name
      · subst hother
        change (s.providers.set other (s.build other)).get? other = _ at hkeyed
        rw [Assoc.get?_set_self] at hkeyed
        refine ⟨hfactory, fun _ => ?_⟩
        unfold RegistryState.build at hkeyed
        split at hkeyed
        · cases hkeyed
          rfl
        · cases hkeyed
      · change (s.providers.set name (s.build name)).get? other = _ at hkeyed
        rw [Assoc.get?_set_of_ne _ _ hother] at hkeyed
        refine (h.keyed other key hkeyed).imp_right fun hcurrent hnow => hcurrent ?_
        exact (Assoc.get?_set_of_ne _ _ hother).symm.trans hnow
    · change (s.providerKeyRevisions.set name (s.keyRevision name)).get? other = _ at hrevision
      by_cases hother : other = name
      · subst hother
        rw [Assoc.get?_set_self] at hrevision
        cases hrevision
        exact Nat.le_refl _
      · rw [Assoc.get?_set_of_ne _ _ hother] at hrevision
        exact h.counted other revision hrevision
    · have hother : other ≠ name := by
        rintro rfl
        cases hnone.symm.trans hid
      obtain ⟨hcanonical, hhanded, hcurrent⟩ := h.owned other id hid
      refine ⟨hcanonical, (Assoc.get?_set_of_ne _ _ hother).trans hhanded, fun hfactory => ?_⟩
      exact (Assoc.get?_set_of_ne _ _ hother).trans (hcurrent hfactory)
  · exact h

theorem Good.pop (h : Good s) (hnone : s.owned name = none) :
    Good { s with providers := s.providers.pop name } where
  keyed other key hkeyed := by
    change (s.providers.pop name).get? other = _ at hkeyed
    by_cases hother : other = name
    · rw [hother, Assoc.get?_pop_self] at hkeyed
      cases hkeyed
    · rw [Assoc.get?_pop_of_ne _ hother] at hkeyed
      exact h.keyed other key hkeyed
  counted := h.counted
  owned other id hid := by
    have hother : other ≠ name := by
      rintro rfl
      cases hnone.symm.trans hid
    obtain ⟨hcanonical, hhanded, hcurrent⟩ := h.owned other id hid
    exact ⟨hcanonical, (Assoc.get?_pop_of_ne _ hother).trans hhanded, hcurrent⟩

/-- What `get` does: it returns what is cached, or builds for a name that
nobody owns. -/
theorem get_cases (h : Good s) (name : PyStr) :
    (∃ provider, s.providers.get? (canonicalProviderId name) = some provider
        ∧ s.get name = (some provider, s)
        ∧ (hasFactory (canonicalProviderId name) = true → s.Current (canonicalProviderId name)))
      ∨ s.owned (canonicalProviderId name) = none
        ∧ (s.get name = s.rebuild (canonicalProviderId name)
          ∨ s.get name = { s with providers := s.providers.pop (canonicalProviderId name) }.rebuild
            (canonicalProviderId name)) := by
  unfold RegistryState.get
  dsimp only
  cases hcached : s.providers.get? (canonicalProviderId name) with
  | none =>
      refine Or.inr ⟨?_, Or.inl rfl⟩
      refine Option.eq_none_iff_forall_ne_some.2 fun id hid => ?_
      cases hcached.symm.trans (h.owned _ id hid).2.1
  | some provider =>
      dsimp only
      split
      · rename_i hstale
        rw [Bool.and_eq_true, decide_eq_true_iff] at hstale
        refine Or.inr ⟨?_, Or.inr rfl⟩
        refine Option.eq_none_iff_forall_ne_some.2 fun id hid => ?_
        exact hstale.2 ((h.owned _ id hid).2.2 hstale.1)
      · rename_i hgood
        rw [Bool.and_eq_true, decide_eq_true_iff, not_and, not_not] at hgood
        exact Or.inl ⟨provider, rfl, rfl, hgood⟩

theorem Good.get (h : Good s) (name : PyStr) : Good (s.get name).2 := by
  rcases get_cases h name with ⟨provider, -, hget, -⟩ | ⟨hnone, hget | hget⟩
  · rw [hget]
    exact h
  · rw [hget]
    exact h.rebuild hnone
  · rw [hget]
    exact (h.pop hnone).rebuild hnone

theorem Good.register (h : Good s) {id : Nat} (hcanonical : canonicalProviderId name = name)
    (hcurrent : hasFactory name = true → s.Current name) :
    Good (s.after (.register name id)) where
  keyed other key hkeyed := by
    change (s.providers.set name (.handed id)).get? other = _ at hkeyed
    by_cases hother : other = name
    · rw [hother, Assoc.get?_set_self] at hkeyed
      cases hkeyed
    · rw [Assoc.get?_set_of_ne _ _ hother] at hkeyed
      exact h.keyed other key hkeyed
  counted := h.counted
  owned other instance' hid := by
    change s.owned.insert name id other = _ at hid
    change canonicalProviderId other = other
      ∧ (s.providers.set name (.handed id)).get? other = _ ∧ (hasFactory other = true → s.Current other)
    rcases Dict.insert_eq_some hid with ⟨rfl, rfl⟩ | ⟨hother, hid⟩
    · exact ⟨hcanonical, Assoc.get?_set_self _ _ _, hcurrent⟩
    · rw [Assoc.get?_set_of_ne _ _ hother]
      exact h.owned other instance' hid

theorem Good.invalidate (h : Good s) (name : Option PyStr) : Good (s.invalidate name) := by
  cases name with
  | none =>
      exact ⟨fun _ _ hkeyed => (by cases hkeyed), fun _ _ hrevision => (by cases hrevision),
        fun _ _ hid => (by cases hid)⟩
  | some name =>
      refine ⟨fun other key hkeyed => ?_, fun other revision hrevision => ?_, fun other id hid => ?_⟩
      · change (s.providers.pop name).get? other = _ at hkeyed
        by_cases hother : other = name
        · rw [hother, Assoc.get?_pop_self] at hkeyed
          cases hkeyed
        · rw [Assoc.get?_pop_of_ne _ hother] at hkeyed
          refine (h.keyed other key hkeyed).imp_right fun hcurrent hnow => hcurrent ?_
          exact (Assoc.get?_pop_of_ne _ hother).symm.trans hnow
      · change (s.providerKeyRevisions.pop name).get? other = _ at hrevision
        by_cases hother : other = name
        · rw [hother, Assoc.get?_pop_self] at hrevision
          cases hrevision
        · rw [Assoc.get?_pop_of_ne _ hother] at hrevision
          exact h.counted other revision hrevision
      · obtain ⟨hother, hid⟩ := Dict.erase_eq_some hid
        obtain ⟨hcanonical, hhanded, hcurrent⟩ := h.owned other id hid
        refine ⟨hcanonical, (Assoc.get?_pop_of_ne _ hother).trans hhanded, fun hfactory => ?_⟩
        exact (Assoc.get?_pop_of_ne _ hother).trans (hcurrent hfactory)

theorem step_good (htracked : Tracked event s) (h : Good s) (hstep : registryStep event s = some s') :
    Good s' := by
  cases hstep
  cases event with
  | get name => exact (h.get name).since
  | register name id =>
      obtain ⟨hcanonical, hcurrent⟩ := htracked.register name id rfl
      exact (h.register hcanonical hcurrent).since
  | invalidate name => exact (h.invalidate name).since
  | save name key status now stored =>
      exact h.keys htracked rfl rfl rfl fun other => bump_grows _ name other
  | delete name stored =>
      refine h.keys htracked ?_ ?_ ?_ fun other => ?_
      · simp only [RegistryState.after]
        split <;> rfl
      · simp only [RegistryState.after]
        split <;> rfl
      · simp only [RegistryState.after]
        split <;> rfl
      · simp only [RegistryState.after]
        split
        · exact bump_grows _ name other
        · exact Nat.le_refl _
  | updateStatus name status now extra stored =>
      refine h.keys htracked ?_ ?_ ?_ fun other => ?_
      · simp only [RegistryState.after]
        split <;> rfl
      · simp only [RegistryState.after]
        split <;> rfl
      · simp only [RegistryState.after]
        split <;> rfl
      · simp only [RegistryState.after]
        split <;> exact Nat.le_refl _
  | foreign stored => exact h.keys htracked rfl rfl rfl fun _ => Nat.le_refl _
  | environ env => exact h.keys htracked rfl rfl rfl fun _ => Nat.le_refl _

end Steps

-- ===== claim

/-- What `get` returns: an adapter with the key in effect, if a factory
built it with one, and the instance that is owned under the name. -/
def Serves : RegistryEvent → RegistryState → Prop
  | .get name, s =>
      (∀ key, (s.get name).1 = some (.keyed key) → key = (s.get name).2.key (canonicalProviderId name))
        ∧ ∀ id, s.owned name = some id → (s.get name).1 = some (.handed id)
  | _, _ => True

theorem rebuild_key {s : RegistryState} {name : PyStr} {key : Option Value}
    (h : (s.rebuild name).1 = some (.keyed key)) : key = (s.rebuild name).2.key name := by
  unfold RegistryState.rebuild at h ⊢
  split
  · rename_i hfactory
    rw [if_pos hfactory] at h
    have hbuild : s.build name = .keyed key := Option.some.inj h
    unfold RegistryState.build at hbuild
    split at hbuild
    · cases hbuild
      rfl
    · cases hbuild
  · rename_i hfactory
    rw [if_neg hfactory] at h
    cases h

theorem good_serves {s : RegistryState} (h : Good s) (name : PyStr) : Serves (.get name) s := by
  rcases get_cases h name with ⟨provider, hcached, hget, hcurrent⟩ | ⟨hnone, hget⟩
  · refine ⟨fun key hkey => ?_, fun id hid => ?_⟩
    · rw [hget] at hkey ⊢
      cases hkey
      obtain ⟨hfactory, hnow⟩ := h.keyed _ key hcached
      exact hnow (hcurrent hfactory)
    · obtain ⟨hcanonical, hhanded, -⟩ := h.owned name id hid
      rw [hcanonical, hhanded] at hcached
      rw [hget]
      exact hcached.symm
  · refine ⟨fun key hkey => ?_, fun id hid => ?_⟩
    · rcases hget with hget | hget
      · rw [hget] at hkey ⊢
        exact rebuild_key hkey
      · rw [hget] at hkey ⊢
        exact rebuild_key hkey
    · obtain ⟨hcanonical, -⟩ := h.owned name id hid
      rw [hcanonical, hid] at hnone
      cases hnone

def started (served : Table) (env : Environ) : RegistryState := ⟨served, env, [], [], [], Dict.empty⟩

/-- Over any events that are tracked, `get` returns what it should. -/
theorem registry_serves (served : Table) (env : Environ) {events : List RegistryEvent}
    (htracked : Meets registryStep Tracked events (started served env)) :
    Meets registryStep Serves events (started served env) := by
  have hgood : Good (started served env) :=
    ⟨fun _ _ h => (by cases h), fun _ _ h => (by cases h), fun _ _ h => (by cases h)⟩
  refine (htracked.and_kept (fun _ _ _ htracked h hstep => step_good htracked h hstep) hgood).mono ?_
  intro event s h
  cases event with
  | get name => exact good_serves h.2 name
  | _ => exact trivial

theorem get_state (s : RegistryState) (name : PyStr) :
    (s.get name).2.key = s.key ∧ (s.get name).2.keyRevision = s.keyRevision := by
  have hrebuild : ∀ s : RegistryState, ∀ name, (s.rebuild name).2.key = s.key
      ∧ (s.rebuild name).2.keyRevision = s.keyRevision := by
    intro s name
    unfold RegistryState.rebuild
    split <;> exact ⟨rfl, rfl⟩
  unfold RegistryState.get
  dsimp only
  split
  · split
    · exact hrebuild _ _
    · exact ⟨rfl, rfl⟩
  · exact hrebuild _ _

theorem get_tracked (s : RegistryState) (name : PyStr) : Tracked (.get name) s where
  keyed other _ _ _ _ := congrFun (get_state s name).1 other
  owned other _ _ _ _ := congrFun (get_state s name).2 other
  register _ _ h := by cases h

theorem save_tracked {s : RegistryState} {name key status now : PyStr} {stored : Table}
    (hstored : stored = s.served) (hfree : s.owned name = none) :
    Tracked (.save name key status now stored) s where
  keyed other _ _ _ hsame := by
    by_cases hother : other = name
    · subst hother
      change ((s.keyRevisions.set other (s.keyRevision other + 1)).get? other).getD 0 = _ at hsame
      rw [Assoc.get?_set_self] at hsame
      exact (Nat.succ_ne_self _ hsame).elim
    · rw [hstored]
      change s.env.getKey (Assoc.set s.served name _) other = s.env.getKey s.served other
      unfold Environ.getKey storedKey
      rw [Assoc.get?_set_of_ne _ _ hother]
  owned other id hid _ _ := by
    have hother : other ≠ name := by
      rintro rfl
      cases hfree.symm.trans hid
    change ((s.keyRevisions.set name (s.keyRevision name + 1)).get? other).getD 0 = _
    rw [Assoc.get?_set_of_ne _ _ hother]
    rfl
  register _ _ h := by cases h

def groq : PyStr := "groq".toList

def oneKey (key : String) : Table := [(groq, [("key".toList, .str key.toList)])]

def bareEnviron : Environ := ⟨fun _ => none, false⟩

/-- A key is saved between two calls of `get`. -/
theorem save_serves : Meets registryStep Serves
    [.get groq, .save groq "sk-2".toList STATUS_VERIFIED [] (oneKey "sk-1"), .get groq]
    (started (oneKey "sk-1") bareEnviron) := by
  refine registry_serves _ _ ⟨get_tracked _ _, fun s hs => ?_⟩
  cases hs
  exact ⟨save_tracked rfl (by decide), fun s _ => ⟨get_tracked s groq, fun _ _ => trivial⟩⟩

/-- Another process saves a key between two calls of `get`; and an instance
is handed in under a name that has a factory. -/
theorem stale_served : (¬ Meets registryStep Serves
      [.get groq, .foreign (oneKey "sk-2"), .get groq] (started (oneKey "sk-1") bareEnviron))
    ∧ ¬ Meets registryStep Serves [.register groq 7, .get groq]
      (started (oneKey "sk-1") bareEnviron) := by
  refine ⟨fun h => ?_, fun h => ?_⟩
  · have hkey := ((h.2 _ rfl).2 _ rfl).1.1 (some (.str "sk-1".toList)) (by decide)
    revert hkey
    decide
  · have hinstance := (h.2 _ rfl).1.2 7 (by decide)
    revert hinstance
    decide

end Velune.Providers
