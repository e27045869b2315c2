/-
Compactions, over every order of the events of a manager.

The turns a compaction takes are the first of the working memory
(`Taken`), and while it waits turns are only added behind them. So
removing by equality is exact, equal turns or not: each of its turns is
found no later than where it is itself, and the pops stay in front of
what is kept (`pop_front`). This breaks when two compactions hold turns
at the same time, which the guard prevents for one session only: every
session's compaction takes the same turns (`overlap_loses`).
-/
import Velune.Memory.Proofs.Events

namespace Velune.Memory

open Lib

-- ===== removing

/-- Each index is at most the place it stands at, counted from `c`. -/
def Rises : Nat → List Nat → Prop
  | _, [] => True
  | c, i :: indices => i ≤ c ∧ Rises (c + 1) indices

/-- Each index is in range of a list of `n`, one shorter with each pop. -/
def Fits : Nat → List Nat → Prop
  | _, [] => True
  | n, i :: indices => i < n ∧ Fits (n - 1) indices

theorem fits_of_le {c : Nat} : ∀ {indices : List Nat} {n : Nat}, indices.length + c ≤ n →
    (∀ i ∈ indices, i ≤ c) → Fits n indices
  | [], _, _, _ => trivial
  | i :: indices, n, hn, hle => by
      rw [List.length_cons] at hn
      have hi := hle i (List.mem_cons_self ..)
      refine ⟨by omega, fits_of_le (c := c) (by omega) fun j hj => hle j (List.mem_cons_of_mem i hj)⟩

theorem fits_insert {c i : Nat} (hi : i ≤ c) : ∀ {indices : List Nat} {n : Nat},
    indices.length + 1 + c ≤ n → indices.Pairwise (· ≥ ·) → Fits n indices →
    Fits n (indices.orderedInsert (· ≥ ·) i)
  | [], n, hn, _, _ => by
      rw [List.length_nil] at hn
      exact ⟨by omega, trivial⟩
  | j :: indices, n, hn, hsorted, hfits => by
      rw [List.length_cons] at hn
      obtain ⟨hbelow, hrest⟩ := List.pairwise_cons.1 hsorted
      unfold List.orderedInsert
      split
      · rename_i hge
        -- the index is the greatest, so all of them are at most `c`
        refine ⟨by omega, fits_of_le (c := c) (by rw [List.length_cons]; omega) fun k hk => ?_⟩
        rcases List.mem_cons.1 hk with rfl | hk
        · exact Nat.le_trans hge hi
        · exact Nat.le_trans (hbelow k hk) (Nat.le_trans hge hi)
      · exact ⟨hfits.1, fits_insert hi (by omega) hrest hfits.2⟩

theorem fits_sorted : ∀ {indices : List Nat} {c n : Nat}, Rises c indices →
    indices.length + c ≤ n → Fits n (indices.insertionSort (· ≥ ·))
  | [], _, _, _, _ => trivial
  | i :: indices, c, n, hrises, hn => by
      rw [List.length_cons] at hn
      have hlength : (indices.insertionSort (· ≥ ·)).length + 1 + c ≤ n := by
        rw [List.length_insertionSort]
        exact hn
      exact fits_insert hrises.1 hlength (List.pairwise_insertionSort _ indices)
        (fits_sorted hrises.2 (by omega))

/-- As many pops as there are turns in front, each in range of them. -/
theorem pop_front {back : List Nat} : ∀ {indices front : List Nat},
    indices.length = front.length → Fits front.length indices →
    popAll indices (front ++ back) = (back, true)
  | [], front, hlength, _ => by
      rw [List.length_eq_zero_iff.1 hlength.symm]
      rfl
  | i :: indices, front, hlength, hfits => by
      rw [List.length_cons] at hlength
      have hi := hfits.1
      have hrange : i < (front ++ back).length := by
        rw [List.length_append]
        omega
      have hshort : (front.eraseIdx i).length = front.length - 1 := List.length_eraseIdx_of_lt hi
      rw [popAll, if_pos hrange, List.eraseIdx_append_of_lt_length hi]
      refine pop_front (by omega) ?_
      rw [hshort]
      exact hfits.2

section Replacing

variable {tier : WorkingMemoryTier}

theorem indices_rise {back : List Nat} : ∀ (front rest : List Nat),
    tier.turns = front ++ rest ++ back → Rises front.length (rest.filterMap (indexOf tier))
      ∧ (rest.filterMap (indexOf tier)).length = rest.length
  | _, [], _ => ⟨trivial, rfl⟩
  | front, turn :: rest, hturns => by
      have hthere : tier.turns[front.length]? = some turn := by
        rw [hturns, List.append_assoc, List.getElem?_append_right (Nat.le_refl _), Nat.sub_self]
        rfl
      obtain ⟨hlt, hat⟩ := List.getElem?_eq_some_iff.1 hthere
      have hfound : (indexOf tier turn).isSome = true := by
        unfold indexOf
        rw [List.findIdx?_isSome]
        exact List.any_eq_true.2 ⟨turn, List.mem_of_getElem? hthere, decide_eq_true rfl⟩
      obtain ⟨i, hindex⟩ := Option.isSome_iff_exists.1 hfound
      have hle : i ≤ front.length := by
        obtain ⟨_, hfirst⟩ := List.findIdx?_eq_some_iff_getElem.1 hindex
        refine Nat.le_of_not_lt fun hbefore => ?_
        have hnot := hfirst.2 front.length hbefore
        rw [hat] at hnot
        exact hnot (decide_eq_true rfl)
      have hnext : tier.turns = (front ++ [turn]) ++ rest ++ back := by
        rw [hturns, List.append_assoc front [turn] rest]
        rfl
      obtain ⟨hrises, hlength⟩ := indices_rise _ _ hnext
      rw [List.length_append, List.length_singleton] at hrises
      rw [List.filterMap_cons_some hindex, List.length_cons, List.length_cons, hlength]
      exact ⟨⟨hle, hrises⟩, rfl⟩

theorem replace_front {turns back : List Nat} (h : tier.turns = turns ++ back) (summary : PyStr)
    (timestamp : Int) : replaceTurnsWithSummary tier turns summary timestamp
      = ({ tier with turns := back }.addTurn "system".toList summary .compactionSummary none
        timestamp, true) := by
  obtain ⟨hrises, hlength⟩ := indices_rise [] turns h
  have hpop : popAll ((turns.filterMap (indexOf tier)).insertionSort (· ≥ ·)) tier.turns
      = (back, true) := by
    rw [h]
    refine pop_front ?_ (fits_sorted hrises ?_)
    · rw [List.length_insertionSort, hlength]
    · rw [hlength]
      exact Nat.le_refl _
  unfold replaceTurnsWithSummary
  dsimp only
  rw [hpop]
  rfl

end Replacing

-- ===== invariant

def Phase.holds : Phase → Bool
  | .summarising _ | .storing _ _ => true
  | _ => false

def Phase.taken : Phase → List Nat
  | .summarising turns | .storing turns _ => turns
  | _ => []

def Phase.compacted : Phase → List Nat
  | .succeeded turns => turns
  | _ => []

/-- No task holds turns when another takes some, nor when turns expire. -/
def Apart (event : Event) (w : World) : Prop :=
  match event with
  | .start _ => w.working.getTurns.length ≤ KEEP_LAST_N_TURNS
      ∨ ∀ task ∈ w.manager.tasks, task.phase.holds = false
  | .evict _ => ∀ task ∈ w.manager.tasks, task.phase.holds = false
  | _ => True

instance : (event : Event) → (w : World) → Decidable (Apart event w)
  | .start _, _ => inferInstanceAs (Decidable (_ ∨ _))
  | .evict _, _ => inferInstanceAs (Decidable (∀ task ∈ _, _))
  | .record _ _ _ _ _ _ _, _ | .summarised _ _, _ | .stored _ _ _, _ | .callback _, _ =>
      isTrue trivial

/-- One task at most holds turns, the first of the working memory; what
was replaced is gone, and was replaced once. -/
structure Kept (w : World) : Prop where
  sound : Sound w.working
  front : ∀ n, (w.manager.phaseAt n).holds = true →
    ∃ back, w.working.turns = (w.manager.phaseAt n).taken ++ back
  single : ∀ m n, (w.manager.phaseAt m).holds = true → (w.manager.phaseAt n).holds = true → m = n
  gone : ∀ i n, i ∈ (w.manager.phaseAt n).compacted → i < w.working.made ∧ i ∉ w.working.turns
  unique : ∀ i m n, i ∈ (w.manager.phaseAt m).compacted → i ∈ (w.manager.phaseAt n).compacted → m = n
  somewhere : ∀ i < w.working.made, i ∉ w.evicted →
    i ∈ w.working.turns ∨ ∃ n, i ∈ (w.manager.phaseAt n).compacted

section Keeping

variable {event : Event} {w w' : World} {m : Manager} {n : Nat}

theorem kept_new (ttlSeconds : Int) : Kept (.new ttlSeconds) :=
  ⟨Sound.new ttlSeconds, fun _ h => (Bool.false_ne_true h).elim,
    fun _ _ h => (Bool.false_ne_true h).elim, fun _ _ h => (List.not_mem_nil h).elim,
    fun _ _ _ h => (List.not_mem_nil h).elim, fun _ h => (Nat.not_lt_zero _ h).elim⟩

theorem none_holds (h : ∀ task ∈ w.manager.tasks, task.phase.holds = false) (n : Nat) :
    (w.manager.phaseAt n).holds = false := by
  unfold Manager.phaseAt
  cases ht : w.manager.tasks[n]? with
  | none => rfl
  | some task => exact h task (List.mem_of_getElem? ht)

theorem Kept.moveOn (h : Kept w) {phase : Phase} (hworking : m.working = w.working)
    (hphases : m.phaseAt = Function.update w.manager.phaseAt n phase)
    (hwas : (w.manager.phaseAt n).compacted = []) (hcompacted : phase.compacted = [])
    (hfront : phase.holds = true → (∀ k, k ≠ n → (w.manager.phaseAt k).holds = false)
      ∧ ∃ back, w.working.turns = phase.taken ++ back)
    (hevicted : (w.after event m).evicted = w.evicted) : Kept (w.after event m) := by
  have hself : m.phaseAt n = phase := by rw [hphases, Function.update_self]
  have hother : ∀ k, k ≠ n → m.phaseAt k = w.manager.phaseAt k := fun k hk => by
    rw [hphases, Function.update_of_ne hk]
  have hgone : ∀ i k, i ∈ (m.phaseAt k).compacted ↔ i ∈ (w.manager.phaseAt k).compacted := by
    intro i k
    by_cases hk : k = n
    · rw [hk, hself, hwas, hcompacted]
    · rw [hother k hk]
  have hsound : Sound m.working := by
    rw [hworking]
    exact h.sound
  refine ⟨hsound, fun k hk => ?_, fun j k hj hk => ?_, fun i k hi => ?_,
    fun i j k hj hk => h.unique i j k ((hgone i j).1 hj) ((hgone i k).1 hk), fun i hi hnot => ?_⟩
  · change ∃ back, m.working.turns = (m.phaseAt k).taken ++ back
    change (m.phaseAt k).holds = true at hk
    rw [hworking]
    by_cases heq : k = n
    · rw [heq, hself] at hk ⊢
      exact (hfront hk).2
    · rw [hother k heq] at hk ⊢
      exact h.front k hk
  · change (m.phaseAt j).holds = true at hj
    change (m.phaseAt k).holds = true at hk
    by_cases hjn : j = n
    · by_cases hkn : k = n
      · rw [hjn, hkn]
      · rw [hjn, hself] at hj
        rw [hother k hkn] at hk
        cases hk.symm.trans ((hfront hj).1 k hkn)
    · by_cases hkn : k = n
      · rw [hkn, hself] at hk
        rw [hother j hjn] at hj
        cases hj.symm.trans ((hfront hk).1 j hjn)
      · rw [hother j hjn] at hj
        rw [hother k hkn] at hk
        exact h.single j k hj hk
  · change i < m.working.made ∧ i ∉ m.working.turns
    rw [hworking]
    exact h.gone i k ((hgone i k).1 hi)
  · change i ∈ m.working.turns ∨ ∃ k, i ∈ (m.phaseAt k).compacted
    rw [hevicted] at hnot
    change i < m.working.made at hi
    rw [hworking] at hi ⊢
    exact (h.somewhere i hi hnot).imp_right fun ⟨k, hk⟩ => ⟨k, (hgone i k).2 hk⟩

theorem Kept.add (h : Kept w) (hsound : Sound m.working)
    (hturns : m.working.turns = w.working.turns ++ [w.working.made])
    (hmade : m.working.made = w.working.made + 1) (hphases : m.phaseAt = w.manager.phaseAt)
    (hevicted : (w.after event m).evicted = w.evicted) : Kept (w.after event m) := by
  refine ⟨hsound, fun k hk => ?_, fun j k hj hk => ?_, fun i k hi => ?_, fun i j k hj hk => ?_,
    fun i hi hnot => ?_⟩
  · change (m.phaseAt k).holds = true at hk
    change ∃ back, m.working.turns = (m.phaseAt k).taken ++ back
    rw [hphases] at hk ⊢
    obtain ⟨back, hback⟩ := h.front k hk
    exact ⟨back ++ [w.working.made], by rw [hturns, hback, List.append_assoc]⟩
  · change (m.phaseAt j).holds = true at hj
    change (m.phaseAt k).holds = true at hk
    rw [hphases] at hj hk
    exact h.single j k hj hk
  · change i ∈ (m.phaseAt k).compacted at hi
    change i < m.working.made ∧ i ∉ m.working.turns
    rw [hphases] at hi
    obtain ⟨hlt, hnot⟩ := h.gone i k hi
    rw [hmade, hturns]
    refine ⟨Nat.lt_succ_of_lt hlt, fun hmem => ?_⟩
    rcases List.mem_append.1 hmem with hold | hnew
    · exact hnot hold
    · exact Nat.ne_of_lt hlt (List.mem_singleton.1 hnew)
  · change i ∈ (m.phaseAt j).compacted at hj
    change i ∈ (m.phaseAt k).compacted at hk
    rw [hphases] at hj hk
    exact h.unique i j k hj hk
  · change i < m.working.made at hi
    change i ∈ m.working.turns ∨ ∃ k, i ∈ (m.phaseAt k).compacted
    rw [hevicted] at hnot
    rw [hmade] at hi
    rw [hturns, hphases]
    rcases Nat.lt_succ_iff_lt_or_eq.1 hi with hlt | heq
    · exact (h.somewhere i hlt hnot).imp_left fun hmem => List.mem_append_left _ hmem
    · exact Or.inl (List.mem_append_right _ (List.mem_singleton.2 heq))

theorem Kept.evict (h : Kept w) {now : Int} (hnone : ∀ k, (w.manager.phaseAt k).holds = false)
    (hworking : m.working = w.working.evictExpired now) (hphases : m.phaseAt = w.manager.phaseAt) :
    Kept (w.after (.evict now) m) := by
  have hfewer : m.working.turns.Sublist w.working.turns := by
    rw [hworking]
    exact List.filter_sublist
  have hsound : Sound m.working := by
    rw [hworking]
    exact h.sound.sublist List.filter_sublist
  have hmade : m.working.made = w.working.made := by
    rw [hworking]
    rfl
  refine ⟨hsound, fun k hk => ?_, fun j k hj hk => ?_, fun i k hi => ?_, fun i j k hj hk => ?_,
    fun i hi hnot => ?_⟩
  · change (m.phaseAt k).holds = true at hk
    rw [hphases] at hk
    cases hk.symm.trans (hnone k)
  · change (m.phaseAt j).holds = true at hj
    rw [hphases] at hj
    cases hj.symm.trans (hnone j)
  · change i ∈ (m.phaseAt k).compacted at hi
    change i < m.working.made ∧ i ∉ m.working.turns
    rw [hphases] at hi
    obtain ⟨hlt, hnot⟩ := h.gone i k hi
    rw [hmade]
    exact ⟨hlt, fun hmem => hnot (hfewer.subset hmem)⟩
  · change i ∈ (m.phaseAt j).compacted at hj
    change i ∈ (m.phaseAt k).compacted at hk
    rw [hphases] at hj hk
    exact h.unique i j k hj hk
  · change i < m.working.made at hi
    change i ∈ m.working.turns ∨ ∃ k, i ∈ (m.phaseAt k).compacted
    rw [hmade] at hi
    rw [hphases]
    obtain ⟨hold, hnew⟩ := not_or.1 fun hor => hnot (List.mem_append.2 hor)
    refine (h.somewhere i hi hold).imp_left fun hmem => ?_
    by_contra hgone
    exact hnew (List.mem_filter.2 ⟨hmem, decide_eq_true hgone⟩)

/-- Exactly the turns that were summarised go, and the summary comes. -/
structure Replaced (turns : List Nat) (summary : PyStr) (timestamp : Int)
    (tier tier' : WorkingMemoryTier) : Prop where
  were : ∀ i ∈ turns, i ∈ tier.turns
  left : tier'.turns = tier.turns.filter (· ∉ turns) ++ [tier.made]
  made : tier'.made = tier.made + 1
  summary : tier'.objects tier.made
    = ⟨"system".toList, summary, timestamp, .compactionSummary, tier.sessionId⟩
  others : ∀ i, i ≠ tier.made → tier'.objects i = tier.objects i

theorem replaced_front {tier : WorkingMemoryTier} (h : Sound tier) {turns back : List Nat}
    (hturns : tier.turns = turns ++ back) (summary : PyStr) (timestamp : Int) :
    Replaced turns summary timestamp tier
      (replaceTurnsWithSummary tier turns summary timestamp).1 := by
  rw [replace_front hturns]
  have hnodup : tier.turns.Nodup := h.sorted.imp Nat.ne_of_lt
  rw [hturns] at hnodup
  have hdisjoint := List.disjoint_of_nodup_append hnodup
  refine ⟨fun i hi => hturns ▸ List.mem_append_left _ hi, ?_, rfl, if_pos rfl, fun i hi => if_neg hi⟩
  have hfront : turns.filter (· ∉ turns) = [] :=
    List.filter_eq_nil_iff.2 fun i hi hnot => of_decide_eq_true hnot hi
  have hback : back.filter (· ∉ turns) = back :=
    List.filter_eq_self.2 fun i hi => decide_eq_true fun hmem => hdisjoint hmem hi
  rw [hturns, List.filter_append, hfront, hback]
  rfl

theorem Kept.replace (h : Kept w) {turns : List Nat} {text : PyStr} {timestamp : Int}
    (hwas : w.manager.phaseAt n = .storing turns text) (hsound : Sound m.working)
    (hreplaced : Replaced turns text timestamp w.working m.working)
    (hphases : m.phaseAt = Function.update w.manager.phaseAt n (.succeeded turns))
    (hevicted : (w.after event m).evicted = w.evicted) : Kept (w.after event m) := by
  have hself : m.phaseAt n = .succeeded turns := by rw [hphases, Function.update_self]
  have hother : ∀ k, k ≠ n → m.phaseAt k = w.manager.phaseAt k := fun k hk => by
    rw [hphases, Function.update_of_ne hk]
  have hheld : (w.manager.phaseAt n).holds = true := by rw [hwas]; rfl
  have hnone : ∀ k, (m.phaseAt k).holds = true → False := by
    intro k hk
    by_cases hkn : k = n
    · rw [hkn, hself] at hk
      cases hk
    · rw [hother k hkn] at hk
      exact hkn (h.single k n hk hheld)
  have hcompacted : ∀ i k, i ∈ (m.phaseAt k).compacted →
      k = n ∧ i ∈ turns ∨ k ≠ n ∧ i ∈ (w.manager.phaseAt k).compacted := by
    intro i k hi
    by_cases hkn : k = n
    · rw [hkn, hself] at hi
      exact Or.inl ⟨hkn, hi⟩
    · rw [hother k hkn] at hi
      exact Or.inr ⟨hkn, hi⟩
  refine ⟨hsound, fun k hk => (hnone k hk).elim, fun j k hj => (hnone j hj).elim,
    fun i k hi => ?_, fun i j k hj hk => ?_, fun i hi hnot => ?_⟩
  · change i < m.working.made ∧ i ∉ m.working.turns
    rw [hreplaced.made, hreplaced.left]
    have hold : i < w.working.made ∧ i ∉ w.working.turns.filter (· ∉ turns) := by
      rcases hcompacted i k hi with ⟨-, hmem⟩ | ⟨-, hmem⟩
      · exact ⟨h.sound.below i (hreplaced.were i hmem),
          fun hf => of_decide_eq_true (List.mem_filter.1 hf).2 hmem⟩
      · obtain ⟨hlt, hgone⟩ := h.gone i k hmem
        exact ⟨hlt, fun hf => hgone (List.mem_filter.1 hf).1⟩
    refine ⟨Nat.lt_succ_of_lt hold.1, fun hmem => ?_⟩
    rcases List.mem_append.1 hmem with hf | hnew
    · exact hold.2 hf
    · exact Nat.ne_of_lt hold.1 (List.mem_singleton.1 hnew)
  · rcases hcompacted i j hj with ⟨hjn, hmemj⟩ | ⟨-, hmemj⟩
    · rcases hcompacted i k hk with ⟨hkn, -⟩ | ⟨-, hmemk⟩
      · rw [hjn, hkn]
      · exact ((h.gone i k hmemk).2 (hreplaced.were i hmemj)).elim
    · rcases hcompacted i k hk with ⟨-, hmemk⟩ | ⟨-, hmemk⟩
      · exact ((h.gone i j hmemj).2 (hreplaced.were i hmemk)).elim
      · exact h.unique i j k hmemj hmemk
  · change i < m.working.made at hi
    change i ∈ m.working.turns ∨ ∃ k, i ∈ (m.phaseAt k).compacted
    rw [hevicted] at hnot
    rw [hreplaced.made] at hi
    rw [hreplaced.left]
    rcases Nat.lt_succ_iff_lt_or_eq.1 hi with hlt | heq
    · rcases h.somewhere i hlt hnot with hmem | ⟨k, hk⟩
      · by_cases htaken : i ∈ turns
        · exact Or.inr ⟨n, hself ▸ htaken⟩
        · exact Or.inl (List.mem_append_left _ (List.mem_filter.2 ⟨hmem, decide_eq_true htaken⟩))
      · have hkn : k ≠ n := by
          intro hkn
          rw [hkn, hwas] at hk
          exact List.not_mem_nil hk
        exact Or.inr ⟨k, by rw [hother k hkn]; exact hk⟩
    · exact Or.inl (List.mem_append_right _ (List.mem_singleton.2 heq))

/-- What one event does to the working memory: a recorded turn is added, a
compaction that fails leaves it as it was, and one that succeeds replaces
exactly the turns it holds. -/
def StepKept (event : Event) (w w' : World) : Prop :=
  match event with
  | .record _ _ _ _ _ _ _ => w'.working.turns = w.working.turns ++ [w.working.made]
  | .stored n _ timestamp =>
      (w'.manager.phaseAt n = .failed ∧ w'.working = w.working)
        ∨ ∃ turns summary, w.manager.phaseAt n = .storing turns summary
          ∧ w'.manager.phaseAt n = .succeeded turns
          ∧ Replaced turns summary timestamp w.working w'.working
  | .evict now => w'.working = w.working.evictExpired now
  | _ => w'.working = w.working

theorem kept_step (hapart : Apart event w) (h : Kept w) (hstep : World.step event w = some w') :
    Kept w' ∧ StepKept event w w' := by
  obtain ⟨m, hm, rfl⟩ := world_step hstep
  have hsound : Sound m.working := h.sound.moves hm
  cases hm with
  | record hworking hphases =>
      have hturns : m.working.turns = w.working.turns ++ [w.working.made] :=
        hworking ▸ record_turns
      exact ⟨h.add hsound hturns (hworking ▸ record_made) hphases rfl, hturns⟩
  | short _ hworking hwas hphases =>
      refine ⟨h.moveOn hworking hphases ?_ rfl (fun hk => (Bool.false_ne_true hk).elim) rfl, hworking⟩
      rw [hwas]
      rfl
  | took hlong hworking hwas hphases =>
      refine ⟨h.moveOn hworking hphases ?_ rfl (fun _ => ⟨fun k _ => ?_, ?_⟩) rfl, hworking⟩
      · rw [hwas]
        rfl
      · exact none_holds (hapart.resolve_left (Nat.not_le_of_lt hlong)) k
      · -- `get_turns` returns the whole working memory
        refine ⟨w.working.turns.drop (w.working.turns.length - KEEP_LAST_N_TURNS), ?_⟩
        change w.working.turns = turnsToSummarize w.working ++ _
        unfold turnsToSummarize
        rw [h.sound.getTurns, List.take_append_drop]
  | refused hworking hwas hphases =>
      refine ⟨h.moveOn hworking hphases ?_ rfl (fun hk => (Bool.false_ne_true hk).elim) rfl, hworking⟩
      rw [hwas]
      rfl
  | @accepted n turns text hworking hwas hphases =>
      have hholds : (w.manager.phaseAt n).holds = true := by rw [hwas]; rfl
      refine ⟨h.moveOn hworking hphases ?_ rfl (fun _ => ⟨fun k hk => ?_, ?_⟩) rfl, hworking⟩
      · rw [hwas]
        rfl
      · by_contra hother
        exact hk (h.single k n (Bool.eq_true_of_not_eq_false hother) hholds)
      · obtain ⟨back, hback⟩ := h.front n hholds
        rw [hwas] at hback
        exact ⟨back, hback⟩
  | unstored hworking hwas hphases =>
      refine ⟨h.moveOn hworking hphases ?_ rfl (fun hk => (Bool.false_ne_true hk).elim) rfl,
        Or.inl ⟨?_, hworking⟩⟩
      · rw [hwas]
        rfl
      · change m.phaseAt _ = _
        rw [hphases, Function.update_self]
  | @replaced n turns text timestamp hworking hwas hphases =>
      have hholds : (w.manager.phaseAt n).holds = true := by rw [hwas]; rfl
      obtain ⟨back, hback⟩ := h.front n hholds
      rw [hwas] at hback
      have hreplaced : Replaced turns text timestamp w.working m.working := by
        rw [hworking]
        exact replaced_front h.sound hback text timestamp
      have hdone : (replaceTurnsWithSummary w.working turns text timestamp).2 = true := by
        rw [replace_front (show w.working.turns = turns ++ back from hback)]
      rw [if_pos hdone] at hphases
      refine ⟨h.replace hwas hsound hreplaced hphases rfl,
        Or.inr ⟨turns, text, hwas, ?_, hreplaced⟩⟩
      change m.phaseAt n = _
      rw [hphases, Function.update_self]
  | callback hworking hphases =>
      have hlast : w.manager.phaseAt w.manager.tasks.length = .scheduled := by
        unfold Manager.phaseAt
        rw [List.getElem?_eq_none (Nat.le_refl _)]
        rfl
      have hstays : m.phaseAt
          = Function.update w.manager.phaseAt w.manager.tasks.length .scheduled := by
        rw [hphases, ← hlast, Function.update_eq_self]
      refine ⟨h.moveOn hworking hstays ?_ rfl (fun hk => (Bool.false_ne_true hk).elim) rfl, hworking⟩
      rw [hlast]
      rfl
  | evict hworking hphases =>
      exact ⟨h.evict (none_holds hapart) hworking hphases, hworking⟩

end Keeping

-- ===== runs

/-- Every turn is in the working memory once, or was among the turns of
one successful compaction; no two tasks hold the same turn. -/
structure Conserved (w : World) : Prop where
  once : ∀ i < w.working.made, i ∉ w.evicted →
    (w.working.turns.count i = 1 ∧ ∀ n, i ∉ (w.manager.phaseAt n).compacted)
      ∨ (w.working.turns.count i = 0 ∧ ∃ n, i ∈ (w.manager.phaseAt n).compacted
        ∧ ∀ k, i ∈ (w.manager.phaseAt k).compacted → k = n)
  apart : ∀ m n i, i ∈ (w.manager.phaseAt m).taken → i ∈ (w.manager.phaseAt n).taken → m = n

theorem Kept.conserved {w : World} (h : Kept w) : Conserved w := by
  have hholds : ∀ n i, i ∈ (w.manager.phaseAt n).taken → (w.manager.phaseAt n).holds = true := by
    intro n i hi
    cases hphase : w.manager.phaseAt n with
    | summarising turns => rfl
    | storing turns summary => rfl
    | _ =>
        rw [hphase] at hi
        cases hi
  refine ⟨fun i hi hnot => ?_, fun m n i hm hn => h.single m n (hholds m i hm) (hholds n i hn)⟩
  have hnodup : w.working.turns.Nodup := h.sound.sorted.imp Nat.ne_of_lt
  rcases h.somewhere i hi hnot with hmem | ⟨n, hn⟩
  · exact Or.inl ⟨List.count_eq_one_of_mem hnodup hmem, fun n hn => (h.gone i n hn).2 hmem⟩
  · exact Or.inr ⟨List.count_eq_zero.2 (h.gone i n hn).2, n, hn, fun k hk => h.unique i k n hk hn⟩

/-- Compaction loses and repeats nothing in every history in which no task
holds turns when another takes some. -/
theorem compaction_conserves (ttlSeconds : Int) (es : List Event) (w : World)
    (hapart : Meets World.step Apart es (.new ttlSeconds))
    (hrun : run World.step es (.new ttlSeconds) = some w) :
    Conserved w ∧ ∀ before event after w₁ w₂, es = before ++ event :: after →
      run World.step before (.new ttlSeconds) = some w₁ → World.step event w₁ = some w₂ →
      StepKept event w₁ w₂ := by
  have hkept : ∀ (es : List Event) (w : World), Meets World.step Apart es (.new ttlSeconds) →
      run World.step es (.new ttlSeconds) = some w → Kept w := fun es w hapart hrun =>
    run_preserves_of (P := Kept) (fun _ _ _ hapart h hstep => (kept_step hapart h hstep).1) hapart
      (kept_new ttlSeconds) hrun
  refine ⟨(hkept es w hapart hrun).conserved, fun before event after w₁ w₂ hes hbefore hstep => ?_⟩
  subst hes
  exact (kept_step (meets_drop hapart hbefore).1
    (hkept before w₁ (meets_take hapart) hbefore) hstep).2

/-- A turn of 120 characters, recorded at one and the same time. -/
def longTurn (sessionId : String) : Event :=
  .record sessionId.toList "user".toList (List.replicate 120 'x') none none 0 (some 4)

def shortSummary : PyStr := List.replicate 100 'y'

/-- One session's compaction, and a turn that is recorded while it
waits. -/
def compactedRun : List Event :=
  List.replicate 13 (longTurn "s") ++ [.start 0, longTurn "s", .summarised 0 (some shortSummary),
    .stored 0 true 1, .callback 0]

theorem compactedRun_conserves : ∃ w, run World.step compactedRun (.new 7200) = some w
    ∧ w.working.turns = [3, 4, 5, 6, 7, 8, 9, 10, 11, 12, 13, 14] ∧ Conserved w := by
  have hturns : (run World.step compactedRun (.new 7200)).map (fun w => w.working.turns)
      = some [3, 4, 5, 6, 7, 8, 9, 10, 11, 12, 13, 14] := by decide +kernel
  obtain ⟨w, hw, hlist⟩ := Option.map_eq_some_iff.1 hturns
  exact ⟨w, hw, hlist, (compaction_conserves 7200 compactedRun w (by decide +kernel) hw).1⟩

/-- Two sessions' compactions of the same turns, which other turns
equal. -/
def overlapRun : List Event :=
  List.replicate 12 (longTurn "s") ++ [longTurn "t", .start 0, .start 1,
    .summarised 0 (some shortSummary), .stored 0 true 1, .summarised 1 (some shortSummary),
    .stored 1 true 2]

theorem compacted_task {m : Manager} {i n : Nat} (h : i ∈ (m.phaseAt n).compacted) :
    ∃ task ∈ m.tasks, i ∈ task.phase.compacted := by
  unfold Manager.phaseAt at h
  cases ht : m.tasks[n]? with
  | none =>
      rw [ht] at h
      cases h
  | some task =>
      rw [ht] at h
      exact ⟨task, List.mem_of_getElem? ht, h⟩

/-- The second removes turns that no compaction has summarised. -/
theorem overlap_loses : ¬ ∀ w, run World.step overlapRun (.new 7200) = some w → Conserved w := by
  intro h
  have hlost : (run World.step overlapRun (.new 7200)).map (fun w => (decide (3 < w.working.made),
      decide (3 ∈ w.evicted), w.working.turns.count 3,
      w.manager.tasks.any fun task => decide (3 ∈ task.phase.compacted)))
      = some (true, false, 0, false) := by decide +kernel
  obtain ⟨w, hw, hfacts⟩ := Option.map_eq_some_iff.1 hlost
  obtain ⟨hmade, hrest⟩ := Prod.mk.inj hfacts
  obtain ⟨hevicted, hrest⟩ := Prod.mk.inj hrest
  obtain ⟨hcount, hnone⟩ := Prod.mk.inj hrest
  rcases (h w hw).once 3 (of_decide_eq_true hmade) (of_decide_eq_false hevicted) with
    ⟨hone, -⟩ | ⟨-, n, hn, -⟩
  · cases hcount.symm.trans hone
  · obtain ⟨task, htask, hmem⟩ := compacted_task hn
    exact List.any_eq_false.1 hnone task htask (decide_eq_true hmem)

end Velune.Memory
