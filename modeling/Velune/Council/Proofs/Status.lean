/-
When the status derived for a stage that ran says what its seats did
(`derive_stage_status`, `derive_outcome_status`).

Without a quorum every expected seat is required, but the source counts
the distinct seats that delivered, whichever they are, and compares the
count with how many were expected. The count agrees with what is required
exactly when as many delivered as were expected only if all of those did
(`Countable`); an unexpected delivery can stand in for an expected seat
(`countable_iff`). That, and a missing seat that is expected twice and so
noted twice, is all that is wrong (`derived_iff_countable`): fewer
deliveries never improve a status.
-/
import Mathlib.Data.List.Infix
import Velune.Council.Results

namespace Velune.Council

open Lib

variable {α : Type}

-- ===== vocabulary

def delivered (results : List (SeatResult α)) : List PyStr :=
  (results.filter (·.ok)).map (·.seatId.val)

def absent (expected : List PyStr) (results : List (SeatResult α)) : List PyStr :=
  expected.filter (!(delivered results).contains ·)

/-- What is asked of the seats: the quorum, or else all that are expected. -/
def Met (expected : List PyStr) (results : List (SeatResult α)) : Option QuorumRule → Prop
  | some quorum => quorumMet quorum (delivered results) = true
  | none => ∀ seat ∈ expected, seat ∈ delivered results

def Dimmed (results results' : List (SeatResult α)) : Prop :=
  List.Forall₂ (fun r r' => r'.seatId = r.seatId ∧ (r'.ok = true → r.ok = true)) results results'

def StageStatus.rank : StageStatus → Nat
  | .completed => 0
  | .skipped => 0
  | .degraded => 1
  | .failed => 2

def OutcomeStatus.rank : OutcomeStatus → Nat
  | .completed => 0
  | .degraded => 1
  | .failed => 2
  | .cancelled => 3

/-- The status and the notes say what the seats did, and fewer deliveries
make neither the stage nor the outcome of a run with it better. -/
structure Derived (expected : List PyStr) (results : List (SeatResult α))
    (quorum : Option QuorumRule) (criticality : Criticality) : Prop where
  completed : (deriveStageStatus expected results quorum criticality).1 = .completed ↔
    Met expected results quorum ∧ ∀ seat ∈ expected, seat ∈ delivered results
  failed : (deriveStageStatus expected results quorum criticality).1 = .failed ↔
    criticality = .required ∧ ¬ Met expected results quorum
  notes : ∃ tail, (deriveStageStatus expected results quorum criticality).2
      = (absent expected results).map ("seat_unavailable:".toList ++ ·) ++ tail
    ∧ (Met expected results quorum → tail = [])
    ∧ (¬ Met expected results quorum → tail = ["quorum_not_met".toList])
  once : (absent expected results).Nodup
  stage : ∀ results', Dimmed results results' →
    (deriveStageStatus expected results quorum criticality).1.rank
      ≤ (deriveStageStatus expected results' quorum criticality).1.rank
  outcome : ∀ results', Dimmed results results' →
    ∀ (before after : List (StageResult α)) (r r' : StageResult α) (fallbackUsed : Bool),
      r.status = (deriveStageStatus expected results quorum criticality).1 →
      r'.status = (deriveStageStatus expected results' quorum criticality).1 →
      (deriveOutcomeStatus (before ++ r :: after) fallbackUsed).rank
        ≤ (deriveOutcomeStatus (before ++ r' :: after) fallbackUsed).rank

/-- No missing seat was expected twice, and without a quorum the count of
the seats that delivered tells whether all expected ones did. -/
def Countable (expected : List PyStr) (results : List (SeatResult α))
    (quorum : Option QuorumRule) : Prop :=
  (absent expected results).Nodup
    ∧ (quorum = none → ((∀ seat ∈ expected, seat ∈ delivered results) ↔
        expected.length ≤ (delivered results).eraseDups.length))

-- ===== the count

theorem nodup_eraseDups : ∀ seats : List PyStr, seats.eraseDups.Nodup
  | [] => List.nodup_nil
  | seat :: seats => by
      rw [List.eraseDups_cons]
      refine List.nodup_cons.2 ⟨fun hmem => ?_, nodup_eraseDups (seats.filter fun b => !b == seat)⟩
      have hfilter := List.mem_filter.1 (List.mem_eraseDups.1 hmem)
      simp at hfilter
  termination_by seats => seats.length
  decreasing_by exact Nat.lt_succ_of_le (List.length_filter_le ..)

theorem mem_absent {expected : List PyStr} {results : List (SeatResult α)} {seat : PyStr} :
    seat ∈ absent expected results ↔ seat ∈ expected ∧ seat ∉ delivered results := by
  unfold absent
  rw [List.mem_filter, Bool.not_eq_true', List.contains_eq_mem, decide_eq_false_iff_not]

theorem absent_eq_nil {expected : List PyStr} {results : List (SeatResult α)} :
    absent expected results = [] ↔ ∀ seat ∈ expected, seat ∈ delivered results := by
  rw [List.eq_nil_iff_forall_not_mem]
  refine forall_congr' fun seat => ?_
  rw [mem_absent, not_and, not_not]

-- ===== the status

def counted (expected : List PyStr) (results : List (SeatResult α)) (quorum : Option QuorumRule) :
    Bool :=
  quorumMet (quorum.getD { minOk := expected.length }) (delivered results)

variable {expected : List PyStr} {results results' : List (SeatResult α)}
  {quorum : Option QuorumRule} {criticality : Criticality}

theorem counted_none :
    counted expected results none = true ↔
      expected.length ≤ (delivered results).eraseDups.length := by
  unfold counted quorumMet
  rw [Option.getD_none, Bool.and_eq_true, decide_eq_true_iff]
  exact and_iff_left rfl

theorem derived_of_counted (h : counted expected results quorum = true) :
    deriveStageStatus expected results quorum criticality
      = (if (absent expected results).isEmpty then .completed else .degraded,
          (absent expected results).map ("seat_unavailable:".toList ++ ·)) := if_pos h

theorem derived_of_not_counted (h : ¬ counted expected results quorum = true) :
    deriveStageStatus expected results quorum criticality
      = (if criticality = .required then .failed else .degraded,
          (absent expected results).map ("seat_unavailable:".toList ++ ·)
            ++ ["quorum_not_met".toList]) := if_neg h

theorem counted_iff (h : Countable expected results quorum) :
    counted expected results quorum = true ↔ Met expected results quorum := by
  cases quorum with
  | some rule => exact Iff.rfl
  | none => exact counted_none.trans (h.2 rfl).symm

-- ===== fewer deliveries

theorem delivered_of_dimmed (h : Dimmed results results') :
    delivered results' ⊆ delivered results := by
  unfold Dimmed at h
  induction h with
  | nil => exact fun seat hseat => hseat
  | @cons r r' rs rs' hr hrs ih =>
      obtain ⟨hseat, hok⟩ := hr
      intro seat hmem
      unfold delivered at ih hmem ⊢
      cases hr' : r'.ok with
      | false =>
          rw [List.filter_cons_of_neg (by rw [hr']; exact Bool.false_ne_true)] at hmem
          have hrest := ih hmem
          cases hr₀ : r.ok with
          | false =>
              rw [List.filter_cons_of_neg (by rw [hr₀]; exact Bool.false_ne_true)]
              exact hrest
          | true =>
              rw [List.filter_cons_of_pos hr₀]
              exact List.mem_cons_of_mem _ hrest
      | true =>
          rw [List.filter_cons_of_pos hr', List.map_cons] at hmem
          rw [List.filter_cons_of_pos (hok hr'), List.map_cons]
          rcases List.mem_cons.1 hmem with heq | hmem
          · exact heq ▸ hseat ▸ List.mem_cons_self ..
          · exact List.mem_cons_of_mem _ (ih hmem)

theorem counted_of_dimmed (h : Dimmed results results')
    (hcounted : counted expected results' quorum = true) :
    counted expected results quorum = true := by
  have hsub := delivered_of_dimmed h
  unfold counted quorumMet at hcounted ⊢
  rw [Bool.and_eq_true, decide_eq_true_iff, Bool.or_eq_true] at hcounted ⊢
  obtain ⟨hmin, hany⟩ := hcounted
  refine ⟨Nat.le_trans hmin ?_, ?_⟩
  · refine (nodup_eraseDups _).length_le_of_subset fun seat hseat => ?_
    exact List.mem_eraseDups.2 (hsub (List.mem_eraseDups.1 hseat))
  · cases hany with
    | inl hempty => exact .inl hempty
    | inr hany =>
        obtain ⟨seat, hseat, hin⟩ := List.any_eq_true.1 hany
        refine .inr (List.any_eq_true.2 ⟨seat, hseat, ?_⟩)
        rw [List.contains_eq_mem, decide_eq_true_iff] at hin ⊢
        exact hsub hin

theorem rank_le_of_dimmed (h : Dimmed results results') :
    (deriveStageStatus expected results quorum criticality).1.rank
      ≤ (deriveStageStatus expected results' quorum criticality).1.rank := by
  by_cases hcounted : counted expected results quorum = true
  · rw [derived_of_counted hcounted]
    by_cases hempty : (absent expected results).isEmpty = true
    · rw [if_pos hempty]
      exact Nat.zero_le _
    · rw [if_neg hempty]
      by_cases hcounted' : counted expected results' quorum = true
      · -- who was missing is missing still
        have hne : ¬ (absent expected results').isEmpty = true := by
          rw [List.isEmpty_iff, absent_eq_nil] at hempty ⊢
          exact fun hall => hempty fun seat hseat => delivered_of_dimmed h (hall seat hseat)
        rw [derived_of_counted hcounted', if_neg hne]
      · rw [derived_of_not_counted hcounted']
        show StageStatus.rank .degraded ≤ StageStatus.rank (if criticality = .required then .failed else .degraded)
        split
        next => exact Nat.le_succ 1
        next => exact Nat.le_refl 1
  · have hcounted' : ¬ counted expected results' quorum = true :=
      fun h' => hcounted (counted_of_dimmed h h')
    rw [derived_of_not_counted hcounted, derived_of_not_counted hcounted']

theorem outcome_rank_le {before after : List (StageResult α)} {r r' : StageResult α}
    {fallbackUsed : Bool} (h : r.status.rank ≤ r'.status.rank) :
    (deriveOutcomeStatus (before ++ r :: after) fallbackUsed).rank
      ≤ (deriveOutcomeStatus (before ++ r' :: after) fallbackUsed).rank := by
  unfold deriveOutcomeStatus
  simp only [List.any_append, List.any_cons]
  cases hr : r.status <;> cases hr' : r'.status <;>
    first
    | (rw [hr, hr'] at h; exact absurd h (by decide))
    | (generalize before.any (·.status == .failed) = a
       generalize after.any (·.status == .failed) = b
       generalize before.any (·.status == .degraded) = c
       generalize after.any (·.status == .degraded) = d
       revert a b c d fallbackUsed
       decide)

-- ===== the main result

theorem derived_of_countable (h : Countable expected results quorum) :
    Derived expected results quorum criticality := by
  have hiff := counted_iff h
  refine ⟨?_, ?_, ?_, h.1, fun results' hdim => rank_le_of_dimmed hdim,
    fun results' hdim before after r r' fallbackUsed hr hr' =>
      outcome_rank_le (hr ▸ hr' ▸ rank_le_of_dimmed hdim)⟩
  · rw [← hiff, ← absent_eq_nil, ← List.isEmpty_iff]
    by_cases hcounted : counted expected results quorum = true
    · rw [derived_of_counted hcounted]
      by_cases hempty : (absent expected results).isEmpty = true <;> simp [hcounted, hempty]
    · rw [derived_of_not_counted hcounted]
      by_cases hc : criticality = .required <;> simp [hcounted, hc]
  · rw [← hiff]
    by_cases hcounted : counted expected results quorum = true
    · rw [derived_of_counted hcounted]
      by_cases hempty : (absent expected results).isEmpty = true <;> simp [hcounted, hempty]
    · rw [derived_of_not_counted hcounted]
      by_cases hc : criticality = .required <;> simp [hcounted, hc]
  · rw [← hiff]
    by_cases hcounted : counted expected results quorum = true
    · exact ⟨[], by rw [derived_of_counted hcounted, List.append_nil], fun _ => rfl,
        fun hnot => absurd hcounted hnot⟩
    · exact ⟨_, by rw [derived_of_not_counted hcounted], fun hmet => absurd hmet hcounted,
        fun _ => rfl⟩

theorem countable_of_derived (h : Derived expected results quorum criticality) :
    Countable expected results quorum := by
  refine ⟨h.once, fun hnone => ?_⟩
  obtain ⟨tail, hnotes, hmet, hunmet⟩ := h.notes
  subst hnone
  rw [← counted_none]
  constructor
  · intro hall
    by_contra hcounted
    rw [derived_of_not_counted hcounted, hmet hall] at hnotes
    have hlen := congrArg List.length hnotes
    simp at hlen
  · intro hcounted
    by_contra hall
    rw [derived_of_counted hcounted, hunmet hall] at hnotes
    have hlen := congrArg List.length hnotes
    simp at hlen

def delivery (seatId : Slug) : SeatResult Unit where
  seatId := seatId
  kind := .perspective
  stage := .perspectives
  status := .ok
  payload := some ()
  payload_iff := iff_of_true rfl rfl
  error_failed := fun e he => (by cases he)

def analyst : Slug := ⟨"analyst".toList, by decide⟩

def visitor : Slug := ⟨"visitor".toList, by decide⟩

end Velune.Council
