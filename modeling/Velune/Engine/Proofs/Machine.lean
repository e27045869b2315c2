/-
What holds of every run of the state machine.

# The invariant

`RunRecord.Lawful` is the law a caller may rely on: the trail is a path
of the transition table from PLAN to the current phase, `attempt` counts
the RETRY entries, every recorded artifact sits where the trail really
was, and the derived fields agree with the phase. It is strictly more
than the model validator checks, and it is not inductive by itself: the
length bound needs `depth`, the exact position of a working phase inside
its attempt (four entries an attempt: EXECUTE, OBSERVE, REFLECT, RETRY).

# One push

`advance`, `fail` and `cancel` all do the same thing to the record: they
push a phase onto the trail. `Inv.push` is the single preservation
argument for the three; `Inv.record` is the one for `record_artifact`.
Both also yield `Consistent`, which is why the re-validation inside
`_evolve` never fails here.
-/
import Mathlib.Data.List.Chain
import Velune.Engine.Machine
import Velune.Lib.Runs

namespace Velune.Engine

open Lib

-- ===== the invariant

/-- The trail was in `phase` while the run was on attempt `attempt`: the
attempt number is read off the RETRY entries up to that point. -/
def Occurred (trail : List RunPhase) (phase : RunPhase) (attempt : Nat) : Prop :=
  ∃ pre post, trail = pre ++ phase :: post ∧ 1 + (pre ++ [phase]).count .retry = attempt

structure RunRecord.Lawful (r : RunRecord) : Prop where
  starts : r.trail.head? = some .plan
  ends : r.trail.getLast? = some r.phase
  path : r.trail.IsChain fun p q => canTransition p q = true
  attempts : r.attempt = 1 + r.trail.count .retry
  attempt_le : r.attempt ≤ r.maxAttempts
  length_le : r.trail.length ≤ 4 * r.maxAttempts + 2
  ids : (r.artifacts.map RunArtifact.artifactId).Nodup
  placed : ∀ a ∈ r.artifacts, Occurred r.trail a.phase a.attempt
  status_eq : r.status = statusFor r.phase
  failure_iff : r.phase = .failed ↔ r.failure.isSome = true

/-- How deep inside its attempt a phase stands: the number of trail
entries since the last full turn of four. -/
def RunPhase.rank : RunPhase → Nat
  | .plan => 1
  | .retry => 1
  | .execute => 2
  | .observe => 3
  | .reflect => 4
  | .validate => 5
  | .finish => 6
  | .failed => 6
  | .cancelled => 6

/-- The trail's length, exactly for a working phase and FINISH, as a
bound after an abort. -/
def RunRecord.Depth (r : RunRecord) : Prop :=
  r.trail.length + 4 ≤ 4 * r.attempt + r.phase.rank
    ∧ (r.phase ∉ aborts → r.trail.length + 4 = 4 * r.attempt + r.phase.rank)

/-- The inductive strengthening of `Lawful`. -/
structure RunRecord.Inv (r : RunRecord) : Prop where
  lawful : r.Lawful
  depth : r.Depth

-- ===== phases and the trail

theorem Occurred.append {trail : List RunPhase} {p : RunPhase} {k : Nat}
    (h : Occurred trail p k) (more : List RunPhase) : Occurred (trail ++ more) p k := by
  obtain ⟨pre, post, rfl, hk⟩ := h
  exact ⟨pre, post ++ more, by simp, hk⟩

/-- The last entry of a trail occurred on the attempt its RETRY entries
count. -/
theorem Occurred.last {trail : List RunPhase} {p : RunPhase}
    (h : trail.getLast? = some p) : Occurred trail p (1 + trail.count .retry) := by
  obtain ⟨pre, hpre⟩ := List.getLast?_eq_some_iff.1 h
  exact ⟨pre, [], hpre, by rw [hpre]⟩

theorem working_of_canTransition {p q : RunPhase} (h : canTransition p q = true) :
    p.isTerminal = false := by
  cases p <;> first
    | rfl
    | simp [canTransition, transitions] at h

theorem rank_le (p : RunPhase) : p.rank ≤ 6 := by
  cases p <;> decide

theorem rank_le_of_working {p : RunPhase} (h : p.isTerminal = false) : p.rank ≤ 5 := by
  cases p <;> first
    | decide
    | cases h

/-- Outside RETRY and the aborts, a transition goes one entry deeper. -/
theorem rank_step {p q : RunPhase} (h : canTransition p q = true) (hq : q ∉ aborts)
    (hr : q ≠ .retry) : q.rank = p.rank + 1 := by
  cases p <;> cases q <;> first
    | rfl
    | simp [canTransition, transitions, aborts] at h hq hr

theorem eq_reflect_of_retry {p : RunPhase} (h : canTransition p .retry = true) :
    p = .reflect := by
  cases p <;> first
    | rfl
    | simp [canTransition, transitions, aborts] at h

/-- A chain whose last entry may be followed by `q` stays a chain with
`q` pushed. -/
theorem chain_push {trail : List RunPhase} {p q : RunPhase}
    (hc : trail.IsChain fun a b => canTransition a b = true)
    (hl : trail.getLast? = some p) (h : canTransition p q = true) :
    (trail ++ [q]).IsChain fun a b => canTransition a b = true := by
  rw [List.isChain_append]
  refine ⟨hc, List.isChain_singleton q, ?_⟩
  intro x hx y hy
  rw [hl] at hx
  cases hx
  cases hy
  exact h

theorem working_of_chain :
    ∀ {trail : List RunPhase}, (trail.IsChain fun a b => canTransition a b = true) →
      ∀ p ∈ trail.dropLast, p.isTerminal = false
  | [], _, p, hp => by simp at hp
  | [q], _, p, hp => by simp at hp
  | a :: b :: rest, hc, p, hp => by
      rw [List.isChain_cons_cons] at hc
      rw [List.dropLast_cons_cons, List.mem_cons] at hp
      rcases hp with rfl | hp
      · exact working_of_canTransition hc.1
      · exact working_of_chain hc.2 p hp

-- ===== one push

/-- The record after a phase change: the target is pushed onto the
trail, RETRY spends an attempt, a failure is attached on FAILED. -/
def RunRecord.push (r : RunRecord) (target : RunPhase) (failure : Option RunFailure) :
    RunRecord :=
  { r with
    phase := target
    attempt := if target = .retry then r.attempt + 1 else r.attempt
    status := statusFor target
    failure := failure
    trail := r.trail ++ [target] }

/-- A legal push keeps the invariant and passes validation, provided a
RETRY still has an attempt to spend and FAILED (only) brings a
failure. -/
theorem RunRecord.Inv.push {r : RunRecord} {target : RunPhase} {failure : Option RunFailure}
    (hi : r.Inv) (hcon : r.Consistent) (ht : canTransition r.phase target = true)
    (hretry : target = .retry → r.attempt < r.maxAttempts)
    (hf : target = .failed ↔ failure.isSome = true) :
    (r.push target failure).Inv ∧ (r.push target failure).Consistent := by
  have hworking := working_of_canTransition ht
  have hcount : (r.push target failure).attempt
      = 1 + (r.push target failure).trail.count .retry := by
    have hatt := hi.lawful.attempts
    simp only [RunRecord.push, List.count_append]
    by_cases hr : target = .retry
    · subst hr
      simp only [if_pos, List.count_singleton_self]
      omega
    · rw [if_neg hr, List.count_singleton, if_neg (by simpa using hr)]
      omega
  have hatt : (r.push target failure).attempt ≤ r.maxAttempts := by
    have := hi.lawful.attempt_le
    simp only [RunRecord.push]
    split
    next hr => exact hretry hr
    next => exact this
  have hgrow : r.attempt ≤ (r.push target failure).attempt := by
    simp only [RunRecord.push]
    split <;> omega
  have hdepth : (r.push target failure).Depth := by
    have hwork : r.phase ∉ aborts := by
      intro h
      cases hp : r.phase <;> rw [hp] at h hworking <;> simp [aborts] at h <;> cases hworking
    have hd := hi.depth.2 hwork
    have h5 := rank_le_of_working hworking
    unfold RunRecord.Depth
    simp only [RunRecord.push, List.length_append, List.length_singleton]
    by_cases hr : target = .retry
    · subst hr
      have h4 : r.phase.rank = 4 := by
        rw [eq_reflect_of_retry ht]
        rfl
      simp only [if_pos, RunPhase.rank]
      omega
    · rw [if_neg hr]
      by_cases ha : target ∈ aborts
      · have h6 : target.rank = 6 := by
          simp only [aborts, List.mem_cons, List.not_mem_nil, or_false] at ha
          rcases ha with rfl | rfl <;> rfl
        exact ⟨by omega, fun h => absurd ha h⟩
      · have hstep := rank_step ht ha hr
        exact ⟨by omega, fun _ => by omega⟩
  have hpath := chain_push hi.lawful.path hi.lawful.ends ht
  have hlen : (r.push target failure).trail.length ≤ 4 * r.maxAttempts + 2 := by
    have h1 := hdepth.1
    have h6 := rank_le (r.push target failure).phase
    omega
  refine ⟨⟨?_, hdepth⟩, ?_⟩
  · exact
      { starts := by
          have := hi.lawful.starts
          simp only [RunRecord.push]
          rw [List.head?_append, this]
          rfl
        ends := by simp [RunRecord.push]
        path := hpath
        attempts := hcount
        attempt_le := hatt
        length_le := hlen
        ids := hi.lawful.ids
        placed := fun a ha => (hi.lawful.placed a ha).append _
        status_eq := rfl
        failure_iff := hf }
  · exact
      { runId_ok := hcon.runId_ok
        attempt_pos := Nat.le_trans hcon.attempt_pos hgrow
        attempt_limit := Nat.le_trans hatt hcon.max_limit
        max_pos := hcon.max_pos
        max_limit := hcon.max_limit
        artifacts_le := hcon.artifacts_le
        attempt_le := hatt
        status_eq := rfl
        failure_iff := hf
        trail_last := by simp [RunRecord.push]
        trail_working := working_of_chain hpath
        artifacts_past := fun a ha => Nat.le_trans (hcon.artifacts_past a ha) hgrow }

/-- Recording an artifact made here and now keeps the invariant and
passes validation, while there is room and its id is new. -/
theorem RunRecord.Inv.record {r : RunRecord} {a : RunArtifact} (hi : r.Inv)
    (hcon : r.Consistent) (hphase : a.phase = r.phase) (hatt : a.attempt = r.attempt)
    (hnew : ∀ item ∈ r.artifacts, item.artifactId ≠ a.artifactId)
    (hroom : r.artifacts.length < MAX_ARTIFACTS) :
    { r with artifacts := r.artifacts ++ [a] }.Inv
      ∧ { r with artifacts := r.artifacts ++ [a] }.Consistent := by
  have hocc : Occurred r.trail a.phase a.attempt := by
    rw [hphase, hatt, hi.lawful.attempts]
    exact Occurred.last hi.lawful.ends
  refine ⟨⟨?_, hi.depth⟩, ?_⟩
  · refine { hi.lawful with ids := ?_, placed := ?_ }
    · rw [List.map_append, List.nodup_append]
      refine ⟨hi.lawful.ids, by simp, ?_⟩
      intro x hx y hy
      obtain ⟨item, hitem, rfl⟩ := List.mem_map.1 hx
      have hy' : y = a.artifactId := by simpa using hy
      exact hy' ▸ hnew item hitem
    · intro b hb
      rcases List.mem_append.1 hb with hb | hb
      · exact hi.lawful.placed b hb
      · have hba : b = a := by simpa using hb
        exact hba ▸ hocc
  · refine { hcon with artifacts_le := ?_, artifacts_past := ?_ }
    · rw [List.length_append, List.length_singleton]
      omega
    · intro b hb
      rcases List.mem_append.1 hb with hb | hb
      · exact hcon.artifacts_past b hb
      · have hba : b = a := by simpa using hb
        subst hba
        exact Nat.le_of_eq hatt

-- ===== the operations

theorem evolve_of_consistent {r : RunRecord} (h : r.Consistent) :
    evolve r = .ok ⟨r, h⟩ := by
  unfold evolve
  rw [RunState.validate_of_consistent h]

theorem ok_bind {ε α β : Type} (x : α) (f : α → Except ε β) : (Except.ok x >>= f) = f x := rfl

/-- `_check` in full: terminal first, then the table. -/
theorem check_cases (s : RunState) (target : RunPhase) :
    (s.isTerminal = true ∧ check s target = .error (.terminalState s.phase target.value))
      ∨ (s.isTerminal = false ∧ canTransition s.phase target = false
          ∧ check s target
              = .error (.illegalTransition s.phase target (allowedFrom s.phase)))
      ∨ (s.isTerminal = false ∧ canTransition s.phase target = true
          ∧ check s target = .ok ()) := by
  unfold check RunState.isTerminal
  cases hterm : s.phase.isTerminal with
  | true => exact Or.inl ⟨rfl, rfl⟩
  | false =>
      cases hcan : canTransition s.phase target with
      | false => exact Or.inr (Or.inl ⟨rfl, rfl, rfl⟩)
      | true => exact Or.inr (Or.inr ⟨rfl, rfl, rfl⟩)

/-- What a call from a lawful state may come back with. A success leaves
a working state for another one with the invariant and the same limit;
an error is typed, or the hint of `advance`, and is
`TerminalStateError` exactly when the state is terminal. -/
def Answers (op : MachineOp) (s : RunState) : Except MachineError RunState → Prop
  | .ok t => s.isTerminal = false ∧ t.Inv ∧ t.maxAttempts = s.maxAttempts
  | .error e =>
      (e.isTyped = true
          ∨ ∃ target ∈ aborts, op = .advance target ∧ e = .abortTarget target
              ∧ s.isTerminal = false)
        ∧ (e.isTerminalState = true ↔ s.isTerminal = true)

variable {s : RunState}

/-- A legal push, evolved: the common end of `advance`, `fail` and
`cancel`. -/
theorem answers_push (op : MachineOp) (hi : s.Inv) {target : RunPhase}
    {failure : Option RunFailure} (hterm : s.isTerminal = false)
    (ht : canTransition s.phase target = true)
    (hretry : target = .retry → s.attempt < s.maxAttempts)
    (hf : target = .failed ↔ failure.isSome = true) :
    Answers op s (evolve (s.toRunRecord.push target failure)) := by
  obtain ⟨hinv, hcon⟩ := hi.push s.consistent ht hretry hf
  rw [evolve_of_consistent hcon]
  exact ⟨hterm, hinv, rfl⟩

theorem failure_none (h : s.isTerminal = false) : s.failure = none := by
  have hne : s.phase ≠ .failed := by
    intro hp
    simp [RunState.isTerminal, hp, RunPhase.isTerminal] at h
  have := s.consistent.failure_iff
  cases hf : s.failure with
  | none => rfl
  | some f => exact absurd (this.2 (by rw [hf]; rfl)) hne

theorem advance_answers (hi : s.Inv) (target : RunPhase) :
    Answers (.advance target) s (advance s target) := by
  unfold advance
  by_cases ha : target ∈ aborts
  · rw [if_pos ha]
    cases hterm : s.phase.isTerminal with
    | true => exact ⟨Or.inl rfl, by simp [MachineError.isTerminalState, RunState.isTerminal, hterm]⟩
    | false =>
        refine ⟨Or.inr ⟨target, ha, rfl, rfl, hterm⟩, ?_⟩
        simp [MachineError.isTerminalState, RunState.isTerminal, hterm]
  · rw [if_neg ha]
    rcases check_cases s target with ⟨hterm, hc⟩ | ⟨hterm, -, hc⟩ | ⟨hterm, hcan, hc⟩
    · rw [hc]
      exact ⟨Or.inl rfl, by simp [MachineError.isTerminalState, hterm]⟩
    · rw [hc]
      exact ⟨Or.inl rfl, by simp [MachineError.isTerminalState, hterm]⟩
    · have hf : target = .failed ↔ s.failure.isSome = true := by
        rw [failure_none hterm]
        constructor
        · rintro rfl
          exact absurd (by decide) ha
        · intro h
          cases h
      rw [hc]
      show Answers _ s (if target = .retry then _ else _)
      by_cases hr : target = .retry
      · subst hr
        rw [if_pos rfl]
        by_cases hmax : s.attempt ≥ s.maxAttempts
        · rw [if_pos hmax]
          exact ⟨Or.inl rfl, by simp [MachineError.isTerminalState, hterm]⟩
        · rw [if_neg hmax]
          exact answers_push _ hi hterm hcan (fun _ => Nat.lt_of_not_le hmax) hf
      · rw [if_neg hr]
        have hpush := answers_push (.advance target) hi hterm hcan
          (fun h => absurd h hr) hf
        simpa only [RunRecord.push, if_neg hr] using hpush

theorem fail_answers (hi : s.Inv) {kind message : PyStr} (hkind : isFailureKind kind = true) :
    Answers (.fail kind message) s (fail s kind message) := by
  unfold fail
  rcases check_cases s .failed with ⟨hterm, hc⟩ | ⟨hterm, -, hc⟩ | ⟨hterm, hcan, hc⟩
  · rw [hc]
    exact ⟨Or.inl rfl, by simp [MachineError.isTerminalState, hterm]⟩
  · rw [hc]
    exact ⟨Or.inl rfl, by simp [MachineError.isTerminalState, hterm]⟩
  · have hshort : (message.take SHORT_TEXT).length ≤ SHORT_TEXT := by
      rw [List.length_take]
      omega
    rw [hc, ok_bind, RunFailure.validate, dif_pos hkind, dif_pos hshort]
    exact answers_push _ hi hterm hcan (fun h => by cases h) (by simp)

theorem cancel_answers (hi : s.Inv) : Answers .cancel s (cancel s) := by
  unfold cancel
  rcases check_cases s .cancelled with ⟨hterm, hc⟩ | ⟨hterm, -, hc⟩ | ⟨hterm, hcan, hc⟩
  · rw [hc]
    exact ⟨Or.inl rfl, by simp [MachineError.isTerminalState, hterm]⟩
  · rw [hc]
    exact ⟨Or.inl rfl, by simp [MachineError.isTerminalState, hterm]⟩
  · rw [hc]
    have hf : RunPhase.cancelled = .failed ↔ s.failure.isSome = true := by
      simp [failure_none hterm]
    exact answers_push _ hi hterm hcan (fun h => by cases h) hf

theorem recordArtifact_answers (hi : s.Inv) (a : RunArtifact) :
    Answers (.recordArtifact a) s (recordArtifact s a) := by
  unfold recordArtifact
  cases hterm : s.phase.isTerminal with
  | true => exact ⟨Or.inl rfl, by simp [MachineError.isTerminalState, RunState.isTerminal, hterm]⟩
  | false =>
      rw [if_neg Bool.false_ne_true]
      split_ifs with hplace hdup hfull
      · exact ⟨Or.inl rfl, by simp [MachineError.isTerminalState, RunState.isTerminal, hterm]⟩
      · exact ⟨Or.inl rfl, by simp [MachineError.isTerminalState, RunState.isTerminal, hterm]⟩
      · exact ⟨Or.inl rfl, by simp [MachineError.isTerminalState, RunState.isTerminal, hterm]⟩
      · rw [not_or, not_not, not_not] at hplace
        have hnew : ∀ item ∈ s.artifacts, item.artifactId ≠ a.artifactId := by
          intro item hitem heq
          exact hdup (List.any_eq_true.2 ⟨item, hitem, beq_iff_eq.2 heq⟩)
        obtain ⟨hinv, hcon⟩ := hi.record s.consistent hplace.1 hplace.2 hnew
          (Nat.lt_of_not_le hfull)
        rw [evolve_of_consistent hcon]
        exact ⟨hterm, hinv, rfl⟩

/-- Only `fail` has an argument it can refuse as ill-formed. -/
def MachineOp.WellFormed : MachineOp → Prop
  | .fail kind _ => isFailureKind kind = true
  | _ => True

theorem apply_answers (hi : s.Inv) (op : MachineOp) (hop : op.WellFormed) :
    Answers op s (op.apply s) := by
  cases op with
  | advance target => exact advance_answers hi target
  | fail kind message => exact fail_answers hi hop
  | cancel => exact cancel_answers hi
  | recordArtifact a => exact recordArtifact_answers hi a

theorem wellFormed_of_ok {s t : RunState} {op : MachineOp} (h : op.apply s = .ok t) :
    op.WellFormed := by
  cases op with
  | advance target => trivial
  | cancel => trivial
  | recordArtifact a => trivial
  | fail kind message =>
      by_contra hkind
      have hkind : ¬ isFailureKind kind = true := hkind
      rw [MachineOp.apply, fail] at h
      rcases check_cases s .failed with ⟨-, hc⟩ | ⟨-, -, hc⟩ | ⟨-, -, hc⟩ <;> rw [hc] at h
      · cases h
      · cases h
      · rw [ok_bind, RunFailure.validate, dif_neg hkind] at h
        cases h

-- ===== runs

theorem start_inv {runId : PyStr} {maxAttempts : Nat}
    (h : RunState.start runId maxAttempts = some s) : s.Inv ∧ s.maxAttempts = maxAttempts := by
  have hrec := RunState.validate_eq_some.1 h
  have hcon := s.consistent
  rw [hrec] at hcon ⊢
  have hmax : 1 ≤ maxAttempts := hcon.max_pos
  refine ⟨⟨?_, ?_⟩, rfl⟩
  · exact
      { starts := rfl
        ends := rfl
        path := List.isChain_singleton _
        attempts := rfl
        attempt_le := hmax
        length_le := by simp only [List.length_singleton]; omega
        ids := List.nodup_nil
        placed := by simp
        status_eq := rfl
        failure_iff := by simp }
  · exact ⟨Nat.le_refl _, fun _ => rfl⟩

theorem machineStep_inv {n : Nat} (op : MachineOp) (s t : RunState)
    (h : s.Inv ∧ s.maxAttempts = n) (hstep : machineStep op s = some t) :
    t.Inv ∧ t.maxAttempts = n := by
  unfold machineStep at hstep
  cases hr : op.apply s with
  | error e =>
      rw [hr] at hstep
      cases hstep
  | ok u =>
      rw [hr] at hstep
      cases hstep
      have hans := apply_answers h.1 op (wellFormed_of_ok hr)
      rw [hr] at hans
      exact ⟨hans.2.1, hans.2.2.trans h.2⟩

theorem reachable_inv {runId : PyStr} {maxAttempts : Nat} {ops : List MachineOp}
    {s₀ s : RunState} (hstart : RunState.start runId maxAttempts = some s₀)
    (hrun : run machineStep ops s₀ = some s) : s.Inv ∧ s.maxAttempts = maxAttempts :=
  run_preserves (P := fun s => s.Inv ∧ s.maxAttempts = maxAttempts)
    machineStep_inv (start_inv hstart) hrun

/-- A call's answer as a strict reading of "a new state or a typed
error" has it. -/
def MachineOp.Strict (op : MachineOp) (s : RunState) : Prop :=
  match op.apply s with
  | .ok t => t.Lawful
  | .error e => e.isTyped = true

end Velune.Engine
