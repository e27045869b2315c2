/-
The plan-and-review driver (`orchestration/engine/driver.py`): one run of a
planner, a reasoner and a reviewer over the state machine.

A step is what runs between two awaits, once the agent that was asked has
answered or the task was cancelled. The run's control, which others change
in between, is given to each step as it then is. Ids are numbered.

What holds at every await and at every end is one predicate (`At`). Each
piece of a step is given what comes after it, and so is each lemma.
-/
import Velune.Commands.Safety
import Velune.Engine.Agent
import Velune.Engine.Approval
import Velune.Engine.ExecControl
import Velune.Engine.Proofs.Binding
import Velune.Engine.Proofs.Machine
import Velune.Lib.Assoc

namespace Velune.Engine

open Lib Lib.Regex Velune.Commands

-- ===== what the agents return

inductive Verdict
  | approve | revise
  deriving DecidableEq

def VERDICT : Re :=
  .cat [spaces0, lit "VERDICT:", spaces0, .group 1 (words ["APPROVE", "REVISE"]), edge]

/-- `parse_verdict`. A word whose lower case is none of the two is a
`ValueError`, the outer `none`. -/
def parseVerdict (isWord : Char → Bool) (text : PyStr) : Option (Option Verdict) :=
  match ((Text.splitlines text).find? (Text.strip · ≠ [])).bind (matchAt isWord VERDICT none) with
  | none => some none
  | some found =>
      let word := lower (found.groups.get 1)
      if word = "approve".toList then some (some .approve)
      else if word = "revise".toList then some (some .revise)
      else none

/-- The outcome of an agent, or the class of what its runner raised. -/
inductive AgentReply
  | text (text : PyStr)
  | failed (kind message : PyStr)
  | raised (className : PyStr)

structure ToolRecord where
  tool : PyStr
  requestId : PyStr
  callDigest : PyStr
  /-- `status.value == "ok"`. -/
  ok : Bool
  /-- `outcome.value`. -/
  outcome : PyStr
  output : PyStr
  unsettled : Bool

def MAX_EVIDENCE_CHARS : Nat := 100000

def EVIDENCE_CLIPPED_MARKER : PyStr := "\n[output clipped by the driver]".toList

def evidenceText (record : ToolRecord) : PyStr :=
  let output := Text.strip record.output
  let text :=
    if output ≠ [] then output
    else if record.ok then "[the tool returned no output]".toList
    else "[the tool call did not complete: ".toList ++ record.outcome ++ "]".toList
  if text.length > MAX_EVIDENCE_CHARS then
    text.take (MAX_EVIDENCE_CHARS - EVIDENCE_CLIPPED_MARKER.length) ++ EVIDENCE_CLIPPED_MARKER
  else text

theorem no_source : ∀ s ∈ (none : Option PyStr), isToolName s = true := by simp

def agentWork (kind : ArtifactKind) (role : AgentRole) (target : Option AgentRole) (text : PyStr)
    (h : text ≠ []) : StoredArtifact :=
  ⟨kind, some role, target, text, .model, none, h, no_source, by simp, by simp⟩

/-- The evidence of a record; `none` is a `ValidationError`. -/
def ToolRecord.evidence (record : ToolRecord) : Option StoredArtifact :=
  if h : evidenceText record ≠ [] ∧ isToolName record.tool = true
      ∧ isIdentifier record.requestId = true ∧ isSha256 record.callDigest = true then
    some ⟨.evidence, none, none, evidenceText record, .tool, some record.tool, h.1,
      fun _ hs => (Option.some.inj hs) ▸ h.2.1, fun _ => rfl, by simp⟩
  else none

-- ===== the driver

/-- The driver, with what its constructor has checked; it acts when its
reasoner does. -/
structure PlanReviewDriver where
  planner : AgentSpec
  reasoner : AgentSpec
  reviewer : AgentSpec
  assigned : AgentRole → List AgentRole
  maxAttempts : Nat
  /-- The reason of `_validator`, or that it raised; empty for none. -/
  validator : PyStr → PyStr
  nextId : Nat → PyStr
  digest : PyStr → PyStr
  isWord : Char → Bool
  /-- `DEADLINE_MARGIN_S` in ticks. -/
  margin : Nat
  roles : planner.role = .planner ∧ reasoner.role = .reasoner ∧ reviewer.role = .reviewer
  reasoning : planner.kind = .reasoning ∧ reviewer.kind = .reasoning

structure Moment (α : Type) where
  now : Nat
  control : RunControl α

abbrev Draft := StoredArtifact × Nat

inductive Awaiting
  | planner | reasoner
  | reviewer (draft : Draft)

inductive DriverPlace
  | awaits (agent : Awaiting) (context : List ContextItem)
  | returned (answer : Option PyStr) (abandoned unsettled : Nat)
  /-- `CancelledError`. -/
  | raised

structure DriverRun where
  state : RunState
  store : List StoredArtifact := []
  /-- The digests of calls that may still run, each with its request id. -/
  unsettled : Assoc PyStr PyStr := []
  /-- The run has a control. -/
  controlled : Bool
  place : DriverPlace := .raised

variable {α : Type}

-- ===== exits

namespace DriverRun

def result (m : Moment α) (r : DriverRun) (answer : Option PyStr) : DriverRun :=
  { r with
    place := .returned answer (if r.controlled then m.control.abandonedCount else 0)
      r.unsettled.length }

/-- An exception inside `run`: the run ends as `internal`. -/
def crash (m : Moment α) (className : PyStr) (r : DriverRun) : DriverRun :=
  match Engine.fail r.state "internal".toList ("driver error: ".toList ++ className) with
  | .ok s => { r with state := s }.result m none
  | .error _ => { r with place := .raised }

def fail (m : Moment α) (kind message : PyStr) (r : DriverRun) : DriverRun :=
  match Engine.fail r.state kind message with
  | .ok s => { r with state := s }.result m none
  | .error e => r.crash m e.className

def cancel (r : DriverRun) : DriverRun :=
  match Engine.cancel r.state with
  | .ok s => { r with state := s, place := .raised }
  | .error _ => { r with place := .raised }

-- ===== pieces, each with what comes after it

def advance (m : Moment α) (target : RunPhase) (next : DriverRun → DriverRun) (r : DriverRun) :
    DriverRun :=
  match Engine.advance r.state target with
  | .ok s => next { r with state := s }
  | .error e => r.crash m e.className

/-- `_reconcile`: a call is forgotten once its record says it settled. -/
def reconcile (m : Moment α) (r : DriverRun) : DriverRun :=
  if r.controlled then
    { r with
      unsettled := r.unsettled.filter fun entry =>
        m.control.store.stateOf entry.2 ∉ [some .completed, some .failed, some .cancelled] }
  else r

def settled (m : Moment α) (next : DriverRun → DriverRun) (r : DriverRun) : DriverRun :=
  let r := r.reconcile m
  if r.unsettled ≠ [] ∨ (r.controlled = true ∧ m.control.abandonedCount > 0) then
    r.fail m "tool_outcome_unknown".toList
      "a tool call has not settled; the run cannot continue".toList
  else next r

def checkpoint (m : Moment α) (next : DriverRun → DriverRun) (r : DriverRun) : DriverRun :=
  if r.controlled = true ∧ m.control.cancelled = true then r.cancel
  else if r.controlled = true ∧ m.control.budget.pastDeadline m.now = true then
    r.fail m "deadline".toList "the run's time limit was reached".toList
  else next r

/-- `_store_records` and `_absorb`. -/
def takeRecords (m : Moment α) (next : DriverRun → DriverRun) :
    List ToolRecord → DriverRun → DriverRun
  | [], r => next r
  | record :: rest, r =>
      match record.evidence with
      | none => r.crash m "ValidationError".toList
      | some artifact => takeRecords m next rest { r with store := r.store ++ [artifact] }

def absorb (records : List ToolRecord) (r : DriverRun) : DriverRun :=
  { r with
    unsettled := records.foldl
      (fun seen record =>
        if record.unsettled then seen.set record.callDigest record.requestId else seen)
      r.unsettled }

end DriverRun

namespace PlanReviewDriver

variable (d : PlanReviewDriver) (m : Moment α)

def ask (spec : AgentSpec) (agent : Awaiting) (r : DriverRun) : DriverRun :=
  match spec.context d.assigned r.store with
  | none => r.crash m "ValidationError".toList
  | some context => { r with place := .awaits agent context }

def deliver (kind : ArtifactKind) (role : AgentRole) (target : Option AgentRole) (text : PyStr)
    (next : Draft → DriverRun → DriverRun) (r : DriverRun) : DriverRun :=
  if h : text ≠ [] then
    let work := agentWork kind role target text h
    let stored := { r with store := r.store ++ [work] }
    match RunArtifact.validate (d.nextId r.store.length) kind role r.state.phase r.state.attempt
        (d.digest text) with
    | none => stored.crash m "ValidationError".toList
    | some reference =>
        match recordArtifact r.state reference with
        | .ok s => next (work, r.store.length) { stored with state := s }
        | .error e => stored.crash m e.className
  else r.crash m "ValidationError".toList

def DEADLINE_CANDIDATES : List PyStr :=
  ["agent_timeout".toList, "agent_unsupported".toList, "agent_provider_error".toList,
    "acting_timeout".toList, "acting_provider_error".toList, "acting_model_budget".toList]

def BUDGET_CANDIDATES : List PyStr :=
  ["agent_unsupported".toList, "acting_model_budget".toList]

def limitKind (r : DriverRun) (kind : PyStr) : PyStr :=
  let ledger := m.control.budget
  if r.controlled = false then kind
  else if kind ∈ DEADLINE_CANDIDATES
      ∧ (ledger.pastDeadline m.now = true ∨ ledger.deadline < m.now + d.margin) then
    "deadline".toList
  else if kind ∈ BUDGET_CANDIDATES
      ∧ (ledger.modelCalls ≥ ledger.budget.maxModelCalls
        ∨ ledger.providerAttempts ≥ ledger.budget.maxProviderAttempts) then
    "budget_exhausted".toList
  else kind

def answered (before : String) (role : AgentRole) (reply : AgentReply)
    (next : PyStr → DriverRun → DriverRun) (r : DriverRun) : DriverRun :=
  match reply with
  | .raised className => r.crash m className
  | .failed kind message =>
      r.fail m (d.limitKind m r ((before.toList ++ kind).take 40))
        (role.value ++ ": ".toList ++ message)
  | .text text => next text r

-- ===== phases

def latest (kind : ArtifactKind) (author : AgentRole) (store : List StoredArtifact) :
    Option Draft :=
  store.zipIdx.reverse.find? fun draft => draft.1.kind = kind ∧ draft.1.author = some author

/-- EXECUTE up to its await; an acting run without a control gets one. -/
def execute : DriverRun → DriverRun :=
  .checkpoint m fun r =>
    d.ask m d.reasoner .reasoner
      (if d.reasoner.kind = .acting then { r.reconcile m with controlled := true } else r)

def planned (reply : AgentReply) : DriverRun → DriverRun :=
  d.answered m "agent_" .planner reply fun text =>
    d.deliver m .frame .planner none text fun _ => .advance m .execute (d.execute m)

/-- EXECUTE has its draft; OBSERVE, then REFLECT up to its await. -/
def drafted (text : PyStr) : DriverRun → DriverRun :=
  d.deliver m .perspective .reasoner none text fun draft =>
    .settled m <| .advance m .observe fun r =>
      if (latest .perspective .reasoner r.store).map (·.2) = some draft.2 then
        r.advance m .reflect (.checkpoint m (d.ask m d.reviewer (.reviewer draft)))
      else r.fail m "internal".toList "no draft to observe".toList

def executed (reply : AgentReply) (records : List ToolRecord) (r : DriverRun) : DriverRun :=
  if d.reasoner.kind = .acting then
    match reply with
    | .raised className => r.crash m className
    | reply =>
        r.takeRecords m (fun r => d.answered m "" .reasoner reply
          (fun text => .settled m (d.drafted m text)) (r.absorb records)) records
  else d.answered m "agent_" .reasoner reply (d.drafted m) r

def retry (r : DriverRun) : DriverRun :=
  match Engine.advance r.state .retry with
  | .ok s => { r with state := s }.advance m .execute (d.execute m)
  | .error (.retryLimitExceeded _ _) =>
      r.fail m "retry_limit".toList
        ("not approved after ".toList ++ (toString d.maxAttempts).toList ++ " attempts".toList)
  | .error e => r.crash m e.className

def validated (draft : Draft) (r : DriverRun) : DriverRun :=
  if d.validator draft.1.text = [] then
    r.settled m (.advance m .finish fun r => r.result m (some draft.1.text))
  else r.fail m "validation_failed".toList (d.validator draft.1.text)

def reviewed (draft : Draft) (reply : AgentReply) : DriverRun → DriverRun :=
  d.answered m "agent_" .reviewer reply fun text r =>
    match parseVerdict d.isWord text with
    | none => r.crash m "ValueError".toList
    | some none =>
        r.fail m "invalid_output".toList "reviewer: the review gave no VERDICT line".toList
    | some (some verdict) =>
        d.deliver m .critique .reviewer (some .reasoner) text (fun _ => .settled m
          (if verdict = .approve then .advance m .validate (d.validated m draft)
            else d.retry m)) r

def start (runId task : PyStr) (given : Bool) : Option DriverRun :=
  (RunState.start runId d.maxAttempts).map fun s =>
    let r : DriverRun := { state := s, controlled := given }
    if h : Text.strip task ≠ [] then
      let question : StoredArtifact :=
        ⟨.question, none, none, Text.strip task, .caller, none, h, no_source, by simp, by simp⟩
      DriverRun.checkpoint m (d.ask m d.planner .planner) { r with store := [question] }
    else r.fail m "invalid_task".toList "the task is empty".toList

/-- What an await comes to. The records are those of an acting reasoner. -/
inductive DriverInput
  | replied (reply : AgentReply) (records : List ToolRecord)
  | cancelled (records : List ToolRecord)

def step (a : DriverInput × Moment α) (r : DriverRun) : Option DriverRun :=
  match r.place, a.1 with
  | .awaits .planner _, .replied reply _ => some (d.planned a.2 reply r)
  | .awaits .reasoner _, .replied reply records => some (d.executed a.2 reply records r)
  | .awaits (.reviewer draft) _, .replied reply _ => some (d.reviewed a.2 draft reply r)
  | .awaits .reasoner _, .cancelled records =>
      some (if d.reasoner.kind = .acting then (r.absorb records).cancel else r.cancel)
  | .awaits _ _, .cancelled _ => some r.cancel
  | _, _ => none

end PlanReviewDriver

-- ===== what holds at every await and every end

structure PlanReviewDriver.In (d : PlanReviewDriver) (p : RunPhase) (k : Nat) (s : RunState) :
    Prop where
  inv : s.Inv
  limit : s.maxAttempts = d.maxAttempts
  phase : s.phase = p
  attempt : s.attempt = k

/-- The store ends in the reasoner's draft, and in what else is given. -/
def DriverRun.Drafted (r : DriverRun) (draft : StoredArtifact) (after : List StoredArtifact) :
    Prop :=
  draft.kind = .perspective ∧ draft.author = some .reasoner
    ∧ ∃ before, r.store = before ++ draft :: after

def PlanReviewDriver.Judged (d : PlanReviewDriver) (verdict : Verdict) (work : StoredArtifact) :
    Prop :=
  work.kind = .critique ∧ work.author = some .reviewer
    ∧ parseVerdict d.isWord work.text = some (some verdict)

/-- The store ends in a review that asks for more. -/
def DriverRun.SentBack (d : PlanReviewDriver) (r : DriverRun) : Prop :=
  ∃ before work, r.store = before ++ [work] ∧ d.Judged .revise work

/-- Nothing is asked while a call is unsettled, no tool output is shown to the
planner or the reviewer, and only what was sent back is tried again; an
answer is the last draft, approved and validated, with no call open. -/
def PlanReviewDriver.At (d : PlanReviewDriver) (r : DriverRun) : DriverPlace → Prop
  | .awaits .planner context =>
      r.state.phase = .plan ∧ r.unsettled = [] ∧ r.state.attempt = 1
        ∧ ∀ item ∈ context, item.origin ≠ some .tool
  | .awaits .reasoner _ =>
      r.state.phase = .execute ∧ r.unsettled = [] ∧ (r.state.attempt = 1 ∨ r.SentBack d)
  | .awaits (.reviewer draft) context =>
      r.state.phase = .reflect ∧ r.unsettled = []
        ∧ (∀ item ∈ context, item.origin ≠ some .tool) ∧ r.Drafted draft.1 []
  | .returned (some answer) abandoned unsettled =>
      r.state.phase = .finish ∧ abandoned = 0 ∧ unsettled = 0 ∧ d.validator answer = []
        ∧ ∃ draft critique, r.Drafted draft [critique] ∧ draft.text = answer
          ∧ d.Judged .approve critique
  | .returned none _ _ => r.state.phase = .failed
  | .raised => r.state.phase = .cancelled

def PlanReviewDriver.left (d : PlanReviewDriver) (k : Nat) : DriverPlace → Nat
  | .awaits .planner _ => 2 * (d.maxAttempts - k) + 3
  | .awaits .reasoner _ => 2 * (d.maxAttempts - k) + 2
  | .awaits (.reviewer _) _ => 2 * (d.maxAttempts - k) + 1
  | _ => 0

structure PlanReviewDriver.Sound (d : PlanReviewDriver) (n : Nat) (r : DriverRun) : Prop where
  inv : r.state.Inv
  limit : r.state.maxAttempts = d.maxAttempts
  place : d.At r r.place
  left_le : d.left r.state.attempt r.place ≤ n

section Pieces

variable {d : PlanReviewDriver} {m : Moment α} {r : DriverRun} {p q : RunPhase} {k n : Nat}
  {next : DriverRun → DriverRun}

theorem inv_of_ok {s t : RunState} (op : MachineOp) (hi : s.Inv) (h : op.apply s = .ok t) :
    t.Inv ∧ t.maxAttempts = s.maxAttempts :=
  machineStep_inv op s t ⟨hi, rfl⟩ (by rw [machineStep, h]; rfl)

theorem evolve_eq {s : RunState} {record : RunRecord} (h : evolve record = .ok s) :
    s.toRunRecord = record := by
  unfold evolve at h
  split at h
  next hs =>
    cases h
    exact RunState.validate_eq_some.1 hs
  next => cases h

theorem check_abort {s : RunState} (hw : s.isTerminal = false) (hq : q ∈ aborts) :
    canTransition s.phase q = true ∧ check s q = .ok () := by
  have hcan : canTransition s.phase q = true := by
    unfold RunState.isTerminal at hw
    have hq : q = .failed ∨ q = .cancelled := by simpa [aborts] using hq
    rcases hq with rfl | rfl <;> cases hp : s.phase <;> rw [hp] at hw <;> first
      | rfl
      | cases hw
  rcases check_cases s q with ⟨h, -⟩ | ⟨-, h, -⟩ | ⟨-, -, h⟩
  · rw [hw] at h
    cases h
  · rw [hcan] at h
    cases h
  · exact ⟨hcan, h⟩

theorem fail_phase {s t : RunState} {kind message : PyStr}
    (h : Engine.fail s kind message = .ok t) : t.phase = .failed := by
  unfold Engine.fail at h
  cases hc : check s .failed with
  | error e =>
      rw [hc] at h
      cases h
  | ok _ =>
      rw [hc, ok_bind] at h
      split at h
      · cases h
      · rw [evolve_eq h]

theorem crash_sound (h : d.In p k r.state) (hp : p.isTerminal = false) (className : PyStr) :
    d.Sound n (r.crash m className) := by
  have hw : r.state.isTerminal = false := by rw [RunState.isTerminal, h.phase, hp]
  obtain ⟨hcan, hc⟩ := check_abort hw (show .failed ∈ aborts by decide)
  have hok : ∃ t, Engine.fail r.state "internal".toList
      ("driver error: ".toList ++ className) = .ok t := by
    unfold Engine.fail
    rw [hc, ok_bind, RunFailure.validate, dif_pos (by decide),
      dif_pos (by rw [List.length_take]; omega)]
    obtain ⟨-, hcon⟩ := h.inv.push r.state.consistent hcan (fun h => by cases h)
      (show RunPhase.failed = .failed ↔ (some (_ : RunFailure)).isSome = true by simp)
    exact ⟨_, evolve_of_consistent hcon⟩
  obtain ⟨t, ht⟩ := hok
  obtain ⟨hinv, hlimit⟩ := inv_of_ok (.fail _ _) h.inv ht
  unfold DriverRun.crash
  rw [ht]
  exact ⟨hinv, hlimit.trans h.limit, fail_phase ht, Nat.zero_le n⟩

theorem fail_sound (h : d.In p k r.state) (hp : p.isTerminal = false) (kind message : PyStr) :
    d.Sound n (r.fail m kind message) := by
  unfold DriverRun.fail
  cases ht : Engine.fail r.state kind message with
  | error e => exact crash_sound h hp _
  | ok t =>
      obtain ⟨hinv, hlimit⟩ := inv_of_ok (.fail _ _) h.inv ht
      exact ⟨hinv, hlimit.trans h.limit, fail_phase ht, Nat.zero_le n⟩

theorem cancel_sound (h : d.In p k r.state) (hp : p.isTerminal = false) :
    d.Sound n r.cancel := by
  have hw : r.state.isTerminal = false := by rw [RunState.isTerminal, h.phase, hp]
  obtain ⟨hcan, hc⟩ := check_abort hw (show .cancelled ∈ aborts by decide)
  have hf : RunPhase.cancelled = .failed ↔ r.state.failure.isSome = true := by
    simp [failure_none hw]
  obtain ⟨hinv, hcon⟩ := h.inv.push r.state.consistent hcan (fun h => by cases h) hf
  have ht : Engine.cancel r.state = .ok ⟨_, hcon⟩ := by
    unfold Engine.cancel
    rw [hc, ok_bind]
    exact evolve_of_consistent hcon
  unfold DriverRun.cancel
  rw [ht]
  exact ⟨hinv, h.limit, rfl, Nat.zero_le n⟩

theorem in_of_advance {s t : RunState} (h : d.In p k s) (ht : Engine.advance s q = .ok t) :
    d.In q (if q = .retry then k + 1 else k) t := by
  obtain ⟨hinv, hlimit⟩ := inv_of_ok (.advance q) h.inv ht
  have hmoved : t.phase = q ∧ t.attempt = if q = .retry then s.attempt + 1 else s.attempt := by
    unfold Engine.advance at ht
    split at ht
    · split at ht <;> cases ht
    · cases hc : check s q with
      | error e =>
          rw [hc] at ht
          cases ht
      | ok _ =>
          rw [hc, ok_bind] at ht
          split_ifs at ht ⊢
          · rw [evolve_eq ht]
            exact ⟨rfl, rfl⟩
          · rw [evolve_eq ht]
            exact ⟨rfl, rfl⟩
  exact ⟨hinv, hlimit.trans h.limit, hmoved.1, h.attempt ▸ hmoved.2⟩

theorem advance_sound (h : d.In p k r.state) (hp : p.isTerminal = false)
    (hnext : ∀ s, d.In q (if q = .retry then k + 1 else k) s →
      d.Sound n (next { r with state := s })) : d.Sound n (r.advance m q next) := by
  unfold DriverRun.advance
  cases ht : Engine.advance r.state q with
  | error e => exact crash_sound h hp _
  | ok t => exact hnext t (in_of_advance h ht)

theorem settled_sound (h : d.In p k r.state) (hp : p.isTerminal = false)
    (hnext : (r.controlled = true → m.control.abandonedCount = 0) →
      d.Sound n (next { r with unsettled := [] })) : d.Sound n (r.settled m next) := by
  have hr : ∃ u, r.reconcile m = { r with unsettled := u } := by
    unfold DriverRun.reconcile
    split
    · exact ⟨_, rfl⟩
    · exact ⟨_, rfl⟩
  obtain ⟨u, hr⟩ := hr
  unfold DriverRun.settled
  rw [hr]
  dsimp only
  split
  next => exact fail_sound (r := { r with unsettled := u }) h hp _ _
  next hnone =>
    rw [not_or, not_not, not_and] at hnone
    obtain ⟨rfl, habandoned⟩ := hnone
    exact hnext fun hcontrol => Nat.eq_zero_of_not_pos (habandoned hcontrol)

theorem checkpoint_sound (h : d.In p k r.state) (hp : p.isTerminal = false)
    (hnext : d.Sound n (next r)) : d.Sound n (r.checkpoint m next) := by
  unfold DriverRun.checkpoint
  split
  · exact cancel_sound h hp
  · split
    · exact fail_sound h hp _ _
    · exact hnext

theorem ask_sound {spec : AgentSpec} {agent : Awaiting} (h : d.In p k r.state)
    (hp : p.isTerminal = false)
    (hat : ∀ context, (spec.kind = .reasoning → ∀ item ∈ context, item.origin ≠ some .tool) →
      d.At r (.awaits agent context) ∧ d.left k (.awaits agent context) ≤ n) :
    d.Sound n (d.ask m spec agent r) := by
  unfold PlanReviewDriver.ask
  split
  next => exact crash_sound h hp _
  next context hc =>
    obtain ⟨hplace, hleft⟩ := hat context fun hkind item hitem => by
      obtain ⟨all, -, rfl⟩ := Option.map_eq_some_iff.1 hc
      simp only [hkind, reduceCtorEq, if_false, List.mem_filter, decide_eq_true_eq] at hitem
      exact hitem.2
    exact ⟨h.inv, h.limit, hplace, h.attempt ▸ hleft⟩

theorem deliver_sound {kind : ArtifactKind} {role : AgentRole} {target : Option AgentRole}
    {text : PyStr} {next : Draft → DriverRun → DriverRun} (h : d.In p k r.state)
    (hp : p.isTerminal = false)
    (hnext : ∀ s (work : StoredArtifact), d.In p k s → work.kind = kind →
      work.author = some role → work.text = text → d.Sound n (next (work, r.store.length)
        { r with state := s, store := r.store ++ [work] })) :
    d.Sound n (d.deliver m kind role target text next r) := by
  unfold PlanReviewDriver.deliver
  split
  next htext =>
    have hcrash := crash_sound (d := d) (m := m) (n := n)
      (r := { r with store := r.store ++ [agentWork kind role target text htext] }) h hp
    dsimp only
    split
    next => exact hcrash _
    next reference _ =>
      split
      next s hs =>
        obtain ⟨hinv, hlimit⟩ := inv_of_ok (.recordArtifact _) h.inv hs
        have heq : s.phase = r.state.phase ∧ s.attempt = r.state.attempt := by
          unfold recordArtifact at hs
          split_ifs at hs
          rw [evolve_eq hs]
          exact ⟨rfl, rfl⟩
        exact hnext s _ ⟨hinv, hlimit.trans h.limit, heq.1.trans h.phase,
          heq.2.trans h.attempt⟩ rfl rfl rfl
      next => exact hcrash _
  next => exact crash_sound h hp _

theorem answered_sound {before : String} {role : AgentRole} {reply : AgentReply}
    {next : PyStr → DriverRun → DriverRun} (h : d.In p k r.state) (hp : p.isTerminal = false)
    (hnext : ∀ text, d.Sound n (next text r)) :
    d.Sound n (d.answered m before role reply next r) := by
  unfold PlanReviewDriver.answered
  split
  · exact crash_sound h hp _
  · exact fail_sound h hp _ _
  · exact hnext _

end Pieces

-- ===== the phases

section Phases

variable {d : PlanReviewDriver} {m : Moment α} {r : DriverRun} {k n : Nat}

theorem execute_sound (h : d.In .execute k r.state) (hu : r.unsettled = [])
    (hback : r.state.attempt = 1 ∨ r.SentBack d) (hn : 2 * (d.maxAttempts - k) + 2 ≤ n) :
    d.Sound n (d.execute m r) := by
  refine checkpoint_sound h rfl ?_
  split
  · unfold DriverRun.reconcile
    split
    · exact ask_sound h rfl fun _ _ => ⟨⟨h.phase, by simp [hu], hback⟩, hn⟩
    · exact ask_sound h rfl fun _ _ => ⟨⟨h.phase, hu, hback⟩, hn⟩
  · exact ask_sound h rfl fun _ _ => ⟨⟨h.phase, hu, hback⟩, hn⟩

theorem planned_sound (reply : AgentReply) (h : d.In .plan 1 r.state) (hu : r.unsettled = [])
    (hn : 2 * (d.maxAttempts - 1) + 2 ≤ n) : d.Sound n (d.planned m reply r) :=
  answered_sound h rfl fun _ => deliver_sound h rfl fun _ _ h _ _ _ =>
    advance_sound h rfl fun _ h => execute_sound h hu (Or.inl h.attempt) hn

theorem drafted_sound (text : PyStr) (h : d.In .execute k r.state)
    (hn : 2 * (d.maxAttempts - k) + 1 ≤ n) : d.Sound n (d.drafted m text r) := by
  refine deliver_sound h rfl fun s work h hkind hauthor _ => settled_sound h rfl fun _ =>
    advance_sound h rfl fun s h => ?_
  split
  · refine advance_sound h rfl fun s h => checkpoint_sound h rfl ?_
    exact ask_sound h rfl fun context htool =>
      ⟨⟨h.phase, rfl, htool d.reasoning.2, hkind, hauthor, r.store, rfl⟩, hn⟩
  · exact fail_sound h rfl _ _

theorem takeRecords_sound {next : DriverRun → DriverRun} :
    ∀ {records : List ToolRecord} {r : DriverRun}, d.In .execute k r.state →
      (∀ r, d.In .execute k r.state → d.Sound n (next r)) →
      d.Sound n (r.takeRecords m next records)
  | [], _, h, hnext => hnext _ h
  | record :: rest, r, h, hnext => by
      unfold DriverRun.takeRecords
      split
      · exact crash_sound h rfl _
      · exact takeRecords_sound h hnext

theorem executed_sound (reply : AgentReply) (records : List ToolRecord)
    (h : d.In .execute k r.state) (hn : 2 * (d.maxAttempts - k) + 1 ≤ n) :
    d.Sound n (d.executed m reply records r) := by
  unfold PlanReviewDriver.executed
  split
  · split
    · exact crash_sound h rfl _
    · refine takeRecords_sound h fun r h => answered_sound h rfl fun text => ?_
      exact settled_sound h rfl fun _ => drafted_sound text h hn
  · exact answered_sound h rfl fun text => drafted_sound text h hn

theorem retry_sound (h : d.In .reflect k r.state) (hu : r.unsettled = [])
    (hback : r.SentBack d) (hn : 2 * (d.maxAttempts - k) ≤ n) : d.Sound n (d.retry m r) := by
  unfold PlanReviewDriver.retry
  split
  next s hs =>
    have h : d.In .retry (k + 1) s := in_of_advance h hs
    have hspent : k + 1 ≤ d.maxAttempts := by
      rw [← h.limit, ← h.attempt]
      exact h.inv.lawful.attempt_le
    exact advance_sound h rfl fun s h => execute_sound h hu (Or.inr hback) (by simp; omega)
  next => exact fail_sound h rfl _ _
  next => exact crash_sound h rfl _

theorem reviewed_sound {draft : Draft} (reply : AgentReply) (h : d.In .reflect k r.state)
    (hdraft : r.Drafted draft.1 []) (hn : 2 * (d.maxAttempts - k) ≤ n) :
    d.Sound n (d.reviewed m draft reply r) := by
  refine answered_sound h rfl fun text => ?_
  split
  next => exact crash_sound h rfl _
  next => exact fail_sound h rfl _ _
  next verdict hverdict =>
    refine deliver_sound h rfl fun s work h hkind hauthor htext => settled_sound h rfl fun _ => ?_
    have hjudged : d.Judged verdict work := ⟨hkind, hauthor, htext ▸ hverdict⟩
    cases verdict with
    | revise => exact retry_sound h rfl ⟨r.store, work, rfl, hjudged⟩ hn
    | approve =>
        refine advance_sound h rfl fun s h => ?_
        unfold PlanReviewDriver.validated
        split
        next hvalid =>
          refine settled_sound h rfl fun hopen => advance_sound h rfl fun s h => ?_
          obtain ⟨hdraft, hreasoner, before, hstore⟩ := hdraft
          refine ⟨h.inv, h.limit, ⟨h.phase, ?_, rfl, hvalid, draft.1, work,
            ⟨hdraft, hreasoner, before, ?_⟩, rfl, hjudged⟩, Nat.zero_le n⟩
          · show (if r.controlled then m.control.abandonedCount else 0) = 0
            split
            next hcontrol => exact hopen hcontrol
            next => rfl
          · show r.store ++ [work] = _
            rw [hstore, List.append_assoc]
            rfl
        next => exact fail_sound h rfl _ _

/-- A step keeps what holds, and leaves fewer awaits. -/
theorem step_sound {a : PlanReviewDriver.DriverInput × Moment α} {r' : DriverRun}
    (h : d.Sound n r) (hstep : d.step a r = some r') :
    ∃ n', n' < d.left r.state.attempt r.place ∧ d.Sound n' r' := by
  have hat := h.place
  have hin : ∀ {p}, r.state.phase = p → d.In p r.state.attempt r.state :=
    fun hp => ⟨h.inv, h.limit, hp, rfl⟩
  unfold PlanReviewDriver.step at hstep
  split at hstep
  next hp _ =>
    rw [hp] at hat ⊢
    cases hstep
    obtain ⟨hphase, hu, hfirst, -⟩ := hat
    rw [hfirst] at hin ⊢
    exact ⟨_, Nat.lt_succ_self _, planned_sound _ (hin hphase) hu (Nat.le_refl _)⟩
  next hp _ =>
    rw [hp] at hat ⊢
    cases hstep
    exact ⟨_, Nat.lt_succ_self _, executed_sound _ _ (hin hat.1) (Nat.le_refl _)⟩
  next hp _ =>
    rw [hp] at hat ⊢
    cases hstep
    exact ⟨_, Nat.lt_succ_self _, reviewed_sound _ (hin hat.1) hat.2.2.2 (Nat.le_refl _)⟩
  next hp _ =>
    rw [hp] at hat ⊢
    cases hstep
    refine ⟨0, Nat.succ_pos _, ?_⟩
    split
    · exact cancel_sound (r := r.absorb _) (hin hat.1) rfl
    · exact cancel_sound (hin hat.1) rfl
  next agent _ _ _ hp _ =>
    rw [hp] at hat ⊢
    cases hstep
    cases agent with
    | planner => exact ⟨0, Nat.succ_pos _, cancel_sound (hin hat.1) rfl⟩
    | reasoner => exact ⟨0, Nat.succ_pos _, cancel_sound (hin hat.1) rfl⟩
    | reviewer draft => exact ⟨0, Nat.succ_pos _, cancel_sound (hin hat.1) rfl⟩
  next => cases hstep

theorem start_sound {runId task : PyStr} {given : Bool}
    (h : d.start m runId task given = some r) : d.Sound (2 * d.maxAttempts + 1) r := by
  obtain ⟨s, hs, rfl⟩ := Option.map_eq_some_iff.1 h
  obtain ⟨hinv, hlimit⟩ := start_inv hs
  have hrec := RunState.validate_eq_some.1 hs
  have hin : d.In .plan 1 s := ⟨hinv, hlimit, by rw [hrec], by rw [hrec]⟩
  have hmax : 1 ≤ d.maxAttempts := hlimit ▸ s.consistent.max_pos
  dsimp only
  split
  · exact checkpoint_sound hin rfl <| ask_sound hin rfl fun _ htool =>
      ⟨⟨hin.phase, rfl, hin.attempt, htool d.reasoning.1⟩, by
        simp only [PlanReviewDriver.left]
        omega⟩
  · exact fail_sound hin rfl _ _

end Phases

/-- A run asks an agent once to plan and at most twice an attempt; its state is
lawful, and wherever it stands, what has to hold there does. -/
theorem driver_sound {d : PlanReviewDriver} {m : Moment α} {runId task : PyStr} {given : Bool}
    {inputs : List (PlanReviewDriver.DriverInput × Moment α)} {r₀ r : DriverRun}
    (hstart : d.start m runId task given = some r₀) (hrun : run d.step inputs r₀ = some r) :
    inputs.length ≤ 2 * d.maxAttempts + 1 ∧ r.state.Lawful ∧ d.At r r.place := by
  have hkeep : ∀ (a : PlanReviewDriver.DriverInput × Moment α) r r', (∃ n, d.Sound n r) →
      d.step a r = some r' → ∃ n, d.Sound n r' := by
    intro a r r' ⟨n, h⟩ hstep
    obtain ⟨n', -, h'⟩ := step_sound h hstep
    exact ⟨n', h'⟩
  have hlower : ∀ (a : PlanReviewDriver.DriverInput × Moment α) r r', True →
      (∃ n, d.Sound n r) → d.step a r = some r' →
      d.left r'.state.attempt r'.place + true.toNat ≤ d.left r.state.attempt r.place := by
    intro a r r' _ ⟨n, h⟩ hstep
    obtain ⟨n', hlt, h'⟩ := step_sound h hstep
    exact Nat.lt_of_le_of_lt h'.left_le hlt
  have hsound := start_sound hstart
  obtain ⟨_, hend⟩ := run_preserves hkeep ⟨_, hsound⟩ hrun
  have hcount := countP_add_rank_le (fun a r r' _ => hkeep a r r') hlower
    (meets_of_forall _ fun _ _ _ => trivial) ⟨_, hsound⟩ hrun
  rw [List.countP_true] at hcount
  have hfirst := hsound.left_le
  exact ⟨by omega, hend.inv.lawful, hend.place⟩

/-- Three agents that read the question, and a validator with no objection. -/
def soloDriver : PlanReviewDriver where
  planner := { soloSpec with role := .planner }
  reasoner := soloSpec
  reviewer := { soloSpec with role := .reviewer }
  assigned _ := []
  maxAttempts := 2
  validator _ := []
  nextId n := "art-".toList ++ (toString n).toList
  digest _ := "0123456789ab".toList
  isWord := Text.isAlnum
  margin := 0
  roles := ⟨rfl, rfl, rfl⟩
  reasoning := ⟨rfl, rfl⟩

def soloMoment : Moment ToolExecutionResult := ⟨0, quietSys.controls 0⟩

def soloReplies : List (PlanReviewDriver.DriverInput × Moment ToolExecutionResult) :=
  ["plan", "first", "VERDICT: REVISE", "second", "VERDICT: APPROVE"].map fun text =>
    (.replied (.text text.toList) [], soloMoment)

theorem driver_sound_solo : ∃ r₀ r, soloDriver.start soloMoment "run-1".toList "why?".toList true
      = some r₀ ∧ run soloDriver.step soloReplies r₀ = some r
    ∧ r.state.Lawful ∧ soloDriver.At r (.returned (some "second".toList) 0 0) := by
  have hdone : ((soloDriver.start soloMoment "run-1".toList "why?".toList true).bind fun r₀ =>
      (run soloDriver.step soloReplies r₀).map fun r => match r.place with
        | .returned answer abandoned unsettled => (answer, abandoned, unsettled)
        | _ => (none, 0, 0)) = some (some "second".toList, 0, 0) := by decide +kernel
  obtain ⟨r₀, hstart, h⟩ := Option.bind_eq_some_iff.1 hdone
  obtain ⟨r, hrun, hend⟩ := Option.map_eq_some_iff.1 h
  obtain ⟨-, hlawful, hat⟩ := driver_sound hstart hrun
  refine ⟨r₀, r, hstart, hrun, hlawful, ?_⟩
  split at hend
  next hp =>
    cases hend
    rwa [hp] at hat
  next => cases hend

end Velune.Engine
