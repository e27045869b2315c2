/-
The stage-agnostic sequencer (`council/runner.py`): the loop of
`StagedCouncilRunner.run`, one stage, the check of its output, and the
outcome of the run.

A run calls the `run` of a registered stage at most once, so what the
stage does in a run is one value, `Stage.reply`, after the trace events
it emitted. The clock is the sequence of its readings: the first when
the run starts, one more before each stage that is not skipped.

Where the source builds a result model outside every `try`, the model
keeps the `ValidationError` as an end of its own (`StageEnd.invalid`,
`RunEnd.crashed`).
-/
import Velune.Council.Stages

namespace Velune.Council

open Lib

variable {α : Type}

-- ===== interface

/-- What the `run` of a stage does, as the runner sees it. -/
inductive StageReply (α : Type)
  | raised (className : PyStr)
  | timedOut
  | cancelled
  | output (o : StageOutput α)

structure Emission where
  event : TraceEventKind
  seat : Option PyStr := none
  status : PyStr := []
  detail : PyStr := []

structure Stage (α : Type) where
  contract : StageContract
  emitted : List Emission := []
  reply : StageReply α

/-- The fields of a `CouncilRequest` that the runner reads. -/
structure CouncilRequest where
  requestId : PyStr
  profileId : PyStr := "general".toList
  depth : Depth := .standard
  wallBudget : Rat := 600

/-- `StagedCouncilRunner` after `_index`: a registered stage declares the
contract the policy has for it. -/
structure StagedCouncilRunner (α : Type) where
  registry : ProfileRegistry
  policy : VisibilityPolicy := {}
  stages : StageId → Option (Stage α)
  clock : Nat → Rat
  runId : PyStr
  digest : List TraceEvent → PyStr
  stages_ok : ∀ id st, stages id = some st → st.contract = policy.contract id

-- ===== contract checks

/-- A contract violation of `_validate`, by the message it is raised
with. -/
inductive StageContractViolation
  | answer (stage : StageId)
  | expectedSeat (seat : Slug)
  | seat (seat : Slug)
  | seatStage (result stage : StageId)
  | seatKind (seat : Slug) (kind : SeatKind) (stage : StageId)
  | duplicate (seat : Slug)
  | kind (stage : StageId) (kind : ArtifactKind)
  | author (author : Slug) (stage : StageId)
  | target (target : Slug)
  | undelivered (author : Slug)
  deriving DecidableEq

def StageContractViolation.message : StageContractViolation → PyStr
  | .answer st => st.value ++ " may not produce an answer".toList
  | .expectedSeat id => "unknown expected seat ".toList ++ id.val
  | .seat id => "unknown seat ".toList ++ id.val
  | .seatStage result st =>
      "seat result for ".toList ++ result.value ++ " returned from ".toList ++ st.value
  | .seatKind id k st =>
      "seat ".toList ++ id.val ++ " of kind ".toList ++ k.value ++ " may not act in ".toList
        ++ st.value
  | .duplicate id => "duplicate result for seat ".toList ++ id.val
  | .kind st k => st.value ++ " may not write ".toList ++ k.value ++ " artifacts".toList
  | .author id st => id.val ++ " may not author in ".toList ++ st.value
  | .target id => "unknown artifact target ".toList ++ id.val
  | .undelivered id => "artifact by ".toList ++ id.val ++ " without a delivered seat result".toList

/-- The check of one seat result; `seen` are the seats before it. -/
def checkSeat (profile : RoleProfile) (c : StageContract) (seen : List PyStr) (r : SeatResult α) :
    Option StageContractViolation :=
  match profile.seat r.seatId.val with
  | none => some (.seat r.seatId)
  | some spec =>
      if r.stage ≠ c.stage then some (.seatStage r.stage c.stage)
      else if spec.kind ≠ r.kind ∨ spec.kind ∉ c.seatKinds then
        some (.seatKind r.seatId spec.kind c.stage)
      else if seen.contains r.seatId.val then some (.duplicate r.seatId)
      else none

def checkSeats (profile : RoleProfile) (c : StageContract) :
    List PyStr → List (SeatResult α) → Option StageContractViolation
  | _, [] => none
  | seen, r :: rest =>
      (checkSeat profile c seen r).orElse fun _ =>
        checkSeats profile c (seen ++ [r.seatId.val]) rest

/-- The check of one artifact; `delivered` are the seats with a result. -/
def checkArtifact (profile : RoleProfile) (c : StageContract) (delivered : List PyStr)
    (fallbackUsed : Bool) (item : StageArtifact α) : Option StageContractViolation :=
  if item.kind ≠ c.writes ∧ item.kind ≠ .artifact then some (.kind c.stage item.kind)
  else if ¬ (profile.seat item.author.val).any (c.seatKinds.contains ·.kind) then
    some (.author item.author c.stage)
  else
    match item.target.filter (fun t => (profile.seat t.val).isNone) with
    | some t => some (.target t)
    | none =>
        if !delivered.contains item.author.val && !fallbackUsed then some (.undelivered item.author)
        else none

/-- `_validate`: the first violation, in the order the source looks for
them. -/
def validateOutput (profile : RoleProfile) (c : StageContract) (output : StageOutput α) :
    Option StageContractViolation :=
  if output.answer.isSome ∧ c.writes ≠ .answer then some (.answer c.stage)
  else
    let delivered := (output.seatResults.filter (·.ok)).map (·.seatId.val)
    ((output.expectedSeats.getD []).find? (fun s => (profile.seat s.val).isNone)).map
        StageContractViolation.expectedSeat
      |>.orElse fun _ => checkSeats profile c [] output.seatResults
      |>.orElse fun _ =>
        output.artifacts.findSome?
          (checkArtifact profile c delivered output.deterministicFallbackUsed)

-- ===== one stage

/-- How a stage ends for the loop: with a result, cancelled, or with a
result that could not be built. -/
inductive StageEnd (α : Type)
  | result (r : StageResult α) (s : CouncilState α)
  | cancelled (s : CouncilState α)
  | invalid

def StageEnd.ofResult (r : Option (StageResult α)) (s : CouncilState α) : StageEnd α :=
  match r with
  | some r => .result r s
  | none => .invalid

/-- `_unrunnable`: a stage without usable output is failed if required,
degraded if optional. -/
def unrunnable (c : StageContract) (notes : List PyStr) : Option (StageResult α) :=
  StageResult.validate
    { stage := c.stage
      status := if c.criticality = .required then .failed else .degraded
      degradations := notes }

def expectedSeats (profile : RoleProfile) (c : StageContract) (output : StageOutput α) :
    List PyStr :=
  match output.expectedSeats with
  | some seats => seats.map (·.val)
  | none => (profile.allSeats.filter fun s => c.seatKinds.contains s.kind).map (·.id)

/-- The status and the notes `_accept` derives for an output. -/
def acceptedStatus (profile : RoleProfile) (c : StageContract) (output : StageOutput α) :
    StageStatus × List PyStr :=
  deriveStageStatus (expectedSeats profile c output) output.seatResults
    (if c.quorumFromProfile then some profile.defaultQuorum else c.quorum) c.criticality

/-- The degradations of an accepted output: its own and the derived
notes, each once. -/
def acceptedNotes (profile : RoleProfile) (c : StageContract) (output : StageOutput α) :
    List PyStr :=
  (output.degradations ++ (acceptedStatus profile c output).2).eraseDups

def StageOutput.delivered (output : StageOutput α) : List Artifact :=
  output.artifacts.filterMap fun item =>
    if item.kind = .artifact then item.payload.artifact? else none

/-- `_accept`: commit the output and build the stage's result. -/
def accept (profile : RoleProfile) (c : StageContract) (output : StageOutput α)
    (s : CouncilState α) : StageEnd α :=
  let status := (acceptedStatus profile c output).1
  let events := output.seatResults.map fun r =>
    TraceEvent.make .seatResult (some c.stage) (some r.seatId.val) r.status.value []
  let s := { s with
    trace := s.trace ++ events
    store := s.store ++ output.stored c.stage
    artifacts := s.artifacts ++ output.delivered
    answer := output.answer.orElse fun _ => s.answer
    deterministicFallbackUsed := s.deterministicFallbackUsed || output.deterministicFallbackUsed }
  .ofResult
    (StageResult.validate
      { stage := c.stage
        status := status
        seatResults := output.seatResults
        artifacts := output.artifacts.map fun a => ⟨a.kind, a.author, a.target⟩
        degradations := acceptedNotes profile c output })
    (s.emit .stageFinished (some c.stage) none status.value [])

/-- `round(x, 3)` in thousandths, ties to even. -/
def thousandths (x : Rat) : Nat :=
  let n := (x * 1000).floor.toNat
  let rest := x * 1000 - n
  if rest < 1 / 2 ∨ (rest = 1 / 2 ∧ n % 2 = 0) then n else n + 1

/-- `f"{x:.3f}s"`, of a positive number of seconds. -/
def secondsText (x : Rat) : PyStr :=
  let n := thousandths x
  Nat.toDigits 10 (n / 1000) ++ ['.'] ++ ((Nat.toDigits 10 (n % 1000 + 1000)).drop 1) ++ ['s']

/-- `_run_stage`; `upcoming` are the planned stages after this one. -/
def runStage (R : StagedCouncilRunner α) (profile : RoleProfile) (stageId : StageId)
    (upcoming : List StageId) (remainingWall : Rat) (s : CouncilState α) : StageEnd α :=
  let c := R.policy.contract stageId
  match R.stages stageId with
  | none =>
      .ofResult (unrunnable c ["stage_not_registered:".toList ++ stageId.value])
        (s.emit .stageError (some stageId) none [] "stage_not_registered".toList)
  | some stage =>
      if remainingWall ≤ 0 then
        .ofResult (unrunnable c ["wall_budget_exhausted".toList])
          (s.emit .stageTimeout (some stageId) none [] "wall_budget_exhausted".toList)
      else
        let shareLeft := ((stageId :: upcoming).map fun id => (R.policy.contract id).budgetShare).sum
        let allowance := remainingWall * c.budgetShare / shareLeft
        let s := s.emit .stageStarted (some stageId) none [] []
        let s := { s with
          invoked := s.invoked ++ [stageId]
          trace := s.trace ++ stage.emitted.map fun e =>
            TraceEvent.make e.event (some c.stage) e.seat e.status e.detail }
        match stage.reply with
        | .cancelled => .cancelled s
        | .timedOut =>
            .ofResult (unrunnable c ["stage_timeout".toList])
              (s.emit .stageTimeout (some stageId) none [] (secondsText allowance))
        | .raised className =>
            .ofResult (unrunnable c ["stage_error:".toList ++ className])
              (s.emit .stageError (some stageId) none [] className)
        | .output output =>
            match validateOutput profile c output with
            | some violation =>
                .ofResult (unrunnable c ["contract_violation:".toList ++ violation.message])
                  (s.emit .contractViolation (some stageId) none [] violation.message)
            | none => accept profile c output s

-- ===== the loop

inductive PlanEnd (α : Type)
  | finished (s : CouncilState α)
  | cancelled (current : Option StageId) (s : CouncilState α)
  | invalid

def skipReason (failedStage : StageId) : PyStr := "upstream_failed:".toList ++ failedStage.value

def skippedResult (stageId failedStage : StageId) : Option (StageResult α) :=
  StageResult.validate
    { stage := stageId, status := .skipped, skippedReason := some (skipReason failedStage) }

/-- The wall-clock budget left before the `n`-th stage. -/
def remainingWall (R : StagedCouncilRunner α) (request : CouncilRequest) (n : Nat) : Rat :=
  request.wallBudget - (R.clock (n + 1) - R.clock 0)

/-- The loop of `run` from its `n`-th stage on. -/
def runPlan (R : StagedCouncilRunner α) (request : CouncilRequest) (profile : RoleProfile) :
    Nat → List StageId → Option StageId → CouncilState α → PlanEnd α
  | _, [], _, s => .finished s
  | n, stageId :: rest, some failedStage, s =>
      match skippedResult stageId failedStage with
      | none => .invalid
      | some result =>
          let s := s.emit .stageSkipped (some stageId) none [] (skipReason failedStage)
          runPlan R request profile (n + 1) rest (some failedStage)
            { s with stageResults := s.stageResults ++ [result] }
  | n, stageId :: rest, none, s =>
      match runStage R profile stageId rest (remainingWall R request n) s with
      | .invalid => .invalid
      | .cancelled s => .cancelled (some stageId) s
      | .result result s =>
          runPlan R request profile (n + 1) rest
            (if result.status = .failed then some stageId else none)
            { s with stageResults := s.stageResults ++ [result] }

-- ===== outcomes

/-- How `run` ends: it returns an outcome, raises `CouncilCancelled` with
one, refuses the caller before anything starts, or lets a validation
error out. The state is the run's last. -/
inductive RunEnd (α : Type)
  | returned (outcome : CouncilOutcome α) (s : CouncilState α)
  | cancelled (outcome : CouncilOutcome α) (s : CouncilState α)
  | refused
  | crashed

def outcome (R : StagedCouncilRunner α) (request : CouncilRequest) (profile : RoleProfile)
    (s : CouncilState α) (status : OutcomeStatus) (failure : Option PyStr) :
    Option (CouncilOutcome α) :=
  CouncilOutcome.validate
    { requestId := request.requestId
      profileId := profile.id
      domain := profile.domain
      status := status
      answer := if status.succeeded then s.answer else none
      artifacts := if status.succeeded then s.artifacts else []
      stageResults := s.stageResults
      degradations := (s.stageResults.flatMap (·.degradations)).eraseDups
      failureSummary := if status.succeeded then none else failure
      traceDigest := R.digest s.trace }

def failureSummary (stage : StageId) (notes : List PyStr) : PyStr :=
  stage.value ++ " failed: ".toList
    ++ (if notes = [] then "no usable output".toList else Text.join ", ".toList notes)

def finish (R : StagedCouncilRunner α) (request : CouncilRequest) (profile : RoleProfile)
    (s : CouncilState α) : RunEnd α :=
  let status := deriveOutcomeStatus s.stageResults s.deterministicFallbackUsed
  let s := s.emit .runFinished none none status.value []
  let failure := (s.stageResults.find? (·.status == .failed)).map fun first =>
    failureSummary first.stage first.degradations
  match outcome R request profile s status failure with
  | some o => .returned o s
  | none => .crashed

/-- `_cancelled_outcome`, raised as `CouncilCancelled`. -/
def cancelledOutcome (R : StagedCouncilRunner α) (request : CouncilRequest)
    (profile : RoleProfile) (current : Option StageId) (s : CouncilState α) : RunEnd α :=
  let detail := current.elim "between stages".toList (·.value)
  let s := s.emit .cancelled current none [] detail
  match outcome R request profile s .cancelled (some ("cancelled during ".toList ++ detail)) with
  | some o => .cancelled o s
  | none => .crashed

/-- The stages a run has planned: the caller's plan, or the plan of the
request's depth. -/
def plannedStages (request : CouncilRequest) (plan : Option (List StageId)) :
    Option (List StageId) :=
  match plan with
  | some plan => validatePlan plan
  | none => some (planForDepth request.depth)

def run (R : StagedCouncilRunner α) (request : CouncilRequest) (plan : Option (List StageId)) :
    RunEnd α :=
  match R.registry.requireRunnable request.profileId with
  | .error _ => .refused
  | .ok profile =>
      match plannedStages request plan with
      | none => .refused
      | some stages =>
          let s := ({} : CouncilState α).emit .runStarted none none []
            (R.runId ++ " plan=".toList ++ Text.join ",".toList (stages.map (·.value)))
          match runPlan R request profile 0 stages none s with
          | .finished s => finish R request profile s
          | .cancelled current s => cancelledOutcome R request profile current s
          | .invalid => .crashed

end Velune.Council
