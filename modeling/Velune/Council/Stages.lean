/-
Stage contracts R0 to R5 as data, the depth plans, and what a stage
hands back (`council/stages.py`); the trace and the per-run state the
runner keeps (`council/trace.py`, `council/state.py`).

A clock reading and a share of the budget are rational numbers: the
source's are floats, which it only divides, compares with zero and
prints.
-/
import Velune.Council.Results
import Mathlib.Data.List.Dedup
import Mathlib.Data.List.Sort
import Mathlib.Data.Rat.Floor

namespace Velune.Council

open Lib

-- ===== contracts

structure ReadRule where
  kind : ArtifactKind
  scope : ReadScope
  deriving DecidableEq, Repr

/-- Which seats may act in a stage, what they may read, what they write
and what happens when they cannot. -/
structure StageContract where
  stage : StageId
  seatKinds : List SeatKind
  reads : List ReadRule
  writes : ArtifactKind
  parallel : Bool
  criticality : Criticality
  quorum : Option QuorumRule := none
  quorumFromProfile : Bool := false
  fallback : FallbackPolicy := .none
  budgetShare : Rat
  seatKinds_ok : seatKinds ≠ []
  share_ok : 0 < budgetShare ∧ budgetShare ≤ 1
  quorum_ok : quorum = none ∨ quorumFromProfile = false
  deriving DecidableEq

/-- `_rules`. -/
def readRules (pairs : List (ArtifactKind × ReadScope)) : List ReadRule :=
  pairs.map fun p => ⟨p.1, p.2⟩

def STAGE_CONTRACTS : StageId → StageContract
  | .frame =>
      { stage := .frame, seatKinds := [.moderator]
        reads := readRules [(.question, .all)]
        writes := .frame, parallel := false, criticality := .optional
        fallback := .deterministicDefault, budgetShare := 5 / 100
        seatKinds_ok := by decide, share_ok := by norm_num, quorum_ok := Or.inl rfl }
  | .perspectives =>
      { stage := .perspectives, seatKinds := [.perspective]
        reads := readRules [(.question, .all), (.frame, .all), (.evidence, .all),
          (.perspective, .none)]
        writes := .perspective, parallel := true, criticality := .required
        quorumFromProfile := true, budgetShare := 25 / 100
        seatKinds_ok := by decide, share_ok := by norm_num, quorum_ok := Or.inl rfl }
  | .review =>
      { stage := .review, seatKinds := [.perspective]
        reads := readRules [(.question, .all), (.frame, .all), (.evidence, .all),
          (.perspective, .own), (.perspective, .assigned), (.perspective, .digestAll)]
        writes := .critique, parallel := true, criticality := .optional
        fallback := .skip, budgetShare := 20 / 100
        seatKinds_ok := by decide, share_ok := by norm_num, quorum_ok := Or.inl rfl }
  | .revision =>
      { stage := .revision, seatKinds := [.perspective]
        reads := readRules [(.question, .all), (.frame, .all), (.evidence, .all),
          (.perspective, .own), (.critique, .addressedToSelf)]
        writes := .revision, parallel := true, criticality := .optional
        fallback := .deterministicDefault, budgetShare := 20 / 100
        seatKinds_ok := by decide, share_ok := by norm_num, quorum_ok := Or.inl rfl }
  | .arbitration =>
      { stage := .arbitration, seatKinds := [.arbitrator]
        reads := readRules [(.question, .all), (.frame, .all), (.evidence, .all),
          (.perspective, .all), (.critique, .all), (.revision, .all)]
        writes := .decision, parallel := false, criticality := .required
        fallback := .deterministicDefault, budgetShare := 15 / 100
        seatKinds_ok := by decide, share_ok := by norm_num, quorum_ok := Or.inl rfl }
  | .synthesis =>
      { stage := .synthesis, seatKinds := [.synthesizer]
        reads := readRules [(.question, .all), (.frame, .all), (.decision, .all),
          (.perspective, .digestAll), (.revision, .digestAll)]
        writes := .answer, parallel := false, criticality := .required
        fallback := .deterministicDefault, budgetShare := 15 / 100
        seatKinds_ok := by decide, share_ok := by norm_num, quorum_ok := Or.inl rfl }

/-- What each stage may do, by default `STAGE_CONTRACTS`. -/
structure VisibilityPolicy where
  contract : StageId → StageContract := STAGE_CONTRACTS
  stage_eq : ∀ s, (contract s).stage = s := by
    intro s
    cases s <;> rfl

-- ===== plans

/-- `StagePlan.for_depth`. -/
def planForDepth : Depth → List StageId
  | .quick => STAGE_ORDER.filter fun s => !([.review, .revision] : List StageId).contains s
  | .standard => STAGE_ORDER

/-- `validate_plan`: a plan is non-empty and lists protocol stages in
order, without repeats. `none` is the `ValueError`. -/
def validatePlan (plan : List StageId) : Option (List StageId) :=
  let positions := plan.map STAGE_ORDER.idxOf
  if plan = [] then none
  else if positions = positions.dedup.insertionSort (· ≤ ·) then some plan
  else none

theorem validatePlan_eq_some {plan stages : List StageId} (h : validatePlan plan = some stages) :
    stages = plan ∧ stages.Nodup := by
  by_cases hnil : plan = []
  · rw [validatePlan, if_pos hnil] at h
    cases h
  rw [validatePlan, if_neg hnil] at h
  by_cases hpos : plan.map STAGE_ORDER.idxOf
      = (plan.map STAGE_ORDER.idxOf).dedup.insertionSort (· ≤ ·)
  · rw [if_pos hpos] at h
    have hnodup : (plan.map STAGE_ORDER.idxOf).Nodup := by
      rw [hpos]
      exact (List.perm_insertionSort _ _).nodup_iff.2 (List.nodup_dedup _)
    exact ⟨(Option.some.inj h).symm, Option.some.inj h ▸ List.Nodup.of_map _ hnodup⟩
  · rw [if_neg hpos] at h
    cases h

-- ===== stage output

/-- The payload of an artifact: an inert `Artifact`, or a value of any
other type. -/
inductive Payload (α : Type)
  | artifact (a : Artifact)
  | other (x : α)

variable {α : Type}

/-- `isinstance(payload, Artifact)`. -/
def Payload.artifact? : Payload α → Option Artifact
  | .artifact a => some a
  | .other _ => none

structure StageArtifact (α : Type) where
  kind : ArtifactKind
  author : Slug
  target : Option Slug := none
  payload : Payload α

/-- What a stage hands back. `expectedSeats` are the seats it meant to
hear from; `none` means every profile seat of an allowed kind. -/
structure StageOutput (α : Type) where
  seatResults : List (SeatResult α) := []
  artifacts : List (StageArtifact α) := []
  degradations : List PyStr := []
  answer : Option PyStr := none
  expectedSeats : Option (List Slug) := none
  deterministicFallbackUsed : Bool := false

-- ===== trace

inductive TraceEventKind
  | runStarted | stageStarted | seatResult | stageFinished | stageSkipped | stageError
  | stageTimeout | contractViolation | cancelled | runFinished | seatRepair | seatFallback
  | frameFallback | seatError
  deriving DecidableEq, Repr

/-- An event of the trace; its number is its place in the trace. -/
structure TraceEvent where
  event : TraceEventKind
  stage : Option StageId := none
  seat : Option PyStr := none
  status : PyStr := []
  detail : PyStr := []
  detail_short : detail.length ≤ 300

/-- `TraceLog.emit`, which cuts the detail to what an event may hold. -/
def TraceEvent.make (event : TraceEventKind) (stage : Option StageId) (seat : Option PyStr)
    (status detail : PyStr) : TraceEvent where
  event := event
  stage := stage
  seat := seat
  status := status
  detail := detail.take 300
  detail_short := List.length_take_le _ _

-- ===== state

/-- An artifact in the store, with the stage that wrote it. -/
structure StoredArtifact (α : Type) where
  kind : ArtifactKind
  stage : StageId
  author : PyStr
  target : Option PyStr
  payload : Payload α

/-- Mutable per-run state, owned by the runner. `invoked` is no field of
the source: it lists the stages whose `run` was called. -/
structure CouncilState (α : Type) where
  trace : List TraceEvent := []
  store : List (StoredArtifact α) := []
  stageResults : List (StageResult α) := []
  artifacts : List Artifact := []
  answer : Option PyStr := none
  deterministicFallbackUsed : Bool := false
  invoked : List StageId := []

def CouncilState.emit (s : CouncilState α) (event : TraceEventKind) (stage : Option StageId)
    (seat : Option PyStr) (status detail : PyStr) : CouncilState α :=
  { s with trace := s.trace ++ [TraceEvent.make event stage seat status detail] }

/-- `CouncilState.commit`: what enters the store of one stage's output. -/
def StageOutput.stored (stage : StageId) (output : StageOutput α) : List (StoredArtifact α) :=
  output.artifacts.map fun item =>
    { kind := item.kind, stage := stage, author := item.author.val
      target := item.target.map (·.val), payload := item.payload }

end Velune.Council
