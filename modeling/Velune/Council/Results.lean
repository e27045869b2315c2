/-
Seat, stage and run results and the derivation of their statuses
(`council/results.py`).

A result type here carries what its model validator checked. The source
builds `StageResult` and `CouncilOutcome` from loose fields and raises
when they do not fit; `validate` is that construction, and `none` is the
`ValidationError`.
-/
import Velune.Council.Domain

namespace Velune.Council

open Lib

/-- `max_length` of `ShortText`. -/
def SHORT_TEXT : Nat := 300

inductive SeatStatus
  | ok | timeout | providerError | authError | empty | unparseable | blocked | skipped | cancelled
  deriving DecidableEq, Repr

def SeatStatus.value : SeatStatus → PyStr
  | .ok => "ok".toList
  | .timeout => "timeout".toList
  | .providerError => "provider_error".toList
  | .authError => "auth_error".toList
  | .empty => "empty".toList
  | .unparseable => "unparseable".toList
  | .blocked => "blocked".toList
  | .skipped => "skipped".toList
  | .cancelled => "cancelled".toList

structure SeatError where
  kind : SeatStatus
  message : PyStr := []
  message_short : message.length ≤ SHORT_TEXT

variable {α : Type}

/-- What one seat did. Its payload, of any type, is there iff the seat
delivered. -/
structure SeatResult (α : Type) where
  seatId : Slug
  kind : SeatKind
  stage : StageId
  status : SeatStatus
  payload : Option α := none
  error : Option SeatError := none
  payload_iff : payload.isSome = true ↔ status = .ok
  error_failed : ∀ e ∈ error, status ≠ .ok ∧ e.kind ≠ .ok

def SeatResult.ok (r : SeatResult α) : Bool := r.status == .ok

-- ===== stage results

inductive StageStatus
  | completed | degraded | failed | skipped
  deriving DecidableEq, Repr

def StageStatus.value : StageStatus → PyStr
  | .completed => "completed".toList
  | .degraded => "degraded".toList
  | .failed => "failed".toList
  | .skipped => "skipped".toList

structure ArtifactRef where
  kind : ArtifactKind
  author : Slug
  target : Option Slug := none
  deriving DecidableEq

def truthy (s : Option PyStr) : Bool := s.any (· != [])

/-- The fields of a `StageResult`, before validation. -/
structure StageRecord (α : Type) where
  stage : StageId
  status : StageStatus
  seatResults : List (SeatResult α) := []
  artifacts : List ArtifactRef := []
  degradations : List PyStr := []
  skippedReason : Option PyStr := none

/-- What the validator of `StageResult` asks. -/
structure StageRecord.Valid (r : StageRecord α) : Prop where
  notes_short : ∀ note ∈ r.degradations, note.length ≤ SHORT_TEXT
  reason_short : ∀ reason ∈ r.skippedReason, reason.length ≤ SHORT_TEXT
  reason_iff : truthy r.skippedReason = true ↔ r.status = .skipped

instance (r : StageRecord α) : Decidable r.Valid :=
  decidable_of_iff ((∀ note ∈ r.degradations, note.length ≤ SHORT_TEXT)
      ∧ (∀ reason ∈ r.skippedReason, reason.length ≤ SHORT_TEXT)
      ∧ (truthy r.skippedReason = true ↔ r.status = .skipped))
    ⟨fun h => ⟨h.1, h.2.1, h.2.2⟩, fun h => ⟨h.1, h.2, h.3⟩⟩

structure StageResult (α : Type) extends StageRecord α where
  valid : toStageRecord.Valid

def StageResult.validate (r : StageRecord α) : Option (StageResult α) :=
  if h : r.Valid then some ⟨r, h⟩ else none

theorem StageResult.validate_of_valid {r : StageRecord α} (h : r.Valid) :
    StageResult.validate r = some ⟨r, h⟩ := dif_pos h

theorem StageResult.validate_of_not {r : StageRecord α} (h : ¬ r.Valid) :
    StageResult.validate r = none := dif_neg h

-- ===== outcomes

inductive OutcomeStatus
  | completed | degraded | failed | cancelled
  deriving DecidableEq, Repr

def OutcomeStatus.value : OutcomeStatus → PyStr
  | .completed => "completed".toList
  | .degraded => "degraded".toList
  | .failed => "failed".toList
  | .cancelled => "cancelled".toList

/-- A run that reached an end of its own with something to show. -/
def OutcomeStatus.succeeded : OutcomeStatus → Bool
  | .completed | .degraded => true
  | .failed | .cancelled => false

/-- An inert output of a council run (`contracts.Artifact`). -/
structure Artifact where
  kind : Slug
  mediaType : PyStr := "text/plain".toList
  content : PyStr
  mediaType_ok : 3 ≤ mediaType.length ∧ mediaType.length ≤ 80

/-- The fields of a `CouncilOutcome`, before validation. -/
structure OutcomeRecord (α : Type) where
  requestId : PyStr
  profileId : PyStr
  domain : CouncilDomain
  status : OutcomeStatus
  answer : Option PyStr := none
  artifacts : List Artifact := []
  stageResults : List (StageResult α) := []
  degradations : List PyStr := []
  failureSummary : Option PyStr := none
  traceDigest : PyStr := []

/-- What the validator of `CouncilOutcome` asks. -/
structure OutcomeRecord.Valid (r : OutcomeRecord α) : Prop where
  notes_short : ∀ note ∈ r.degradations, note.length ≤ SHORT_TEXT
  summary_short : ∀ summary ∈ r.failureSummary, summary.length ≤ SHORT_TEXT
  no_answer : r.status.succeeded = false → r.answer = none
  summary_given : r.status = .failed → truthy r.failureSummary = true
  no_summary : r.status.succeeded = true → r.failureSummary = none

instance (r : OutcomeRecord α) : Decidable r.Valid :=
  decidable_of_iff ((∀ note ∈ r.degradations, note.length ≤ SHORT_TEXT)
      ∧ (∀ summary ∈ r.failureSummary, summary.length ≤ SHORT_TEXT)
      ∧ (r.status.succeeded = false → r.answer = none)
      ∧ (r.status = .failed → truthy r.failureSummary = true)
      ∧ (r.status.succeeded = true → r.failureSummary = none))
    ⟨fun h => ⟨h.1, h.2.1, h.2.2.1, h.2.2.2.1, h.2.2.2.2⟩, fun h => ⟨h.1, h.2, h.3, h.4, h.5⟩⟩

structure CouncilOutcome (α : Type) extends OutcomeRecord α where
  valid : toOutcomeRecord.Valid

def CouncilOutcome.validate (r : OutcomeRecord α) : Option (CouncilOutcome α) :=
  if h : r.Valid then some ⟨r, h⟩ else none

theorem CouncilOutcome.validate_of_valid {r : OutcomeRecord α} (h : r.Valid) :
    CouncilOutcome.validate r = some ⟨r, h⟩ := dif_pos h

theorem CouncilOutcome.validate_of_not {r : OutcomeRecord α} (h : ¬ r.Valid) :
    CouncilOutcome.validate r = none := dif_neg h

-- ===== derived statuses

/-- `quorum_met`: enough distinct seats delivered, and one of those the
rule insists on. -/
def quorumMet (quorum : QuorumRule) (okSeatIds : List PyStr) : Bool :=
  decide (quorum.minOk ≤ okSeatIds.eraseDups.length)
    && (quorum.requireAnyOf.isEmpty || quorum.requireAnyOf.any (okSeatIds.contains ·))

/-- `derive_stage_status`: the status of a stage that ran, with the
notes that explain it. -/
def deriveStageStatus (expectedSeats : List PyStr) (seatResults : List (SeatResult α))
    (quorum : Option QuorumRule) (criticality : Criticality) : StageStatus × List PyStr :=
  let okIds := (seatResults.filter (·.ok)).map (·.seatId.val)
  let missing := expectedSeats.filter (!okIds.contains ·)
  let notes := missing.map ("seat_unavailable:".toList ++ ·)
  if quorumMet (quorum.getD { minOk := expectedSeats.length }) okIds then
    (if missing.isEmpty then .completed else .degraded, notes)
  else
    (if criticality = .required then .failed else .degraded,
      notes ++ ["quorum_not_met".toList])

/-- `derive_outcome_status`: failed over degraded over completed. A run
that was cancelled is not asked. -/
def deriveOutcomeStatus (stageResults : List (StageResult α)) (fallbackUsed : Bool) :
    OutcomeStatus :=
  if stageResults.any (·.status == .failed) then .failed
  else if stageResults.any (·.status == .degraded) || fallbackUsed then .degraded
  else .completed

end Velune.Council
