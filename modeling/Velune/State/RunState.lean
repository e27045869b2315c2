/-
The typed, immutable record of one engine run
(`orchestration/state/run_state.py`).

Every value type here is a structure that carries what its validator
checked, so a value the source could not have built cannot be built
here either. Where the source constructs one from loose fields (and may
raise), the model has a `validate` into `Option`: `none` is the
`ValidationError`.
-/
import Velune.Domain

namespace Velune.Engine

open Lib

-- ===== limits

def MAX_ATTEMPTS_LIMIT : Nat := 10

def MAX_ARTIFACTS : Nat := 256

/-- `max_length` of the short texts of failures. -/
def SHORT_TEXT : Nat := 300

/-- `[A-Za-z0-9._:-]`. -/
def isIdChar (c : Char) : Bool :=
  Text.isAlnum c || c == '.' || c == '_' || c == ':' || c == '-'

/-- `^[A-Za-z0-9][A-Za-z0-9._:-]{0,63}$`, the pattern `RunId`,
`ArtifactId` and `Identifier` share. -/
def isIdentifier : PyStr → Bool := Text.headed Text.isAlnum isIdChar 63

/-- `^[0-9a-f]{12,64}$`. -/
def isDigest : PyStr → Bool := Text.ranged Text.isHex 12 64

/-- `^[a-z][a-z0-9_]{0,39}$`, the pattern of a failure kind. -/
def isFailureKind : PyStr → Bool :=
  Text.headed Text.isLower (fun c => Text.isLower c || Text.isDigit c || c == '_') 39

-- ===== phases

/-- `RunPhase`: where a run is. -/
inductive RunPhase
  | plan | execute | observe | reflect | retry | validate | finish | failed | cancelled
  deriving DecidableEq, Repr

def RunPhase.value : RunPhase → String
  | .plan => "plan"
  | .execute => "execute"
  | .observe => "observe"
  | .reflect => "reflect"
  | .retry => "retry"
  | .validate => "validate"
  | .finish => "finish"
  | .failed => "failed"
  | .cancelled => "cancelled"

/-- Membership in `TERMINAL_PHASES`. -/
def RunPhase.isTerminal : RunPhase → Bool
  | .finish | .failed | .cancelled => true
  | _ => false

inductive RunStatus
  | running | succeeded | failed | cancelled
  deriving DecidableEq, Repr

/-- The status a run in `phase` must have: RUNNING until it reaches a
terminal phase. -/
def statusFor : RunPhase → RunStatus
  | .finish => .succeeded
  | .failed => .failed
  | .cancelled => .cancelled
  | _ => .running

-- ===== records

structure RunFailure where
  kind : PyStr
  message : PyStr
  kind_ok : isFailureKind kind = true
  message_short : message.length ≤ SHORT_TEXT
  deriving DecidableEq

def RunFailure.validate (kind message : PyStr) : Option RunFailure :=
  if hk : isFailureKind kind = true then
    if hm : message.length ≤ SHORT_TEXT then some ⟨kind, message, hk, hm⟩ else none
  else none

/-- A pointer to something the run produced; the content lives
elsewhere, addressed by digest. -/
structure RunArtifact where
  artifactId : PyStr
  kind : ArtifactKind
  author : AgentRole
  phase : RunPhase
  attempt : Nat
  digest : PyStr
  id_ok : isIdentifier artifactId = true
  attempt_pos : 1 ≤ attempt
  attempt_le : attempt ≤ MAX_ATTEMPTS_LIMIT
  digest_ok : isDigest digest = true
  deriving DecidableEq

def RunArtifact.validate (artifactId : PyStr) (kind : ArtifactKind) (author : AgentRole)
    (phase : RunPhase) (attempt : Nat) (digest : PyStr) : Option RunArtifact :=
  if h : isIdentifier artifactId = true ∧ 1 ≤ attempt ∧ attempt ≤ MAX_ATTEMPTS_LIMIT
      ∧ isDigest digest = true then
    some ⟨artifactId, kind, author, phase, attempt, digest, h.1, h.2.1, h.2.2.1, h.2.2.2⟩
  else none

/-- The fields of a `RunState`, before validation. -/
structure RunRecord where
  runId : PyStr
  phase : RunPhase := .plan
  attempt : Nat := 1
  maxAttempts : Nat := 3
  status : RunStatus := .running
  artifacts : List RunArtifact := []
  failure : Option RunFailure := none
  /-- Every phase the run has been in, oldest first. -/
  trail : List RunPhase := [.plan]
  deriving DecidableEq

/-- What validation checks of the fields: the declared bounds, then the
model validator `_consistent`, clause by clause. -/
structure RunRecord.Consistent (r : RunRecord) : Prop where
  runId_ok : isIdentifier r.runId = true
  attempt_pos : 1 ≤ r.attempt
  attempt_limit : r.attempt ≤ MAX_ATTEMPTS_LIMIT
  max_pos : 1 ≤ r.maxAttempts
  max_limit : r.maxAttempts ≤ MAX_ATTEMPTS_LIMIT
  artifacts_le : r.artifacts.length ≤ MAX_ARTIFACTS
  attempt_le : r.attempt ≤ r.maxAttempts
  status_eq : r.status = statusFor r.phase
  failure_iff : r.phase = .failed ↔ r.failure.isSome = true
  trail_last : r.trail.getLast? = some r.phase
  trail_working : ∀ p ∈ r.trail.dropLast, p.isTerminal = false
  artifacts_past : ∀ a ∈ r.artifacts, a.attempt ≤ r.attempt

instance (r : RunRecord) : Decidable r.Consistent :=
  decidable_of_iff
    (isIdentifier r.runId = true ∧ 1 ≤ r.attempt ∧ r.attempt ≤ MAX_ATTEMPTS_LIMIT
      ∧ 1 ≤ r.maxAttempts ∧ r.maxAttempts ≤ MAX_ATTEMPTS_LIMIT
      ∧ r.artifacts.length ≤ MAX_ARTIFACTS ∧ r.attempt ≤ r.maxAttempts
      ∧ r.status = statusFor r.phase ∧ (r.phase = .failed ↔ r.failure.isSome = true)
      ∧ r.trail.getLast? = some r.phase ∧ (∀ p ∈ r.trail.dropLast, p.isTerminal = false)
      ∧ ∀ a ∈ r.artifacts, a.attempt ≤ r.attempt)
    ⟨fun ⟨h1, h2, h3, h4, h5, h6, h7, h8, h9, h10, h11, h12⟩ =>
        ⟨h1, h2, h3, h4, h5, h6, h7, h8, h9, h10, h11, h12⟩,
      fun ⟨h1, h2, h3, h4, h5, h6, h7, h8, h9, h10, h11, h12⟩ =>
        ⟨h1, h2, h3, h4, h5, h6, h7, h8, h9, h10, h11, h12⟩⟩

/-- `RunState`: a record that passed validation. -/
structure RunState extends RunRecord where
  consistent : toRunRecord.Consistent

theorem RunState.ext_record {s t : RunState} (h : s.toRunRecord = t.toRunRecord) : s = t := by
  cases s
  cases t
  cases h
  rfl

instance : DecidableEq RunState := fun s t =>
  decidable_of_iff (s.toRunRecord = t.toRunRecord)
    ⟨RunState.ext_record, fun h => by rw [h]⟩

/-- `RunState.model_validate`. -/
def RunState.validate (r : RunRecord) : Option RunState :=
  if h : r.Consistent then some ⟨r, h⟩ else none

def RunState.isTerminal (s : RunState) : Bool := s.phase.isTerminal

def RunState.start (runId : PyStr) (maxAttempts : Nat) : Option RunState :=
  RunState.validate { runId := runId, maxAttempts := maxAttempts }

theorem RunState.validate_of_consistent {r : RunRecord} (h : r.Consistent) :
    RunState.validate r = some ⟨r, h⟩ := by
  unfold RunState.validate
  rw [dif_pos h]

theorem RunState.validate_eq_some {r : RunRecord} {s : RunState} :
    RunState.validate r = some s ↔ s.toRunRecord = r := by
  unfold RunState.validate
  split
  next h =>
    constructor
    · rintro ⟨⟩
      rfl
    · intro hs
      exact congrArg some (RunState.ext_record hs.symm)
  next h =>
    constructor
    · intro hs
      cases hs
    · intro hs
      exact absurd (hs ▸ s.consistent) h

end Velune.Engine
