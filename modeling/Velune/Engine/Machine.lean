/-
The run state machine (`orchestration/engine/machine.py`): which phase
changes are legal, and nothing else. Pure functions over `RunState`,
each returning a new state or one of the errors below.

`_evolve` re-validates the changed record, so `MachineError.validation`
is a possible outcome of every operation as the code is written; that it
never happens on a reachable state is a theorem (Proofs/Machine.lean),
not a convention of the model.
-/
import Mathlib.Data.List.Sort
import Velune.State.RunState

namespace Velune.Engine

-- ===== errors

/-- Which of its three checks made `record_artifact` refuse. -/
inductive ArtifactFault
  | misplaced | duplicate | full
  deriving DecidableEq, Repr

/-- What an operation can raise. The first four are the typed errors of
`errors.py`; `abortTarget` is the `ValueError` that sends the caller to
`fail` or `cancel`; `validation` is pydantic's. -/
inductive MachineError
  | terminalState (source : RunPhase) (target : String)
  | illegalTransition (source target : RunPhase) (allowed : List RunPhase)
  | retryLimitExceeded (attempt maxAttempts : Nat)
  | invalidArtifact (fault : ArtifactFault)
  | abortTarget (target : RunPhase)
  | validation
  deriving DecidableEq, Repr

/-- `type(exc).__name__`. -/
def MachineError.className : MachineError → PyStr
  | .terminalState _ _ => "TerminalStateError".toList
  | .illegalTransition _ _ _ => "IllegalTransitionError".toList
  | .retryLimitExceeded _ _ => "RetryLimitExceeded".toList
  | .invalidArtifact _ => "InvalidArtifactError".toList
  | .abortTarget _ => "ValueError".toList
  | .validation => "ValidationError".toList

/-- The errors `errors.py` declares. -/
def MachineError.isTyped : MachineError → Bool
  | .abortTarget _ | .validation => false
  | _ => true

def MachineError.isTerminalState : MachineError → Bool
  | .terminalState _ _ => true
  | _ => false

-- ===== transitions

def aborts : List RunPhase := [.failed, .cancelled]

def transitions : RunPhase → List RunPhase
  | .plan => .execute :: aborts
  | .execute => .observe :: aborts
  | .observe => .reflect :: aborts
  | .reflect => .retry :: .validate :: aborts
  | .retry => .execute :: aborts
  | .validate => .finish :: aborts
  | .finish => []
  | .failed => []
  | .cancelled => []

/-- The phases `phase` may move to, in a stable order. -/
def allowedFrom (phase : RunPhase) : List RunPhase :=
  (transitions phase).insertionSort fun a b => a.value ≤ b.value

def canTransition (source target : RunPhase) : Bool := decide (target ∈ transitions source)

/-- `_evolve`: a validated copy. -/
def evolve (r : RunRecord) : Except MachineError RunState :=
  match RunState.validate r with
  | some s => .ok s
  | none => .error .validation

def check (s : RunState) (target : RunPhase) : Except MachineError Unit :=
  if s.phase.isTerminal then .error (.terminalState s.phase target.value)
  else if canTransition s.phase target = false then
    .error (.illegalTransition s.phase target (allowedFrom s.phase))
  else .ok ()

-- ===== operations

/-- Move to the next working phase (or FINISH). Entering RETRY is the
only step that spends an attempt. -/
def advance (s : RunState) (target : RunPhase) : Except MachineError RunState :=
  if target ∈ aborts then
    -- terminal first, so a finished run reports that and not the hint
    if s.phase.isTerminal then .error (.terminalState s.phase target.value)
    else .error (.abortTarget target)
  else do
    check s target
    if target = .retry then
      if s.attempt ≥ s.maxAttempts then
        .error (.retryLimitExceeded s.attempt s.maxAttempts)
      else
        evolve { s.toRunRecord with
          phase := target, attempt := s.attempt + 1, status := statusFor target
          trail := s.trail ++ [target] }
    else
      evolve { s.toRunRecord with
        phase := target, status := statusFor target, trail := s.trail ++ [target] }

def fail (s : RunState) (kind message : PyStr) : Except MachineError RunState := do
  check s .failed
  match RunFailure.validate kind (message.take SHORT_TEXT) with
  | none => .error .validation
  | some failure =>
      evolve { s.toRunRecord with
        phase := .failed, status := statusFor .failed, failure := some failure
        trail := s.trail ++ [.failed] }

def cancel (s : RunState) : Except MachineError RunState := do
  check s .cancelled
  evolve { s.toRunRecord with
    phase := .cancelled, status := statusFor .cancelled, trail := s.trail ++ [.cancelled] }

/-- Attach an artifact reference produced in the current phase of the
current attempt. -/
def recordArtifact (s : RunState) (a : RunArtifact) : Except MachineError RunState :=
  if s.phase.isTerminal then .error (.terminalState s.phase "record_artifact")
  else if a.phase ≠ s.phase ∨ a.attempt ≠ s.attempt then .error (.invalidArtifact .misplaced)
  else if s.artifacts.any fun item => item.artifactId == a.artifactId then
    .error (.invalidArtifact .duplicate)
  else if s.artifacts.length ≥ MAX_ARTIFACTS then .error (.invalidArtifact .full)
  else evolve { s.toRunRecord with artifacts := s.artifacts ++ [a] }

inductive MachineOp
  | advance (target : RunPhase)
  | fail (kind message : PyStr)
  | cancel
  | recordArtifact (artifact : RunArtifact)

def MachineOp.apply : MachineOp → RunState → Except MachineError RunState
  | .advance target, s => Engine.advance s target
  | .fail kind message, s => Engine.fail s kind message
  | .cancel, s => Engine.cancel s
  | .recordArtifact a, s => Engine.recordArtifact s a

/-- A call that succeeds, as a step of a run: a call that raises leaves
the caller with the state it had. -/
def machineStep (op : MachineOp) (s : RunState) : Option RunState := (op.apply s).toOption

end Velune.Engine
