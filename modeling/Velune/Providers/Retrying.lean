/-
`RetryingProvider` (`providers/retrying.py`) and `retry_async`
(`core/retry.py`) as it uses it: every call of `stream` and `infer` of
one provider, at one semaphore.

The wrapped provider is anything: an inner call delivers chunks, ends,
answers or raises as it likes, or never does. What a caller sees of an
exception is how the `except` clauses sort it. A step is what happens
between two suspensions; a caller that stops consuming takes no step.

A generator that is closed at a `yield` leaves the gate, but its inner
generator is only dropped: the event loop's finalizer closes it at some
later time, if it does (`collect`).
-/
import Velune.Lib.Permits
import Velune.Lib.Runs

namespace Velune.Providers.Retrying

open Lib

/-- What `__init__` is given, and how exceptions are sorted:
`asyncio.CancelledError`, the two `TimeoutError`s, `RETRYABLE_EXCEPTIONS`. -/
structure Settings (ε : Type) where
  maxAttempts : Int
  maxConcurrent : Int
  isCancelled : ε → Bool
  isTimeout : ε → Bool
  isRetryable : ε → Bool

inductive Kind
  | stream
  | infer
  deriving DecidableEq, Repr

/-- `asyncio.Semaphore(max(1, max_concurrent))`. -/
def Settings.permits {ε : Type} (cfg : Settings ε) : Nat := (max 1 cfg.maxConcurrent).toNat

/-- `stream` makes its first attempt whatever the bound is; `infer` goes
through `range(1, max_attempts + 1)`. -/
def Settings.admits {ε : Type} (cfg : Settings ε) (kind : Kind) : Bool :=
  kind = .stream || 1 ≤ cfg.maxAttempts

-- ===== inner calls

/-- How an inner call stands: it runs until it has ended, answered or
raised, was cancelled by `wait_for`, or was closed. -/
inductive Status (ρ ε : Type)
  | running
  | ended
  | answered (reply : ρ)
  | raised (e : ε)
  | timedOut
  | closed

structure Attempt (χ ρ ε : Type) where
  chunks : List χ := []
  status : Status ρ ε := .running

def Attempt.isRunning {χ ρ ε : Type} (attempt : Attempt χ ρ ε) : Bool :=
  match attempt.status with
  | .running => true
  | _ => false

/-- What the awaited inner call does next. A cancellation of the caller
reaches the inner call, which then does one of these. -/
inductive Outcome (χ ρ ε : Type)
  | chunk (chunk : χ)
  | ended
  | answered (reply : ρ)
  | raised (e : ε)
  | timedOut

-- ===== calls

/-- How a call ended; `timeout` is the `ProviderTimeoutError`, `asserted`
the failed assertion of a loop that made no attempt. -/
inductive Result (ρ ε : Type)
  | returned
  | answered (reply : ρ)
  | raised (e : ε)
  | timeout
  | cancelled
  | closed
  | asserted

/-- Where a call is: `waiting` at the gate, then inside it until `done`.
`suspended` is at a `yield`, `pulling` in `async for chunk in agen`. -/
inductive Phase (ρ ε : Type)
  | created
  | waiting
  | trying (attempt : Nat)
  | backoff (attempt : Nat)
  | suspended
  | pulling
  | done (result : Result ρ ε)

/-- One call, with its inner calls, the newest first, and what it has
yielded. -/
structure Call (χ ρ ε : Type) where
  kind : Kind
  phase : Phase ρ ε := .created
  attempts : List (Attempt χ ρ ε) := []
  yielded : List χ := []

variable {χ ρ ε : Type}

/-- The call is inside `async with self._concurrency_gate`. -/
def Phase.holds : Phase ρ ε → Bool
  | .trying _ => true
  | .backoff _ => true
  | .suspended => true
  | .pulling => true
  | _ => false

def Call.holds (c : Call χ ρ ε) : Bool := c.phase.holds

namespace Call

def enter (phase : Phase ρ ε) (c : Call χ ρ ε) : Call χ ρ ε := { c with phase := phase }

def begin (attempt : Nat) (c : Call χ ρ ε) : Call χ ρ ε :=
  { c with phase := .trying attempt, attempts := {} :: c.attempts }

def settle (status : Status ρ ε) (c : Call χ ρ ε) : Call χ ρ ε :=
  { c with attempts := c.attempts.modifyHead fun a => { a with status := status } }

def deliver (chunk : χ) (c : Call χ ρ ε) : Call χ ρ ε :=
  { c with
    phase := .suspended
    attempts := c.attempts.modifyHead fun a => { a with chunks := a.chunks ++ [chunk] }
    yielded := c.yielded ++ [chunk] }

def leave (result : Result ρ ε) (c : Call χ ρ ε) : Gate × Call χ ρ ε :=
  (.give, c.enter (.done result))

/-- `if attempt >= max_attempts: raise`, else the sleep before the next. -/
def again (cfg : Settings ε) (attempt : Nat) (result : Result ρ ε) (c : Call χ ρ ε) :
    Gate × Call χ ρ ε :=
  if cfg.maxAttempts ≤ attempt then c.leave result else (.keep, c.enter (.backoff attempt))

/-- `stream`, at the bounded wait for the first chunk. -/
def first (cfg : Settings ε) (attempt : Nat) (c : Call χ ρ ε) :
    Outcome χ ρ ε → Option (Gate × Call χ ρ ε)
  | .chunk chunk => some (.keep, c.deliver chunk)
  | .ended => some ((c.settle .ended).leave .returned)
  | .answered _ => none
  | .raised e =>
      let c := c.settle (.raised e)
      some <|
        if cfg.isCancelled e then c.leave (.raised e)
        else if cfg.isTimeout e then c.again cfg attempt .timeout
        else if cfg.isRetryable e then c.again cfg attempt (.raised e)
        else c.leave (.raised e)
  | .timedOut => some ((c.settle .timedOut).again cfg attempt .timeout)

/-- `stream`, once a chunk has been yielded. -/
def rest (c : Call χ ρ ε) : Outcome χ ρ ε → Option (Gate × Call χ ρ ε)
  | .chunk chunk => some (.keep, c.deliver chunk)
  | .ended => some ((c.settle .ended).leave .returned)
  | .raised e => some ((c.settle (.raised e)).leave (.raised e))
  | _ => none

/-- `retry_async`, with no bus, no loop detector and no callback. -/
def reply (cfg : Settings ε) (attempt : Nat) (c : Call χ ρ ε) :
    Outcome χ ρ ε → Option (Gate × Call χ ρ ε)
  | .answered reply => some ((c.settle (.answered reply)).leave (.answered reply))
  | .raised e =>
      let c := c.settle (.raised e)
      some <|
        if cfg.isCancelled e then c.leave (.raised e)
        else if cfg.isRetryable e then c.again cfg attempt (.raised e)
        else c.leave (.raised e)
  | _ => none

end Call

-- ===== system

/-- What can happen to a call: it is first run, gets its permit, its inner
call does something, its sleep is over, its caller asks for the next
chunk, closes it, or is cancelled outside the inner call; and its dropped
inner generator is closed. -/
inductive Move (χ ρ ε : Type)
  | start
  | acquire
  | outcome (outcome : Outcome χ ρ ε)
  | wake
  | next
  | close
  | cancel
  | collect

def Call.step (cfg : Settings ε) (c : Call χ ρ ε) : Move χ ρ ε → Option (Gate × Call χ ρ ε)
  | .start =>
      match c.phase with
      | .created => some (.keep, c.enter .waiting)
      | _ => none
  | .acquire =>
      match c.phase with
      | .waiting =>
          some (if cfg.admits c.kind then (.take, c.begin 1) else (.pass, c.enter (.done .asserted)))
      | _ => none
  | .outcome outcome =>
      match c.phase, c.kind with
      | .trying attempt, .stream => c.first cfg attempt outcome
      | .trying attempt, .infer => c.reply cfg attempt outcome
      | .pulling, _ => c.rest outcome
      | _, _ => none
  | .wake =>
      match c.phase with
      | .backoff attempt => some (.keep, c.begin (attempt + 1))
      | _ => none
  | .next =>
      match c.phase with
      | .suspended => some (.keep, c.enter .pulling)
      | _ => none
  | .close =>
      match c.phase with
      | .created => some (.keep, c.enter (.done .closed))
      | .suspended => some (c.leave .closed)
      | _ => none
  | .cancel =>
      match c.phase with
      | .created => some (.keep, c.enter (.done .cancelled))
      | .waiting => some (.keep, c.enter (.done .cancelled))
      | .backoff _ => some (c.leave .cancelled)
      | _ => none
  | .collect =>
      match c.phase, c.attempts with
      | .done _, a :: _ => if a.isRunning then some (.keep, c.settle .closed) else none
      | _, _ => none

structure Sys (χ ρ ε : Type) where
  value : Nat
  calls : List (Call χ ρ ε)

inductive Action (χ ρ ε : Type)
  | spawn (kind : Kind)
  | move (i : Nat) (move : Move χ ρ ε)

namespace Sys

def init (cfg : Settings ε) : Sys χ ρ ε := { value := cfg.permits, calls := [] }

def step (cfg : Settings ε) : Action χ ρ ε → Sys χ ρ ε → Option (Sys χ ρ ε)
  | .spawn kind, s => some { s with calls := s.calls ++ [{ kind := kind }] }
  | .move i move, s =>
      match s.calls[i]? with
      | none => none
      | some c =>
          match c.step cfg move with
          | none => none
          | some (gate, c') =>
              match gate.apply s.value with
              | none => none
              | some value => some { value := value, calls := s.calls.set i c' }

def running (s : Sys χ ρ ε) : Nat := (s.calls.flatMap Call.attempts).countP Attempt.isRunning

end Sys

end Velune.Providers.Retrying
