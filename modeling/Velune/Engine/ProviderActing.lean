/-
`ProviderActingInvoker.propose` (`engine_adapters/provider_acting.py`): one
call, with the task that `_attempt` makes for each request.

A step is what runs between two suspensions, and takes no time; time passes
between steps (`tick`). What the surroundings do is a label: the permit is
there and the gate replies, the provider answers, the caller cancels. The
timer of `asyncio.wait` may be late: a task that has got its permit may go
on before the timer that is due is looked at.

Times are exact numbers. What a response is turned into, the events kept
for diagnostics and the texts of failures are left out.
-/
import Mathlib.Data.Rat.Floor
import Velune.Lib.Runs

namespace Velune.Engine.ProviderActing

open Lib

-- ===== policies

structure ProviderRetryPolicy where
  maxAttempts : Nat := 3
  baseDelayS : Rat := 1 / 4
  maxDelayS : Rat := 4
  attempts_ok : 1 ≤ maxAttempts ∧ maxAttempts ≤ 5
  base_ok : 0 ≤ baseDelayS
  delays_ok : baseDelayS ≤ maxDelayS ∧ maxDelayS ≤ 60

def ProviderRetryPolicy.delay (policy : ProviderRetryPolicy) (attempt : Nat) : Rat :=
  min (policy.baseDelayS * (2 ^ attempt / 2)) policy.maxDelayS

/-- The kinds of failures `propose` itself chooses. -/
inductive Rejection
  | toolsMismatch | secretInRequest | requestTooLarge | providerError | rateLimited | authError
  | timeout | attemptBudget
  deriving DecidableEq, Repr

/-- `retry_after` of an exception, as `_delay` looks at it. -/
inductive RetryAfter
  /-- Missing, or no finite number. -/
  | unusable
  | number (s : Rat)
  /-- An integer that is no float: `math.isfinite` raises. -/
  | huge
  deriving DecidableEq

/-- An exception by the `isinstance` checks it passes. -/
structure ProviderException where
  isAuthentication : Bool := false
  isRateLimit : Bool := false
  isTimeout : Bool := false
  isTransient : Bool := false
  retryAfter : RetryAfter := .unusable
  deriving DecidableEq

def classifyProviderError (e : ProviderException) : Rejection × Bool :=
  if e.isAuthentication then (.authError, false)
  else if e.isRateLimit then (.rateLimited, true)
  else if e.isTimeout then (.timeout, true)
  else if e.isTransient then (.providerError, true)
  else (.providerError, false)

/-- `_delay`; the error is the `OverflowError`. -/
def delayOf (e : ProviderException) (policy : ProviderRetryPolicy) (attempt : Nat) :
    Except Unit (Option Rat) :=
  match e.retryAfter with
  | .unusable => .ok (some (policy.delay attempt))
  | .number s => .ok (if 0 ≤ s ∧ s ≤ policy.maxDelayS then some s else none)
  | .huge => .error ()

-- ===== states

/-- How `infer` ends. -/
inductive Ending (ρ : Type)
  | response (r : ρ)
  | exception (e : ProviderException)
  | cancelled
  /-- A `BaseException` that is no `Exception`. -/
  | fatal

/-- The task of an attempt: it waits for its permit, is in the request, or
is over; a denied reservation is the `_AttemptDenied`. -/
inductive Task (ρ : Type)
  | none
  | queued
  | inRequest
  | denied
  | ended (e : Ending ρ)

structure Result (ρ : Type) where
  outcome : ρ ⊕ Rejection
  attempts : Nat

inductive RaisedBy
  | cancellation | fatal | overflow
  deriving DecidableEq, Repr

inductive Phase (ρ : Type)
  | preparing
  | top
  /-- In `asyncio.wait`, with a timer at the deadline. -/
  | waiting
  /-- In `_reap`, after a cancellation or behind the deadline. -/
  | reaping (cancelled : Bool) (until_ : Rat)
  | handling (e : ProviderException)
  | sleeping (until_ : Rat)
  | returned (result : Result ρ)
  | raised (reason : RaisedBy)

inductive Event (ρ : Type)
  | reserve (granted : Bool)
  | send (at_ : Rat)
  | answer (e : Ending ρ)
  | wait (at_ delay : Rat)

structure State (ρ : Type) where
  now : Rat
  deadline : Rat
  phase : Phase ρ
  task : Task ρ
  attempts : Nat
  /-- Permits of the provider-wide gate that this call holds. -/
  permits : Nat
  log : List (Event ρ)

/-- What a call is made with; `gated` says that the request carries an
attempt gate. -/
structure Call where
  policy : ProviderRetryPolicy
  providerRetryAllowed : Bool
  timeoutS : Rat
  gated : Bool

def Call.maxAttempts (call : Call) : Nat :=
  if call.providerRetryAllowed then call.policy.maxAttempts else 1

def REAP_GRACE_S : Rat := 1

-- ===== steps

/-- What `reserve` does, if there is a gate. -/
inductive Reservation
  | absent
  | replies (granted : Bool)
  | raises (e : ProviderException)

inductive Label (ρ : Type)
  | tick (d : Rat)
  /-- Everything before the loop. -/
  | prepare (refusal : Option Rejection)
  /-- The top of the loop. -/
  | turn
  /-- The task has its permit, reserves and sends. -/
  | permit (reservation : Reservation)
  | answer (e : Ending ρ)
  /-- A cancelled task ends that waits for its permit. -/
  | unwind
  /-- `asyncio.wait` returns, with the task done or without. -/
  | resume
  | timeUp
  | cancel
  | reaped
  | giveUp
  /-- The last `except` clause. -/
  | handle
  | wake

variable {ρ : Type}

def Phase.isFinal : Phase ρ → Bool
  | .returned _ | .raised _ => true
  | _ => false

/-- Behind `_reap`. -/
def State.afterReap (s : State ρ) (cancelled : Bool) : State ρ :=
  { s with phase :=
    if cancelled then .raised .cancellation else .returned ⟨.inr .timeout, s.attempts⟩ }

/-- The last `except` clause of `propose`. -/
def State.handle (call : Call) (s : State ρ) (e : ProviderException) : State ρ :=
  let (kind, retryable) := classifyProviderError e
  match delayOf e call.policy s.attempts with
  | .error _ => { s with phase := .raised .overflow }
  | .ok none => { s with phase := .returned ⟨.inr kind, s.attempts⟩ }
  | .ok (some delay) =>
      if !retryable ∨ call.maxAttempts ≤ s.attempts ∨ s.deadline ≤ s.now + delay then
        { s with phase := .returned ⟨.inr kind, s.attempts⟩ }
      else { s with phase := .sleeping (s.now + delay), log := s.log ++ [.wait s.now delay] }

/-- `_guarded`, from its permit to `infer`. -/
def State.guarded (s : State ρ) : Reservation → State ρ
  | .absent =>
      { s with
        task := .inRequest
        attempts := s.attempts + 1
        permits := s.permits + 1
        log := s.log ++ [.send s.now] }
  | .replies true =>
      { s with
        task := .inRequest
        attempts := s.attempts + 1
        permits := s.permits + 1
        log := s.log ++ [.reserve true, .send s.now] }
  | .replies false => { s with task := .denied, log := s.log ++ [.reserve false] }
  | .raises e => { s with task := .ended (.exception e) }

/-- What `propose` does with a task that is done. -/
def State.resume (s : State ρ) : Option (State ρ) :=
  match s.task with
  | .denied => some { s with phase := .returned ⟨.inr .attemptBudget, s.attempts⟩ }
  | .ended (.response r) => some { s with phase := .returned ⟨.inl r, s.attempts⟩ }
  | .ended (.exception e) => some { s with phase := .handling e }
  | .ended .cancelled => some { s with phase := .raised .cancellation }
  | .ended .fatal => some { s with phase := .raised .fatal }
  | _ => none

def Reservation.suits (gated : Bool) : Reservation → Bool
  | .absent => !gated
  | _ => gated

def Task.isOver : Task ρ → Bool
  | .denied | .ended _ => true
  | _ => false

def step (call : Call) : Label ρ → State ρ → Option (State ρ)
  | .tick d, s => if 0 ≤ d then some { s with now := s.now + d } else none
  | .prepare refusal, s =>
      match s.phase, refusal with
      | .preparing, some kind => some { s with phase := .returned ⟨.inr kind, 0⟩ }
      | .preparing, none => some { s with phase := .top, deadline := s.now + call.timeoutS }
      | _, _ => none
  | .turn, s =>
      match s.phase with
      | .top =>
          if s.deadline - s.now ≤ 0 then
            some { s with phase := .returned ⟨.inr .timeout, s.attempts⟩ }
          else some { s with phase := .waiting, task := .queued }
      | _ => none
  | .permit reservation, s =>
      match s.phase, s.task with
      | .waiting, .queued =>
          if reservation.suits call.gated then some (s.guarded reservation) else none
      | _, _ => none
  | .answer e, s =>
      match s.task with
      | .inRequest =>
          some { s with task := .ended e, permits := s.permits - 1, log := s.log ++ [.answer e] }
      | _ => none
  | .unwind, s =>
      match s.phase, s.task with
      | .reaping _ _, .queued => some { s with task := .ended .cancelled }
      | _, _ => none
  | .resume, s =>
      match s.phase with
      | .waiting => s.resume
      | _ => none
  | .timeUp, s =>
      match s.phase with
      | .waiting =>
          if s.deadline ≤ s.now ∧ !s.task.isOver then
            some { s with phase := .reaping false (s.now + REAP_GRACE_S) }
          else none
      | _ => none
  | .cancel, s =>
      match s.phase with
      | .waiting => some { s with phase := .reaping true (s.now + REAP_GRACE_S) }
      | .sleeping _ => some { s with phase := .raised .cancellation }
      -- `_reap` swallows it, and waits no longer
      | .reaping cancelled _ => some (s.afterReap cancelled)
      | _ => none
  | .reaped, s =>
      match s.phase with
      | .reaping cancelled _ => if s.task.isOver then some (s.afterReap cancelled) else none
      | _ => none
  | .giveUp, s =>
      match s.phase with
      | .reaping cancelled until_ => if until_ ≤ s.now then some (s.afterReap cancelled) else none
      | _ => none
  | .handle, s =>
      match s.phase with
      | .handling e => some (s.handle call e)
      | _ => none
  | .wake, s =>
      match s.phase with
      | .sleeping until_ => if until_ ≤ s.now then some { s with phase := .top, task := .none } else none
      | _ => none

def State.begin (now : Rat) : State ρ where
  now := now
  deadline := now
  phase := .preparing
  task := .none
  attempts := 0
  permits := 0
  log := []

end Velune.Engine.ProviderActing
