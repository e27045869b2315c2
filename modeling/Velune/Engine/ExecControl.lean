/-
Per-run execution control for the trusted tool executor
(`orchestration/engine/execcontrol.py`): budgets, idempotency and
cancellation. Pure bookkeeping, one `RunControl` per run.

The objects the source passes around by reference live in the record
that owns them: a `Reservation` is an index into the ledger's
`reservations`, whose entry is its `_settled` flag, and an abandoned
task is kept by `track` as a pair of the task and the reservation its
callback will release. Clock readings are arguments, so nothing here
assumes a clock that moves forward.
-/
import Velune.Lib.Dict
import Velune.State.RunState

namespace Velune.Engine

open Lib

-- ===== budget

def MAX_TOOL_CALLS_LIMIT : Nat := 10000

def MAX_BYTES_LIMIT : Nat := 256 * 1024 * 1024

def MAX_CONCURRENCY_LIMIT : Nat := 8

/-- Immutable limits for one run, with the bounds their validator
checks. `wallClock` is in the ticks of the clock. -/
structure ExecutionBudget where
  maxToolCalls : Nat := 32
  maxArgumentBytes : Nat := 262144
  maxResultBytes : Nat := 1048576
  maxSingleResultBytes : Nat := 65536
  wallClock : Nat := 300
  maxConcurrent : Nat := 1
  maxModelCalls : Nat := 24
  maxProviderAttempts : Nat := 48
  toolCalls_ok : 0 < maxToolCalls ∧ maxToolCalls ≤ MAX_TOOL_CALLS_LIMIT := by decide
  argumentBytes_ok : 0 < maxArgumentBytes ∧ maxArgumentBytes ≤ MAX_BYTES_LIMIT := by decide
  resultBytes_ok : 0 < maxResultBytes ∧ maxResultBytes ≤ MAX_BYTES_LIMIT := by decide
  singleResult_ok :
    0 < maxSingleResultBytes ∧ maxSingleResultBytes ≤ MAX_BYTES_LIMIT := by decide
  wallClock_pos : 0 < wallClock := by decide
  concurrent_ok : 1 ≤ maxConcurrent ∧ maxConcurrent ≤ MAX_CONCURRENCY_LIMIT := by decide
  modelCalls_ok : 0 < maxModelCalls ∧ maxModelCalls ≤ MAX_TOOL_CALLS_LIMIT := by decide
  providerAttempts_ok :
    0 < maxProviderAttempts ∧ maxProviderAttempts ≤ MAX_TOOL_CALLS_LIMIT := by decide
  single_fits : maxSingleResultBytes ≤ maxResultBytes := by decide

inductive BudgetRefusal
  | deadline | calls | argumentBytes | resultBytes | concurrency
  deriving DecidableEq, Repr

inductive ModelCallRefusal
  | deadline | modelCalls | providerAttempts
  deriving DecidableEq, Repr

structure BudgetLedger where
  budget : ExecutionBudget
  deadline : Nat
  calls : Nat := 0
  argumentBytes : Nat := 0
  resultBytes : Nat := 0
  inFlight : Nat := 0
  modelCalls : Nat := 0
  providerAttempts : Nat := 0
  /-- The `_settled` flag of every `Reservation` handed out, oldest
  first. -/
  reservations : List Bool := []

namespace BudgetLedger

def pastDeadline (l : BudgetLedger) (now : Nat) : Bool := decide (l.deadline ≤ now)

def problem (l : BudgetLedger) (argumentBytes now : Nat) : Option BudgetRefusal :=
  if now ≥ l.deadline then some .deadline
  else if l.calls + 1 > l.budget.maxToolCalls then some .calls
  else if l.argumentBytes + argumentBytes > l.budget.maxArgumentBytes then some .argumentBytes
  else if l.resultBytes ≥ l.budget.maxResultBytes then some .resultBytes
  else if l.inFlight ≥ l.budget.maxConcurrent then some .concurrency
  else none

def check (l : BudgetLedger) (argumentBytes now : Nat) : Option BudgetRefusal :=
  l.problem argumentBytes now

/-- The ledger after one started call of `argumentBytes` is counted. -/
def started (l : BudgetLedger) (argumentBytes : Nat) : BudgetLedger :=
  { l with
    calls := l.calls + 1
    argumentBytes := l.argumentBytes + argumentBytes
    inFlight := l.inFlight + 1
    reservations := l.reservations ++ [false] }

/-- Check and count one started call; the reservation is the index of
its flag. -/
def reserve (l : BudgetLedger) (argumentBytes now : Nat) :
    Except BudgetRefusal (Nat × BudgetLedger) :=
  match l.problem argumentBytes now with
  | some refusal => .error refusal
  | none => .ok (l.reservations.length, l.started argumentBytes)

/-- `_settle`. -/
def settleBytes (l : BudgetLedger) (resultBytes : Nat) : BudgetLedger :=
  { l with inFlight := l.inFlight - 1, resultBytes := l.resultBytes + resultBytes }

/-- `Reservation.settle`: once; further settles are no-ops. -/
def settle (l : BudgetLedger) (reservation resultBytes : Nat) : BudgetLedger :=
  match l.reservations[reservation]? with
  | some false =>
      { l.settleBytes resultBytes with reservations := l.reservations.set reservation true }
  | _ => l

def release (l : BudgetLedger) (reservation : Nat) : BudgetLedger := l.settle reservation 0

def reserveModelCall (l : BudgetLedger) (now : Nat) : Option ModelCallRefusal × BudgetLedger :=
  if now ≥ l.deadline then (some .deadline, l)
  else if l.modelCalls + 1 > l.budget.maxModelCalls then (some .modelCalls, l)
  else if l.providerAttempts ≥ l.budget.maxProviderAttempts then (some .providerAttempts, l)
  else (none, { l with modelCalls := l.modelCalls + 1 })

/-- Reserve one provider attempt, immediately before the request. -/
def reserveProviderAttempt (l : BudgetLedger) : Bool × BudgetLedger :=
  if l.providerAttempts ≥ l.budget.maxProviderAttempts then (false, l)
  else (true, { l with providerAttempts := l.providerAttempts + 1 })

def noteProviderAttempts (l : BudgetLedger) (attempts : Int) : BudgetLedger :=
  { l with providerAttempts := l.providerAttempts + max 1 attempts.toNat }

def resultAllowance (l : BudgetLedger) : Nat :=
  min l.budget.maxSingleResultBytes (l.budget.maxResultBytes - l.resultBytes)

end BudgetLedger

-- ===== idempotency

inductive InvocationState
  | pending | completed | failed | cancelled | unknown
  deriving DecidableEq, Repr

/-- `_Entry`, over the type `α` of recorded results. -/
structure Entry (α : Type) where
  tool : PyStr
  callDigest : PyStr
  state : InvocationState := .pending
  result : Option α := none

/-- `ClaimKind`, with what a `Claim` of that kind carries. -/
inductive Claim (α : Type)
  | new
  | pending
  | settled (state : InvocationState) (result : Option α)
  | conflict

/-- One run's record of which request ids have been claimed, and what
became of them. -/
structure IdempotencyStore (α : Type) where
  runId : PyStr
  entries : Dict PyStr (Entry α)

namespace IdempotencyStore

variable {α : Type}

def fresh (runId : PyStr) : IdempotencyStore α := ⟨runId, Dict.empty⟩

def claim (st : IdempotencyStore α) (requestId tool callDigest : PyStr) :
    Claim α × IdempotencyStore α :=
  match st.entries requestId with
  | none =>
      (.new, { st with
        entries := st.entries.insert requestId { tool := tool, callDigest := callDigest } })
  | some entry =>
      if entry.tool ≠ tool ∨ entry.callDigest ≠ callDigest then (.conflict, st)
      else if entry.state = .pending then (.pending, st)
      else (.settled entry.state entry.result, st)

def settle (st : IdempotencyStore α) (requestId : PyStr) (state : InvocationState)
    (result : Option α) : IdempotencyStore α :=
  match st.entries requestId with
  | none => st
  | some entry =>
      if state = .pending then st
      else { st with
        entries := st.entries.insert requestId { entry with state := state, result := result } }

def release (st : IdempotencyStore α) (requestId : PyStr) : IdempotencyStore α :=
  match st.entries requestId with
  | none => st
  | some entry =>
      if entry.state = .pending then { st with entries := st.entries.erase requestId } else st

def stateOf (st : IdempotencyStore α) (requestId : PyStr) : Option InvocationState :=
  (st.entries requestId).map (·.state)

end IdempotencyStore

-- ===== control

/-- Everything the executor needs to bound and de-duplicate one run's
tool calls. `cancelled` is the token; `background` the abandoned tasks,
each with the reservation its callback releases. -/
structure RunControl (α : Type) where
  runId : PyStr
  budget : BudgetLedger
  cancelled : Bool := false
  store : IdempotencyStore α
  background : List (Nat × Nat) := []

namespace RunControl

variable {α : Type}

def create (runId : PyStr) (budget : ExecutionBudget) (now : Nat) : RunControl α :=
  { runId := runId
    budget := { budget := budget, deadline := now + budget.wallClock }
    store := IdempotencyStore.fresh runId }

/-- `token.cancel()`. -/
def cancel (c : RunControl α) : RunControl α := { c with cancelled := true }

/-- `track(task)`, and the callback that will release the reservation. -/
def track (c : RunControl α) (task reservation : Nat) : RunControl α :=
  { c with background := c.background ++ [(task, reservation)] }

/-- The callbacks of a finished abandoned task: it is no longer tracked,
and its reservation is released. -/
def finishBackground (c : RunControl α) (task reservation : Nat) : RunControl α :=
  { c with
    background := c.background.erase (task, reservation)
    budget := c.budget.release reservation }

def abandonedCount (c : RunControl α) : Nat := c.background.length

end RunControl

end Velune.Engine
