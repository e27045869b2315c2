/-
`TrustedToolExecutor.execute`, as a coroutine cut at its awaits. Each
segment runs without interruption on the event loop:

- `start`: from entry to the approval port, or to a result;
- `decided`: from the port's answer to the started tool, or to a result;
- `woken`, `directDone`: when the awaited tool call is looked at again,
  to the result;
- `cancelApproval`, `cancelWait`: `CancelledError` delivered at one of
  the two awaits.

A segment takes what it reads of the world (the port's answer, clock
readings, what the tool says about itself) as arguments. The two objects
it shares with other calls, the approval ledger and the run control, are
a `Shared` it returns changed. Every exit from the `try` goes through
`leave`, its `finally` clause; a segment that stops at an await does not.

The started `authorize_and_execute` is a task of its own (`ToolTask`):
it moves by itself, and the executor only looks at whether it is done.
-/
import Velune.Engine.ToolExec

namespace Velune.Engine

open Lib

-- ===== state

/-- How a started `authorize_and_execute` ended. `denied` is
`ActionDeniedError` or `ToolPermissionError`, whoever raised it. -/
inductive Ending
  | returned (raw : RawStr)
  | denied
  | raised
  | cancelled
  deriving DecidableEq, Repr

/-- The arguments of one `execute`; `allowed` is the resolved policy. -/
structure Arguments where
  call : ValidatedToolCall
  allowed : List PyStr
  runId : PyStr
  requestId : Option PyStr := none

def Arguments.key (a : Arguments) : PyStr := a.requestId.getD []

/-- `len(call.arguments_json.encode("utf-8"))`. -/
def ValidatedToolCall.argumentBytes (call : ValidatedToolCall) : Nat :=
  (Utf8.encode call.argumentsJson).length

/-- The locals of `execute` that its exits read. -/
structure Frame where
  call : ValidatedToolCall
  key : PyStr
  invocationId : PyStr := []
  executed : Bool := false
  claimed : Bool := false

/-- Where a call is: about to run, at one of its awaits (for the port's
answer about `request`, for the started tool), or over. -/
inductive CallState
  | ready
  | approval (f : Frame) (request : InvocationRequest)
  | tool (f : Frame) (task reservation : Nat)
  | direct (f : Frame) (task : Nat)
  | returned (r : ToolExecutionResult)
  | raised

/-- What a call shares with the others of its executor and of its run. -/
structure Shared where
  ledger : ApprovalLedger
  control : Option (RunControl ToolExecutionResult)

-- ===== exits

/-- The `finally` clause, as it touches the run control. -/
def Frame.leaveControl (f : Frame) (c : RunControl ToolExecutionResult) :
    RunControl ToolExecutionResult :=
  if f.claimed = true ∧ c.store.stateOf f.key = some .pending then
    -- we lost track of it: never leave a possibly-run call replayable
    if f.executed then { c with store := c.store.settle f.key .unknown none }
    else { c with store := c.store.release f.key }
  else c

/-- The `finally` clause of `execute`. -/
def Frame.leave (f : Frame) (sh : Shared) : Shared :=
  { ledger := if f.invocationId = [] then sh.ledger else sh.ledger.discard f.invocationId
    control := sh.control.map f.leaveControl }

/-- `return r` from inside the `try`. -/
def Frame.exit (f : Frame) (sh : Shared) (r : ToolExecutionResult) : CallState × Shared :=
  (.returned r, f.leave sh)

def Frame.cancelledBefore (f : Frame) (c : RunControl ToolExecutionResult) :
    ToolExecutionResult × RunControl ToolExecutionResult :=
  let r := cancelledResult f.call f.invocationId f.key
  (r, { c with store := c.store.settle f.key .cancelled (some r) })

-- ===== segments

/-- The guard in front of the `try`. -/
def malformedRequest (args : Arguments) (control : Option (RunControl ToolExecutionResult)) :
    Bool :=
  match control with
  | none => false
  | some c =>
      c.runId != args.runId
        || (match args.requestId with | none => true | some id => !isRequestId id)

def askApproval (f : Frame) (newId : PyStr) (now mintedFor : Nat) (sh : Shared) :
    CallState × Shared :=
  match sh.ledger.issue f.call.name f.call.callDigest newId now mintedFor with
  | none => f.exit sh (internalError f.call f.invocationId f.key f.executed)
  | some (request, ledger) =>
      (.approval { f with invocationId := request.invocationId } request,
        { sh with ledger := ledger })

/-- What a call reads of the world before it asks for approval. -/
structure StartEnv where
  lookup : Lookup
  newId : PyStr
  approvalNow : Nat
  budgetNow : Nat

/-- From entry to the approval port. `mintedFor` is the ghost name of
this call. -/
def start (h : Host) (args : Arguments) (env : StartEnv) (mintedFor : Nat) (sh : Shared) :
    CallState × Shared :=
  let call := args.call
  let f : Frame := { call := call, key := args.key }
  if malformedRequest args sh.control then (.returned (refusal call [] [] .malformed), sh)
  else
    match precheck h call args.allowed with
    | some e => f.exit sh (refusal call [] f.key e)
    | none =>
        match env.lookup with
        | .raises => f.exit sh (internalError call [] f.key false)
        | .absent => f.exit sh (refusal call [] f.key .unknownTool)
        | .found report =>
            match toolProblem report call with
            | some e => f.exit sh (refusal call [] f.key e)
            | none =>
                match sh.control with
                | none => askApproval f env.newId env.approvalNow mintedFor sh
                | some c =>
                    let (claim, store) := c.store.claim f.key call.name call.callDigest
                    match duplicate call f.key claim with
                    | some r => f.exit sh r
                    | none =>
                        let f := { f with claimed := true }
                        let c := { c with store := store }
                        let sh := { sh with control := some c }
                        if c.cancelled then
                          let (r, c) := f.cancelledBefore c
                          f.exit { sh with control := some c } r
                        else
                          match c.budget.check call.argumentBytes env.budgetNow with
                          | some e => f.exit sh (refusal call [] f.key (budgetCategory e))
                          | none => askApproval f env.newId env.approvalNow mintedFor sh

/-- `_context` succeeds: the tool names its permissions once more, and
only known ones. -/
def contextBuilds (permissions : Option (Finset PyStr)) : Bool :=
  match permissions with
  | none => false
  | some live => decide (live ⊆ toolPermissions)

/-- What a call reads of the world between the port's answer and the
start of its tool. An approver that raises is a `none` answer. -/
structure DecideEnv where
  answer : Option ApprovalDecision
  permissions : Option (Finset PyStr)
  approvalNow : Nat
  budgetNow : Nat

/-- From the port's answer to the started tool; `task` is the name the
started task will have. -/
def decided (f : Frame) (env : DecideEnv) (task : Nat) (sh : Shared) : CallState × Shared :=
  let (failure, ledger) := sh.ledger.consume env.answer env.approvalNow
  let sh := { sh with ledger := ledger }
  match failure with
  | some e => f.exit sh (refusal f.call f.invocationId f.key (approvalCategory e))
  | none =>
      match sh.control with
      | none =>
          let f := { f with executed := true }
          if contextBuilds env.permissions then (.direct f task, sh)
          else f.exit sh (internalError f.call f.invocationId f.key true)
      | some c =>
          if c.cancelled then
            let (r, c) := f.cancelledBefore c
            f.exit { sh with control := some c } r
          else
            match c.budget.reserve f.call.argumentBytes env.budgetNow with
            | .error e => f.exit sh (refusal f.call f.invocationId f.key (budgetCategory e))
            | .ok (reservation, budget) =>
                let f := { f with executed := true }
                let sh := { sh with control := some { c with budget := budget } }
                -- `_context` runs after the reservation and outside any handler of it
                if contextBuilds env.permissions then (.tool f task reservation, sh)
                else f.exit sh (internalError f.call f.invocationId f.key true)

def deniedBeforeEntry (ending : Ending) (checkPassed : Bool) : Bool :=
  ending == .denied && !checkPassed

/-- `_finish`; no result is an exception on the way to it. -/
def finish (h : Host) (f : Frame) (ending : Ending) (checkPassed : Bool) (reservation now : Nat)
    (c : RunControl ToolExecutionResult) :
    Option ToolExecutionResult × RunControl ToolExecutionResult :=
  match ending with
  | .cancelled =>
      let r := unknownResult f.call f.invocationId f.key .outcomeUnknown c.cancelled
      (some r, { c with store := c.store.settle f.key .unknown (some r) })
  | .returned raw =>
      let (bounded, truncated, original) := boundOutput h raw
      match RawStr.clean? bounded with
      | none => (none, c)
      | some text =>
          let (text, clipped) := clipBytes text c.budget.resultAllowance
          let budget := c.budget.settle reservation (Utf8.encode text).length
          let r := returnedResult f.call f.invocationId f.key (budget.pastDeadline now)
            c.cancelled (PyStr.raw text) (truncated || clipped) original
          (some r,
            { c with budget := budget, store := c.store.settle f.key .completed (some r) })
  | ending =>
      if deniedBeforeEntry ending checkPassed then
        (some (refusal f.call f.invocationId f.key .authorizationDenied),
          { c with store := c.store.release f.key })
      else
        let r := toolErrorResult f.call f.invocationId f.key c.cancelled
        (some r, { c with store := c.store.settle f.key .failed (some r) })

/-- The `finally` clause of `_run_controlled`: an abandoned task keeps
its slot until its callbacks run, any other gives it back now. -/
def settleSlot (abandoned : Bool) (task reservation : Nat) (c : RunControl ToolExecutionResult) :
    RunControl ToolExecutionResult :=
  if abandoned then c.track task reservation
  else { c with budget := c.budget.release reservation }

/-- The awaited task is looked at again: it is done, or the token was
set and the executor stops waiting for it. -/
def woken (h : Host) (f : Frame) (task reservation : Nat) (ending : Option Ending)
    (checkPassed : Bool) (now : Nat) (sh : Shared) : CallState × Shared :=
  match sh.control with
  | none => (.raised, sh)
  | some c =>
      match ending with
      | none =>
          let r := unknownResult f.call f.invocationId f.key .cancelRequestedDuringExecution true
          let c := { c with store := c.store.settle f.key .unknown (some r) }
          f.exit { sh with control := some (settleSlot true task reservation c) } r
      | some ending =>
          let (result, c) := finish h f ending checkPassed reservation now c
          f.exit { sh with control := some (settleSlot false task reservation c) }
            (result.getD (internalError f.call f.invocationId f.key true))

/-- `CancelledError` while the task is awaited. The tool is left
running. -/
def cancelWait (f : Frame) (task reservation : Nat) (ending : Option Ending) (sh : Shared) :
    CallState × Shared :=
  match sh.control with
  | none => (.raised, sh)
  | some c =>
      let r := unknownResult f.call f.invocationId f.key .outcomeUnknown true
      let c := { c with store := c.store.settle f.key .unknown (some r) }
      (.raised, f.leave { sh with
        control := some (settleSlot ending.isNone task reservation c) })

/-- `CancelledError` while the port is awaited. -/
def cancelApproval (f : Frame) (sh : Shared) : CallState × Shared := (.raised, f.leave sh)

/-- `_run`, without a control: the awaited tool ended. -/
def directDone (h : Host) (f : Frame) (ending : Ending) (checkPassed : Bool) (sh : Shared) :
    CallState × Shared :=
  match ending with
  | .cancelled => (.raised, f.leave sh)
  | .returned raw =>
      let (text, truncated, original) := boundOutput h raw
      f.exit sh (plainResult f.call f.invocationId text truncated original)
  | ending =>
      if deniedBeforeEntry ending checkPassed then
        f.exit sh (refusal f.call f.invocationId [] .authorizationDenied)
      else f.exit sh (toolErrorResult f.call f.invocationId [] false)

end Velune.Engine
