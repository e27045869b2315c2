/-
Every interleaving of `execute` calls: any number of executors (an
executor is its approval ledger here), any number of run controls, any
number of calls that share them in any pattern, and the tool tasks the
calls started. One action is one uninterrupted stretch of one of them.

What the world decides is in the actions, unconstrained: what a registry
lookup finds, which ids the id source mints, what the port answers,
which way a tool ends and when, what a clock reads, when a token is set
and when a task is cancelled from outside.

Three ghost fields of a call record what the theorems speak of and
nothing here reads: the invocation minted for it, what the port answered
to it, and whose invocation its started tool spent.
-/
import Velune.Engine.Execute
import Velune.Lib.Runs

namespace Velune.Engine

open Lib

-- ===== state

/-- One call of `execute`. -/
structure Call where
  executor : Nat
  control : Option Nat
  args : Arguments
  state : CallState := .ready
  minted : Option InvocationRequest := none
  answer : Option ApprovalDecision := none
  spent : Option Nat := none

/-- One started `authorize_and_execute`. `checkPassed` is the flag of
its `_ProbedGate`; `entered` is whether the tool body was entered. -/
structure ToolTask where
  owner : Nat
  scope : Option (Nat × PyStr)
  checkPassed : Bool := false
  entered : Bool := false
  ending : Option Ending := none

structure Sys where
  ledgers : Nat → ApprovalLedger
  controls : Nat → RunControl ToolExecutionResult
  calls : List Call := []
  tasks : List ToolTask := []

inductive Action
  /-- A call is made; nothing of it has run yet. -/
  | invoke (executor : Nat) (control : Option Nat) (args : Arguments)
  | start (i : Nat) (env : StartEnv)
  | decide (i : Nat) (env : DecideEnv)
  | cancelApproval (i : Nat)
  /-- The awaited task is looked at again. -/
  | wake (i : Nat) (now : Nat)
  | cancelWait (i : Nat)
  /-- The gate of a started task lets it pass. -/
  | passGate (t : Nat)
  | enterBody (t : Nat)
  | endTask (t : Nat) (ending : Ending)
  /-- The callbacks of a finished abandoned task. -/
  | callbacks (k : Nat) (task reservation : Nat)
  | cancelToken (k : Nat)
  | modelCall (k : Nat) (now : Nat)
  | providerAttempt (k : Nat)
  | noteAttempts (k : Nat) (attempts : Int)

namespace Sys

/-- What call `c` shares. -/
def shared (s : Sys) (c : Call) : Shared :=
  ⟨s.ledgers c.executor, c.control.map s.controls⟩

/-- Write back what a segment of call `i` changed. -/
def put (s : Sys) (i : Nat) (c : Call) (sh : Shared) : Sys :=
  { s with
    calls := s.calls.set i c
    ledgers := Function.update s.ledgers c.executor sh.ledger
    controls :=
      match c.control, sh.control with
      | some k, some rc => Function.update s.controls k rc
      | _, _ => s.controls }

/-- Change run control `k`. -/
def onControl (s : Sys) (k : Nat)
    (f : RunControl ToolExecutionResult → RunControl ToolExecutionResult) : Sys :=
  { s with controls := Function.update s.controls k (f (s.controls k)) }

def onBudget (s : Sys) (k : Nat) (f : BudgetLedger → BudgetLedger) : Sys :=
  s.onControl k fun c => { c with budget := f c.budget }

def onTask (s : Sys) (t : Nat) (f : ToolTask → ToolTask) : Sys :=
  { s with tasks := s.tasks.modify t f }

end Sys

-- ===== steps

def CallState.asked : CallState → Option InvocationRequest
  | .approval _ request => some request
  | _ => none

/-- Whose pending invocation `answer` names. -/
def spentBy (l : ApprovalLedger) (answer : Option ApprovalDecision) : Option Nat :=
  answer.bind fun d => (l.pending d.invocationId).map (·.mintedFor)

/-- The task a segment started, if it stopped at the tool's await. -/
def launched (i : Nat) (c : Call) : CallState → List ToolTask
  | .tool f _ _ => [{ owner := i, scope := c.control.map fun k => (k, f.key) }]
  | .direct _ _ => [{ owner := i, scope := none }]
  | _ => []

def CallState.isStarted : CallState → Bool
  | .tool _ _ _ | .direct _ _ => true
  | _ => false

variable (h : Host)

/-- The first segment of call `i`. -/
def stepStart (i : Nat) (env : StartEnv) (c : Call) (s : Sys) : Option Sys :=
  match c.state with
  | .ready =>
      let (state, sh) := start h c.args env i (s.shared c)
      some (s.put i { c with state := state, minted := state.asked } sh)
  | _ => none

/-- The segment after the port's answer to call `i`. -/
def stepDecide (i : Nat) (env : DecideEnv) (c : Call) (s : Sys) : Option Sys :=
  match c.state with
  | .approval f _ =>
      let (state, sh) := decided f env s.tasks.length (s.shared c)
      let spent := if state.isStarted then spentBy (s.ledgers c.executor) env.answer else none
      let s := s.put i { c with state := state, answer := env.answer, spent := spent } sh
      some { s with tasks := s.tasks ++ launched i c state }
  | _ => none

/-- Call `i` looks at its task again: the task is done, or the token of
the run is set. -/
def stepWake (i : Nat) (now : Nat) (c : Call) (s : Sys) : Option Sys :=
  match c.state with
  | .tool f task reservation =>
      match s.tasks[task]? with
      | none => none
      | some t =>
          if t.ending.isSome ∨ ∃ k ∈ c.control, (s.controls k).cancelled = true then
            let (state, sh) := woken h f task reservation t.ending t.checkPassed now (s.shared c)
            some (s.put i { c with state := state } sh)
          else none
  | .direct f task =>
      match s.tasks[task]? with
      | none => none
      | some t =>
          match t.ending with
          | none => none
          | some ending =>
              let (state, sh) := directDone h f ending t.checkPassed (s.shared c)
              some (s.put i { c with state := state } sh)
  | _ => none

/-- `CancelledError` delivered to call `i` at the port. -/
def stepCancelApproval (i : Nat) (c : Call) (s : Sys) : Option Sys :=
  match c.state with
  | .approval f _ =>
      let (state, sh) := Engine.cancelApproval f (s.shared c)
      some (s.put i { c with state := state } sh)
  | _ => none

/-- `CancelledError` delivered to call `i` while it waits for its tool.
Without a control it goes to the tool instead. -/
def stepCancelWait (i : Nat) (c : Call) (s : Sys) : Option Sys :=
  match c.state with
  | .tool f task reservation =>
      match s.tasks[task]? with
      | none => none
      | some t =>
          let (state, sh) := Engine.cancelWait f task reservation t.ending (s.shared c)
          some (s.put i { c with state := state } sh)
  | _ => none

def stepTask (t : Nat) (allowed : ToolTask → Bool) (f : ToolTask → ToolTask) (s : Sys) :
    Option Sys :=
  match s.tasks[t]? with
  | none => none
  | some task => if task.ending.isNone && allowed task then some (s.onTask t f) else none

def stepCallbacks (k task reservation : Nat) (s : Sys) : Option Sys :=
  match s.tasks[task]? with
  | none => none
  | some t =>
      if t.ending.isSome ∧ (task, reservation) ∈ (s.controls k).background then
        some (s.onControl k fun c => c.finishBackground task reservation)
      else none

def stepCall (i : Nat) (f : Call → Sys → Option Sys) (s : Sys) : Option Sys :=
  match s.calls[i]? with
  | none => none
  | some c => f c s

def step : Action → Sys → Option Sys
  | .invoke executor control args, s =>
      some { s with calls := s.calls ++ [{ executor := executor, control := control, args := args }] }
  | .start i env, s => stepCall i (stepStart h i env) s
  | .decide i env, s => stepCall i (stepDecide i env) s
  | .cancelApproval i, s => stepCall i (stepCancelApproval i) s
  | .wake i now, s => stepCall i (stepWake h i now) s
  | .cancelWait i, s => stepCall i (stepCancelWait i) s
  | .passGate t, s => stepTask t (fun _ => true) (fun task => { task with checkPassed := true }) s
  | .enterBody t, s =>
      stepTask t (fun task => task.checkPassed && !task.entered)
        (fun task => { task with entered := true }) s
  | .endTask t ending, s =>
      stepTask t (fun _ => true) (fun task => { task with ending := some ending }) s
  | .callbacks k task reservation, s => stepCallbacks k task reservation s
  | .cancelToken k, s => some (s.onControl k RunControl.cancel)
  | .modelCall k now, s => some (s.onBudget k fun l => (l.reserveModelCall now).2)
  | .providerAttempt k, s => some (s.onBudget k fun l => l.reserveProviderAttempt.2)
  | .noteAttempts k attempts, s => some (s.onBudget k fun l => l.noteProviderAttempts attempts)

-- ===== initial

/-- Nothing has been called, every ledger and every control is new. -/
structure Sys.Fresh (s : Sys) : Prop where
  ledgers : ∀ e, (s.ledgers e).pending = Dict.empty
  controls : ∀ k, ∃ runId budget now, s.controls k = RunControl.create runId budget now
  calls : s.calls = []
  tasks : s.tasks = []

end Velune.Engine
