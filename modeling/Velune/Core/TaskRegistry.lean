/-
The registries of background work (`core/task_registry.py`): the tasks
that callers submit under a name, and the records of the shell jobs that
`ExecuteCommand` detaches (`tools/terminal/execute.py`).

A task is known by the number of its submission. A step is what the event
loop runs between two awaits; how long a task takes, how it ends and
whether it heeds a cancellation is left open. Time-outs of single tasks
are among the ways to end. The texts of a record, and what is only
logged, are left out.
-/
import Velune.Domain
import Velune.Lib.Assoc
import Velune.Lib.Runs

namespace Velune.Core

open Lib

-- ===== tasks

inductive TaskPhase
  /-- Created, and not run yet. -/
  | created
  | running
  | done
  deriving DecidableEq

structure BackgroundTask where
  name : PyStr
  phase : TaskPhase := .created
  /-- A cancellation is requested and not delivered yet. -/
  cancelling : Bool := false
  /-- The coroutine has caught a cancellation and gone on. -/
  defied : Bool := false
  deriving DecidableEq

structure BackgroundTaskRegistry where
  /-- All tasks that were ever submitted, in order. -/
  submitted : List BackgroundTask := []
  tasks : Assoc PyStr Nat := []
  /-- The calls of `cancel_all` that wait, each with its tasks. -/
  waiting : List (List Nat) := []
  deriving DecidableEq

namespace BackgroundTaskRegistry

/-- `not task.done()`. -/
def isPending (s : BackgroundTaskRegistry) (id : Nat) : Bool :=
  s.submitted[id]?.any (·.phase ≠ .done)

/-- `[t for t in self._tasks.values() if not t.done()]`. -/
def pending (s : BackgroundTaskRegistry) : List Nat := (s.tasks.map (·.2)).filter s.isPending

def pendingCount (s : BackgroundTaskRegistry) : Nat := s.pending.length

def update (s : BackgroundTaskRegistry) (id : Nat) (f : BackgroundTask → BackgroundTask) :
    BackgroundTaskRegistry :=
  { s with submitted := s.submitted.modify id f }

def submit (name : PyStr) (s : BackgroundTaskRegistry) : BackgroundTaskRegistry :=
  { s with
    submitted := s.submitted ++ [{ name }]
    tasks := s.tasks.set name s.submitted.length }

/-- `cancel_all` up to its wait; without tasks it is over. -/
def cancelAll (s : BackgroundTaskRegistry) : BackgroundTaskRegistry :=
  if s.pending = [] then s
  else
    { s with
      submitted := s.submitted.mapIdx fun id task =>
        if id ∈ s.pending then { task with cancelling := true } else task
      waiting := s.waiting ++ [s.pending] }

end BackgroundTaskRegistry

inductive TaskStep
  | submit (name : PyStr)
  /-- The first step of a task; one that is cancelled before it runs
  nothing of its body. -/
  | start (id : Nat)
  /-- The coroutine returns, raises, times out or is cancelled, and the
  task leaves the table. -/
  | finish (id : Nat)
  /-- The coroutine catches a cancellation and goes on. -/
  | defy (id : Nat)
  /-- A caller cancels a task that `submit` returned. -/
  | cancel (id : Nat)
  | cancelAll
  /-- The wait of a `cancel_all` ends, and the table is cleared. -/
  | cleared (call : Nat) (timedOut : Bool)
  /-- A `cancel_all` is itself cancelled. -/
  | abandoned (call : Nat)

def taskStep : TaskStep → BackgroundTaskRegistry → Option BackgroundTaskRegistry
  | .submit name, s => some (s.submit name)
  | .start id, s =>
      match s.submitted[id]? with
      | some task =>
          if task.phase = .created then
            some (s.update id fun t => { t with phase := if t.cancelling then .done else .running })
          else none
      | none => none
  | .finish id, s =>
      match s.submitted[id]? with
      | some task =>
          if task.phase = .running then
            some { s.update id fun t => { t with phase := .done } with
              tasks := s.tasks.pop task.name }
          else none
      | none => none
  | .defy id, s =>
      match s.submitted[id]? with
      | some task =>
          if task.phase = .running ∧ task.cancelling then
            some (s.update id fun t => { t with cancelling := false, defied := true })
          else none
      | none => none
  | .cancel id, s =>
      if s.isPending id then some (s.update id fun t => { t with cancelling := true }) else some s
  | .cancelAll, s => some s.cancelAll
  | .cleared call timedOut, s =>
      match s.waiting[call]? with
      | some pending =>
          if timedOut ∨ ∀ id ∈ pending, ¬ s.isPending id then
            some { s with tasks := [], waiting := s.waiting.eraseIdx call }
          else none
      | none => none
  | .abandoned call, s =>
      if call < s.waiting.length then some { s with waiting := s.waiting.eraseIdx call } else none

-- ===== jobs

inductive JobStatus
  | pending
  | running
  | completed
  | failed
  | cancelled
  deriving DecidableEq

inductive JobEnd
  | completed
  | failed
  | cancelled
  deriving DecidableEq

def JobEnd.status : JobEnd → JobStatus
  | .completed => .completed
  | .failed => .failed
  | .cancelled => .cancelled

inductive JobPhase
  | created
  | running
  | ended (how : JobEnd)
  deriving DecidableEq

structure JobRecord where
  status : JobStatus := .pending
  completedAt : Option Nat := none
  cancelEvent : Bool := false
  task : JobPhase := .created
  /-- A cancellation of the task is requested. -/
  cancelling : Bool := false
  deriving DecidableEq

/-- `status in (PENDING, RUNNING)`. -/
def JobRecord.isActive (job : JobRecord) : Bool := job.status = .pending ∨ job.status = .running

/-- `not task.done()`. -/
def JobRecord.isUnfinished (job : JobRecord) : Bool := job.task = .created ∨ job.task = .running

abbrev JobRegistry := List JobRecord

namespace JobRegistry

def activeCount (s : JobRegistry) : Nat := s.countP (·.isActive)

def unfinishedCount (s : JobRegistry) : Nat := s.countP (·.isUnfinished)

/-- What `cancel` does to a record that exists. -/
def cancelled (now : Nat) (job : JobRecord) : JobRecord :=
  { job with
    status := .cancelled
    completedAt := some now
    cancelEvent := true
    cancelling := job.cancelling || job.isUnfinished }

/-- What `cancel` returns. -/
def cancelReturns (id : Nat) (s : JobRegistry) : Bool := s[id]?.isSome

end JobRegistry

inductive JobStep
  /-- `_execute_background`: the record is registered and its task
  created. -/
  | execute
  | start (id : Nat)
  | complete (id now : Nat)
  | raise (id : Nat) (sandboxError : Bool) (now : Nat)
  /-- The cancellation is delivered. -/
  | interrupt (id now : Nat)
  /-- The task is cancelled, and not by the registry. -/
  | cancelTask (id : Nat)
  | cancel (id now : Nat)

/-- What the body of the task does in one step, if it is there to do it. -/
def bodyStep : JobStep → JobRecord → Option JobRecord
  | .start _, job =>
      match job.task with
      | .created =>
          some (if job.cancelling then { job with task := .ended .cancelled }
            else { job with status := .running, task := .running })
      | _ => none
  | .complete _ now, job =>
      if job.task = .running ∧ ¬ job.cancelling then
        some { job with status := .completed, completedAt := some now, task := .ended .completed }
      else none
  | .raise _ sandboxError now, job =>
      if job.task = .running ∧ ¬ job.cancelling then
        some (if sandboxError then
            { job with status := .failed, completedAt := some now, task := .ended .failed }
          else { job with task := .ended .failed })
      else none
  | .interrupt _ now, job =>
      if job.task = .running ∧ job.cancelling then
        some { job with status := .cancelled, completedAt := some now, task := .ended .cancelled }
      else none
  | .cancelTask _, job => some { job with cancelling := job.cancelling || job.isUnfinished }
  | .cancel _ now, job => some (JobRegistry.cancelled now job)
  | .execute, _ => none

def JobStep.job : JobStep → Option Nat
  | .execute => none
  | .start id | .complete id _ | .raise id _ _ | .interrupt id _ | .cancelTask id | .cancel id _ =>
      some id

def jobStep (step : JobStep) (s : JobRegistry) : Option JobRegistry :=
  match step.job with
  | none => some (s ++ [{}])
  | some id =>
      match s[id]? with
      | some job => (bodyStep step job).map fun job' => s.set id job'
      -- `cancel` of an unknown job returns, and nothing else happens
      | none =>
          match step with
          | .cancel .. => some s
          | _ => none

end Velune.Core
