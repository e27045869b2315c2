/-
The engine that keeps the knowledge graph in step with the index
(`intelligence/engine.py`): a loop that detects changes and applies them
to the index, a bounded queue, and a worker that patches the graph; and
the other writers of the index (`repository/cognition.py`), which feed no
queue.

A delta is known by its number. A step ends where the source awaits, and
a cancellation comes between two steps. Emitted events, the git loop, the
clean-up of the vector store and what the other tasks do are left out.
-/
import Velune.Lib.Runs

namespace Velune.Intelligence

open Lib

-- ===== states

def DOWNSTREAM_QUEUE_MAXSIZE : Nat := 32

inductive DownstreamTask
  | graphPatch (delta : Nat)
  | profileRefresh
  | pipelineRefresh (delta : Nat)
  deriving DecidableEq

inductive Detection
  | sleeping
  /-- A delta was computed, and not applied yet. -/
  | found (delta : Nat)
  /-- The index is saved, and an event about it is emitted. -/
  | saved (delta : Nat)
  | cooling
  | stopped
  deriving DecidableEq

inductive Lifecycle
  | running
  /-- The tasks are cancelled, and `shutdown` works the queue off. -/
  | draining
  | stopped
  deriving DecidableEq

structure EngineState where
  lifecycle : Lifecycle
  detection : Detection
  queue : List DownstreamTask
  /-- The task the worker has taken. -/
  worker : Option DownstreamTask
  /-- The number of the next delta. -/
  next : Nat
  /-- The deltas applied to the index, and those applied to the graph,
  since the two were in step. -/
  applied : List Nat
  patched : List Nat
  deriving DecidableEq

-- ===== steps

def enqueueDownstream (task : DownstreamTask) (queue : List DownstreamTask) : List DownstreamTask :=
  if queue.length < DOWNSTREAM_QUEUE_MAXSIZE then queue ++ [task] else queue

def enqueueAll (delta : Nat) (queue : List DownstreamTask) : List DownstreamTask :=
  enqueueDownstream (.pipelineRefresh delta)
    (enqueueDownstream .profileRefresh (enqueueDownstream (.graphPatch delta) queue))

def DownstreamTask.leaves (done : Bool) (patched : List Nat) : DownstreamTask → List Nat
  | .graphPatch delta => if done then patched ++ [delta] else patched
  | _ => patched

inductive EngineStep
  | detect
  /-- `apply_delta` saves the index, or raises. -/
  | apply (saves : Bool)
  | enqueue
  | wake
  | take
  | finish (done : Bool)
  /-- `shutdown` cancels the tasks; the patch of the worker may have been
  committed. -/
  | cancel (done : Bool)
  | drain (done : Bool)
  /-- `shutdown` ends, or is cancelled while it runs a task. -/
  | stop
  | abort (done : Bool)
  /-- `initialize`, once more. -/
  | startUp
  /-- `RepositoryCognitionService` applies a delta of its own. -/
  | cognition

def engineStep : EngineStep → EngineState → Option EngineState
  | .detect, s =>
      match s.detection with
      | .sleeping => some { s with detection := .found s.next, next := s.next + 1 }
      | _ => none
  | .apply saves, s =>
      match s.detection with
      | .found delta =>
          some { s with
            detection := .saved delta
            applied := if saves then s.applied ++ [delta] else s.applied }
      | _ => none
  | .enqueue, s =>
      match s.detection with
      | .saved delta => some { s with detection := .cooling, queue := enqueueAll delta s.queue }
      | _ => none
  | .wake, s =>
      match s.detection with
      | .cooling => some { s with detection := .sleeping }
      | _ => none
  | .take, s =>
      match s.lifecycle, s.worker, s.queue with
      | .running, none, task :: rest => some { s with worker := some task, queue := rest }
      | _, _, _ => none
  | .finish done, s =>
      match s.worker with
      | some task => some { s with worker := none, patched := task.leaves done s.patched }
      | none => none
  | .cancel done, s =>
      match s.lifecycle with
      | .running =>
          some { s with
            lifecycle := .draining
            detection := .stopped
            worker := none
            patched := (s.worker.map fun task => task.leaves done s.patched).getD s.patched }
      | _ => none
  | .drain done, s =>
      match s.lifecycle, s.queue with
      | .draining, task :: rest =>
          some { s with queue := rest, patched := task.leaves done s.patched }
      | _, _ => none
  | .stop, s =>
      match s.lifecycle, s.queue with
      | .draining, [] => some { s with lifecycle := .stopped }
      | _, _ => none
  | .abort done, s =>
      match s.lifecycle, s.queue with
      | .draining, task :: rest =>
          some { s with lifecycle := .stopped, queue := rest, patched := task.leaves done s.patched }
      | _, _ => none
  | .startUp, s =>
      match s.lifecycle with
      | .stopped => some { s with lifecycle := .running, detection := .sleeping }
      | _ => none
  | .cognition, s => some { s with next := s.next + 1, applied := s.applied ++ [s.next] }

def EngineState.Settled (s : EngineState) : Prop :=
  s.lifecycle = .stopped ∨ s.lifecycle = .running ∧ s.queue = [] ∧ s.worker = none
    ∧ (s.detection = .sleeping ∨ s.detection = .cooling)

/-- Every delta that was applied to the index was applied to the graph. -/
def EngineState.InStep (s : EngineState) : Prop := ∀ delta ∈ s.applied, delta ∈ s.patched

end Velune.Intelligence
