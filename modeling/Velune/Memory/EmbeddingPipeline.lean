/-
The embedding pipeline (`memory/embedding_pipeline.py`): a bounded queue
and the workers that take its items, embed them, and put them into the
store or back into the queue.

An item is known by the number of its `enqueue`. A step ends where the
source awaits. The provider and the store may take any time and fail in
any way; an `upsert` that returns has stored its record. On Python 3.10
the time-out of `asyncio.wait_for` is no `TimeoutError`. What is embedded,
and the length of a back-off, is left out.
-/
import Velune.Domain
import Velune.Lib.Runs

namespace Velune.Memory

-- ===== state

def QUEUE_MAXSIZE : Nat := 1000

structure EmbedQueueItem where
  recordId : PyStr
  turnId : PyStr
  sessionId : PyStr
  content : PyStr
  sourceType : PyStr
  workspaceRoot : PyStr
  createdAt : Int
  deriving DecidableEq

/-- What `embed_turn` stores of an item, without its embedding. -/
structure MemoryRecord where
  id : PyStr
  content : PyStr
  sourceType : PyStr
  sessionId : PyStr
  turnId : PyStr
  workspaceRoot : PyStr
  createdAt : Int
  deriving DecidableEq

def EmbedQueueItem.record (item : EmbedQueueItem) : MemoryRecord where
  id := item.recordId
  content := item.content
  sourceType := item.sourceType
  sessionId := item.sessionId
  turnId := item.turnId
  workspaceRoot := item.workspaceRoot
  createdAt := item.createdAt

inductive Worker
  /-- It waits for an item, for a second at most. -/
  | waiting
  | processing (item : Nat)
  /-- The back-off after a failure. -/
  | sleeping
  | ended
  deriving DecidableEq

def Worker.held : Worker → List Nat
  | .processing item => [item]
  | _ => []

structure EmbeddingPipeline where
  running : Bool := false
  queue : List Nat := []
  /-- All worker tasks; `initialize` makes one more. -/
  workers : List Worker := []
  workerTask : Option Nat := none
  /-- The workers whose cancellation is requested. -/
  cancelling : List Nat := []
  /-- The items of all calls of `enqueue`. -/
  enqueued : List EmbedQueueItem := []
  /-- The records stored, each with the item it is of. -/
  stored : List (Nat × MemoryRecord) := []
  /-- The items reported as dropped. -/
  dropped : List Nat := []
  deriving DecidableEq

namespace EmbeddingPipeline

-- ===== steps

/-- `put_nowait`, or the report that the queue is full. -/
def put (item : Nat) (s : EmbeddingPipeline) : EmbeddingPipeline :=
  if s.queue.length < QUEUE_MAXSIZE then { s with queue := s.queue ++ [item] }
  else { s with dropped := s.dropped ++ [item] }

def enqueue (item : EmbedQueueItem) (s : EmbeddingPipeline) : EmbeddingPipeline :=
  { s with enqueued := s.enqueued ++ [item] }.put s.enqueued.length

def startUp (s : EmbeddingPipeline) : EmbeddingPipeline :=
  { s with running := true, workers := s.workers ++ [.waiting], workerTask := some s.workers.length }

/-- `shutdown` up to its wait for the worker. -/
def shutdown (s : EmbeddingPipeline) : EmbeddingPipeline :=
  { s with running := false, cancelling := s.workerTask.toList ++ s.cancelling }

def setWorker (n : Nat) (worker : Worker) (s : EmbeddingPipeline) : EmbeddingPipeline :=
  { s with workers := s.workers.set n worker }

/-- The head of the loop: `while self._running`. -/
def loop (n : Nat) (s : EmbeddingPipeline) : EmbeddingPipeline :=
  s.setWorker n (if s.running then .waiting else .ended)

def store (item : Nat) (s : EmbeddingPipeline) : EmbeddingPipeline :=
  { s with stored := s.stored ++ (s.enqueued[item]?.toList.map fun i => (item, i.record)) }

inductive Step
  | enqueue (item : EmbedQueueItem)
  /-- `initialize`. -/
  | startUp
  | shutdown
  /-- A worker gets an item. -/
  | get (worker : Nat)
  | timeout (worker : Nat)
  /-- `embed_turn` returns. -/
  | succeed (worker : Nat)
  /-- `embed_turn` raises an `Exception`. -/
  | fail (worker : Nat)
  /-- It raises what is no `Exception`; the store may have the record. -/
  | crash (worker : Nat) (stores : Bool)
  | wake (worker : Nat)
  /-- The cancellation reaches the worker; a store that works in a thread
  may still take the record. -/
  | cancelled (worker : Nat) (stores : Bool)

def step (python310 : Bool) : Step → EmbeddingPipeline → Option EmbeddingPipeline
  | .enqueue item, s => some (s.enqueue item)
  | .startUp, s => some s.startUp
  | .shutdown, s => some s.shutdown
  | .get n, s =>
      match s.workers[n]?, s.queue with
      | some .waiting, item :: rest =>
          some ({ s with queue := rest }.setWorker n (.processing item))
      | _, _ => none
  | .timeout n, s =>
      match s.workers[n]? with
      | some .waiting => some (if python310 then s.setWorker n .ended else s.loop n)
      | _ => none
  | .succeed n, s =>
      match s.workers[n]? with
      | some (.processing item) => some ((s.store item).loop n)
      | _ => none
  | .fail n, s =>
      match s.workers[n]? with
      | some (.processing item) => some ((s.put item).setWorker n .sleeping)
      | _ => none
  | .crash n stores, s =>
      match s.workers[n]? with
      | some (.processing item) => some ((if stores then s.store item else s).setWorker n .ended)
      | _ => none
  | .wake n, s =>
      match s.workers[n]? with
      | some .sleeping => some (s.loop n)
      | _ => none
  | .cancelled n stores, s =>
      if n ∈ s.cancelling then
        match s.workers[n]? with
        | some (.processing item) => some ((if stores then s.store item else s).setWorker n .ended)
        | some .waiting | some .sleeping => some (s.setWorker n .ended)
        | _ => none
      else none

end EmbeddingPipeline

end Velune.Memory
