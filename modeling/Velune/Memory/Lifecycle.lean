/-
The memory manager (`memory/lifecycle.py`) as far as the working memory
goes: a recorded turn binds the session, is added, and may start a
compaction in the background.

The coroutines run one at a time and switch only where they await. From
the end of its episodic write on `record_turn` does not, so it is one
event. A compaction is four: it starts and takes its turns, it gets a
summary, it gets the outcome of its own episodic write and edits the
working memory, and its callback clears the guard.
-/
import Velune.Lib.Runs
import Velune.Memory.Compaction

namespace Velune.Memory

open Lib

-- ===== state

inductive Phase
  | scheduled
  | summarising (turns : List Nat)
  | storing (turns : List Nat) (summary : PyStr)
  | succeeded (turns : List Nat)
  | failed
  deriving DecidableEq

structure Compaction where
  sessionId : PyStr
  phase : Phase
  /-- The done callback has run. -/
  settled : Bool

structure Manager where
  working : WorkingMemoryTier
  /-- The budget of `_compactor`, once there is one. -/
  compactor : Option Nat
  compactionsInFlight : List PyStr
  /-- The tasks created so far. -/
  tasks : List Compaction

def Manager.new (ttlSeconds : Int) : Manager := ⟨.new ttlSeconds, none, [], []⟩

inductive Event
  /-- `record_turn` after its episodic write; `provider` is the budget of
  a compactor built now, `none` when no provider is configured. -/
  | record (sessionId role content : PyStr) (model : Option PyStr) (tokens : Option Int)
      (timestamp : Int) (provider : Option Nat)
  | start (task : Nat)
  /-- The provider has answered; `none` is also a failure. -/
  | summarised (task : Nat) (summary : Option PyStr)
  /-- The call that stores the summary has returned, or has raised. -/
  | stored (task : Nat) (done : Bool) (timestamp : Int)
  | callback (task : Nat)
  | evict (now : Int)

-- ===== recording

/-- What `record_turn` does to the working memory. -/
def WorkingMemoryTier.record (tier : WorkingMemoryTier) (sessionId role content : PyStr)
    (model : Option PyStr) (tokens : Option Int) (timestamp : Int) : WorkingMemoryTier :=
  (tier.bindSession sessionId).addTurn role content (.recorded model tokens)
    (if sessionId = [] then none else some sessionId) timestamp

/-- The end of `_check_and_trigger_compaction`. -/
def Manager.schedule (m : Manager) (sessionId : PyStr) : Manager :=
  if sessionId ∈ m.compactionsInFlight then m
  else { m with
    compactionsInFlight := sessionId :: m.compactionsInFlight
    tasks := m.tasks ++ [⟨sessionId, .scheduled, false⟩] }

def Manager.checkAndTriggerCompaction (m : Manager) (sessionId : PyStr) (provider : Option Nat) :
    Manager :=
  let turns := m.working.getTurns
  let currentTokens := (turns.map fun i => (m.working.objects i).content.length / 4).sum
  match m.compactor.orElse fun _ => provider with
  | none => m
  | some budget =>
      let m := { m with compactor := some budget }
      if shouldCompact budget turns.length currentTokens false = some true then
        m.schedule sessionId
      else m

-- ===== compacting

def Manager.setPhase (m : Manager) (n : Nat) (task : Compaction) (phase : Phase) : Manager :=
  { m with tasks := m.tasks.set n { task with phase := phase } }

/-- `compact` up to the provider's answer. -/
def Manager.compactStart (m : Manager) (n : Nat) (task : Compaction) : Manager :=
  if m.working.getTurns.length ≤ KEEP_LAST_N_TURNS then m.setPhase n task .failed
  else m.setPhase n task (.summarising (turnsToSummarize m.working))

/-- `compact` from there to its own episodic write. -/
def Manager.compactSummarised (m : Manager) (n : Nat) (task : Compaction) (turns : List Nat)
    (summary : Option PyStr) : Manager :=
  match summary with
  | none => m.setPhase n task .failed
  | some text =>
      if text ≠ [] ∧ validateSummary text
          (estimateTokens (turns.map fun i => (m.working.objects i).content)) = true then
        m.setPhase n task (.storing turns text)
      else m.setPhase n task .failed

/-- The rest of `compact`. -/
def Manager.compactStored (m : Manager) (n : Nat) (task : Compaction) (turns : List Nat)
    (summary : PyStr) (done : Bool) (timestamp : Int) : Manager :=
  if done then
    let (working, replaced) := replaceTurnsWithSummary m.working turns summary timestamp
    { m with working := working }.setPhase n task (if replaced then .succeeded turns else .failed)
  else m.setPhase n task .failed

def Manager.discard (m : Manager) (n : Nat) (task : Compaction) : Manager :=
  { m with
    compactionsInFlight := m.compactionsInFlight.filter (· ≠ task.sessionId)
    tasks := m.tasks.set n { task with settled := true } }

def Phase.isOver : Phase → Bool
  | .succeeded _ | .failed => true
  | _ => false

/-- One event; `none` when it cannot happen now. -/
def Manager.step (event : Event) (m : Manager) : Option Manager :=
  match event with
  | .record sessionId role content model tokens timestamp provider =>
      let working := m.working.record sessionId role content model tokens timestamp
      some ({ m with working := working }.checkAndTriggerCompaction sessionId provider)
  | .start n => do
      let task ← m.tasks[n]?
      if task.phase = .scheduled then some (m.compactStart n task) else none
  | .summarised n summary => do
      let task ← m.tasks[n]?
      match task.phase with
      | .summarising turns => some (m.compactSummarised n task turns summary)
      | _ => none
  | .stored n done timestamp => do
      let task ← m.tasks[n]?
      match task.phase with
      | .storing turns summary => some (m.compactStored n task turns summary done timestamp)
      | _ => none
  | .callback n => do
      let task ← m.tasks[n]?
      if task.phase.isOver && !task.settled then some (m.discard n task) else none
  | .evict now => some { m with working := m.working.evictExpired now }

-- ===== history

structure World where
  manager : Manager
  /-- The tier has been bound to another session than the placeholder. -/
  bound : Bool
  /-- The session each turn was recorded under; `none` is the placeholder
  before the tier was bound. -/
  recordedUnder : Nat → Option PyStr
  /-- The turns that have expired. -/
  evicted : List Nat

namespace World

abbrev working (w : World) : WorkingMemoryTier := w.manager.working

def new (ttlSeconds : Int) : World := ⟨.new ttlSeconds, false, fun _ => none, []⟩

def after (w : World) (event : Event) (m : Manager) : World :=
  let bound := w.bound || decide (m.working.sessionId ≠ w.working.sessionId)
  { manager := m
    bound := bound
    recordedUnder := fun i =>
      if i < w.working.made then w.recordedUnder i
      else if bound then some (m.working.objects i).sessionId
      else none
    evicted := match event with
      | .evict _ => w.evicted ++ w.working.turns.filter (· ∉ m.working.turns)
      | _ => w.evicted }

def step (event : Event) (w : World) : Option World := (w.manager.step event).map (w.after event)

end World

end Velune.Memory
