/-
The working memory of one process (`memory/tiers/working.py`): the turns
it holds, the session it is bound to, and what binding, adding and
evicting do to them.

A turn is a Python object that the tier and a compaction hold at the same
time, and that binding stamps in place. So the tier has the objects that
were ever made, numbered in the order of their making, and its turns are
numbers.
-/
import Velune.Domain

namespace Velune.Memory

-- ===== turns

/-- A turn's `metadata`, as `record_turn` and the compactor write it. -/
inductive Metadata
  | recorded (model : Option PyStr) (tokens : Option Int)
  | compactionSummary
  deriving DecidableEq

structure MemoryTurn where
  role : PyStr
  content : PyStr
  timestamp : Int
  metadata : Metadata
  sessionId : PyStr
  deriving DecidableEq

def placeholder : PyStr := "default".toList

structure WorkingMemoryTier where
  sessionId : PyStr
  ttlSeconds : Int
  /-- The turn objects made so far. -/
  objects : Nat → MemoryTurn
  made : Nat
  turns : List Nat

namespace WorkingMemoryTier

/-- `WorkingMemoryTier(ttl_seconds=ttlSeconds)`. -/
def new (ttlSeconds : Int) : WorkingMemoryTier where
  sessionId := placeholder
  ttlSeconds := ttlSeconds
  objects _ := ⟨[], [], 0, .compactionSummary, placeholder⟩
  made := 0
  turns := []

-- ===== operations

variable (tier : WorkingMemoryTier)

def bindSession (sessionId : PyStr) : WorkingMemoryTier :=
  if sessionId = [] ∨ sessionId = tier.sessionId then tier
  else { tier with
    sessionId := sessionId
    objects := fun i =>
      if i ∈ tier.turns ∧ (tier.objects i).sessionId = tier.sessionId then
        { tier.objects i with sessionId := sessionId }
      else tier.objects i }

/-- `add_turn`; the session id `none` is also Python's `""`. -/
def addTurn (role content : PyStr) (metadata : Metadata) (sessionId : Option PyStr)
    (timestamp : Int) : WorkingMemoryTier :=
  let turn : MemoryTurn :=
    ⟨role, content, timestamp, metadata, sessionId.getD tier.sessionId⟩
  { tier with
    objects := fun i => if i = tier.made then turn else tier.objects i
    made := tier.made + 1
    turns := tier.turns ++ [tier.made] }

def getTurns : List Nat :=
  tier.turns.filter fun i => (tier.objects i).sessionId = tier.sessionId

/-- `evict_expired`, without its count. -/
def evictExpired (now : Int) : WorkingMemoryTier :=
  { tier with turns := tier.turns.filter fun i =>
      now - tier.ttlSeconds ≤ (tier.objects i).timestamp }

end WorkingMemoryTier

end Velune.Memory
