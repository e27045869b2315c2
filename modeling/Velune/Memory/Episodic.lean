/-
The episodic store of sessions and turns (`EpisodicMemory` in
`memory/tiers/episodic.py`): its two tables, what is written to them, and
the results that its reads may have.

A write block is one transaction, so a call changes the tables or fails.
The clock is read for every turn and may say anything. What no read of
turns uses (a session's model, mode, times, tokens and summary) is left
out.
-/
import Velune.Domain
import Velune.Lib.Assoc
import Velune.Lib.Runs
import Velune.Lib.Select

namespace Velune.Memory

open Lib Lib.Select

-- ===== tables

structure Turn where
  id : PyStr
  sessionId : PyStr
  turnIndex : Nat
  role : PyStr
  content : PyStr
  modelUsed : Option PyStr
  tokensUsed : Option Int
  createdAt : Int
  deriving DecidableEq

structure EpisodicMemory where
  /-- The workspace of every session. -/
  sessions : Assoc PyStr PyStr := []
  /-- The turns, in the order of their insertion. -/
  turns : List Turn := []
  deriving DecidableEq

namespace EpisodicMemory

def ofSession (s : EpisodicMemory) (sessionId : PyStr) : List Turn :=
  s.turns.filter (·.sessionId = sessionId)

def ofWorkspace (s : EpisodicMemory) (workspaceRoot : PyStr) : List Turn :=
  s.turns.filter fun turn => s.sessions.get? turn.sessionId = some workspaceRoot

-- ===== writing

/-- `COALESCE(MAX(turn_index) + 1, 0)`. -/
def nextIndex (turns : List Turn) : Nat :=
  ((turns.map (·.turnIndex)).max?.map (· + 1)).getD 0

/-- `start_session` with the id it uses; one that exists stays as it is. -/
def startSession (workspaceRoot sessionId : PyStr) (s : EpisodicMemory) : EpisodicMemory :=
  match s.sessions.get? sessionId with
  | none => { s with sessions := s.sessions.set sessionId workspaceRoot }
  | some _ => s

/-- `record_turn` with the id it makes, and the id it returns. The insert
fails for a session that does not exist, an id that does, or by itself. -/
def recordTurn (turnId sessionId role content : PyStr) (model : Option PyStr) (tokens : Option Int)
    (now : Int) (inserts : Bool) (s : EpisodicMemory) : EpisodicMemory × PyStr :=
  if inserts ∧ s.sessions.get? sessionId ≠ none ∧ ∀ turn ∈ s.turns, turn.id ≠ turnId then
    ({ s with turns := s.turns ++ [{
        id := turnId
        sessionId := sessionId
        turnIndex := nextIndex (s.ofSession sessionId)
        role := role
        content := content
        modelUsed := model
        tokensUsed := tokens
        createdAt := now }] }, turnId)
  else (s, [])

inductive Call
  | startSession (workspaceRoot sessionId : PyStr)
  | recordTurn (turnId sessionId role content : PyStr) (model : Option PyStr)
      (tokens : Option Int) (now : Int) (inserts : Bool)

def step : Call → EpisodicMemory → Option EpisodicMemory
  | .startSession workspaceRoot sessionId, s => some (s.startSession workspaceRoot sessionId)
  | .recordTurn turnId sessionId role content model tokens now inserts, s =>
      some (s.recordTurn turnId sessionId role content model tokens now inserts).1

-- ===== reading

/-- `get_recent_turns`. -/
def GetsRecentTurns (s : EpisodicMemory) (sessionId : PyStr) (limit : Int) (result : List Turn) :
    Prop :=
  ∃ rows, Ordered (fun turn => OrderDual.toDual turn.createdAt) (s.ofSession sessionId) rows
    ∧ result = (limitRows limit rows).reverse

/-- `get_session_history`. -/
def GetsSessionHistory (s : EpisodicMemory) (sessionId : PyStr) (result : List Turn) : Prop :=
  Ordered (·.createdAt) (s.ofSession sessionId) result

/-- `search_by_content`. -/
def SearchesByContent (s : EpisodicMemory) (query workspaceRoot : PyStr) (limit : Int)
    (result : List Turn) : Prop :=
  ∃ rows, Ordered (fun turn => OrderDual.toDual turn.createdAt)
      ((s.ofWorkspace workspaceRoot).filter fun turn => like (containing query) turn.content) rows
    ∧ result = limitRows limit rows

end EpisodicMemory

end Velune.Memory
