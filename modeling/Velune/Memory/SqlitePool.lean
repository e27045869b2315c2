/-
The SQLite pool (`memory/storage/sqlite_pool.py`): one connection that
all writers share, a lock that lets one of them in at a time, and a
shutdown that does not take the lock.

A `write()` block is known by its number, and the contents of the
database by the statements committed to it, each with its block. A
statement joins the open transaction of the connection, whoever opened
it. A step ends where the source awaits; a call that is in flight when its
coroutine is cancelled may be carried out or not.
-/
import Velune.Lib.Runs

namespace Velune.Memory

-- ===== state

/-- Where a call of `shutdown` is. -/
inductive ShutdownPhase
  /-- Its commit is in flight. -/
  | committing
  | closing
  | over
  deriving DecidableEq

structure SQLiteConnectionPool (Stmt : Type) where
  /-- `_write_conn` is not `None`. -/
  writeConn : Bool := true
  /-- The connection has not been closed. -/
  connOpen : Bool := true
  /-- The block that holds the lock, and whether it was handed a connection. -/
  holder : Option (Nat × Bool) := none
  /-- The blocks that wait for the lock. -/
  waiting : List Nat := []
  /-- The number of the next block. -/
  next : Nat := 0
  /-- The statements of the open transaction. -/
  transaction : List (Nat × Stmt) := []
  committed : List (Nat × Stmt) := []
  shutdowns : List ShutdownPhase := []
  /-- All statements that were executed. -/
  executed : List (Nat × Stmt) := []
  /-- The blocks that exited normally, or were cancelled in a commit that
  was carried out, in this order. -/
  finished : List Nat := []
  deriving DecidableEq

namespace SQLiteConnectionPool

variable {Stmt : Type}

def ofBlock (s : SQLiteConnectionPool Stmt) (block : Nat) : List (Nat × Stmt) :=
  s.executed.filter (·.1 = block)

-- ===== steps

def commit (s : SQLiteConnectionPool Stmt) : SQLiteConnectionPool Stmt :=
  { s with committed := s.committed ++ s.transaction, transaction := [] }

def release (s : SQLiteConnectionPool Stmt) : SQLiteConnectionPool Stmt := { s with holder := none }

inductive Step (Stmt : Type)
  /-- `write()` is entered; without a connection it raises. -/
  | write
  | acquire (block : Nat)
  /-- A block is cancelled before it has the lock. -/
  | giveUp (block : Nat)
  | execute (stmt : Stmt)
  /-- The block exits normally. -/
  | exit
  /-- It raises, or its commit does; the rollback may fail too. -/
  | raise (rolledBack : Bool)
  /-- It is cancelled in its body. -/
  | cancel
  /-- It is cancelled in its commit. -/
  | cancelCommit (done : Bool)
  | shutdown
  | shutdownCommits (call : Nat)
  | shutdownCloses (call : Nat)
  | shutdownCancelled (call : Nat) (done : Bool)

def step : Step Stmt → SQLiteConnectionPool Stmt → Option (SQLiteConnectionPool Stmt)
  | .write, s =>
      some (if s.writeConn then { s with waiting := s.waiting ++ [s.next], next := s.next + 1 } else s)
  | .acquire block, s =>
      if s.holder = none ∧ block ∈ s.waiting then
        some { s with holder := some (block, s.writeConn), waiting := s.waiting.erase block }
      else none
  | .giveUp block, s => some { s with waiting := s.waiting.erase block }
  | .execute stmt, s =>
      match s.holder with
      | some (block, handed) =>
          -- a closed or missing connection raises
          some (if handed ∧ s.connOpen then
              { s with
                transaction := s.transaction ++ [(block, stmt)]
                executed := s.executed ++ [(block, stmt)] }
            else s)
      | none => none
  | .exit, s =>
      match s.holder with
      | some (block, _) =>
          if s.writeConn then some { s.commit.release with finished := s.finished ++ [block] } else none
      | none => none
  | .raise rolledBack, s =>
      match s.holder with
      | some _ =>
          some (if s.writeConn ∧ rolledBack then { s.release with transaction := [] } else s.release)
      | none => none
  | .cancel, s =>
      match s.holder with
      | some _ => some s.release
      | none => none
  | .cancelCommit done, s =>
      match s.holder with
      | some (block, _) =>
          if s.writeConn then
            some (if done then { s.commit.release with finished := s.finished ++ [block] } else s.release)
          else none
      | none => none
  | .shutdown, s =>
      some (if s.writeConn then { s with shutdowns := s.shutdowns ++ [.committing] } else s)
  | .shutdownCommits call, s =>
      match s.shutdowns[call]? with
      | some .committing =>
          -- a commit on a closed connection raises, and so does the call of `close` without one
          some { (if s.connOpen then s.commit else s) with
            writeConn := s.writeConn && s.connOpen
            shutdowns := s.shutdowns.set call (if s.writeConn ∧ s.connOpen then .closing else .over) }
      | _ => none
  | .shutdownCloses call, s =>
      match s.shutdowns[call]? with
      | some .closing =>
          -- an open transaction is dropped
          some { s with
            writeConn := false
            connOpen := false
            transaction := []
            shutdowns := s.shutdowns.set call .over }
      | _ => none
  | .shutdownCancelled call done, s =>
      match s.shutdowns[call]? with
      | some .committing =>
          some { (if done ∧ s.connOpen then s.commit else s) with
            writeConn := false
            shutdowns := s.shutdowns.set call .over }
      | some .closing =>
          some { s with
            writeConn := false
            connOpen := s.connOpen && !done
            transaction := if done then [] else s.transaction
            shutdowns := s.shutdowns.set call .over }
      | _ => none

end SQLiteConnectionPool

end Velune.Memory
