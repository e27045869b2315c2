/-
Checkpoints of a step (`execution/checkpointer.py`,
`execution/rollback.py`, `repository/tracker.py`, and the two ends of a
step in `execution/executor.py`): copies of the files a step declares,
under the workspace's snapshot directory, and in a git repository a stash
entry beside them.

Paths are relative to the workspace, as parts; the checks that they stay
inside it have passed. A path is a file or nothing: directories are left
out, and so are failing copies.
-/
import Velune.Domain
import Velune.Lib.FileTree
import Velune.Lib.Git

namespace Velune.Rollback

open Lib Lib.Git

abbrev Path := List Name

variable {ν : Type}

-- ===== checkpointer

/-- `copied_files`: the files tracked and where their copies are, in
order; `none` for a file that did not exist. -/
abbrev Copied := List (Path × Option Path)

/-- `copied_files[rel] = backup`, which keeps the place of a key. -/
def record : Copied → Path → Option Path → Copied
  | [], file, backup => [(file, backup)]
  | (f, b) :: rest, file, backup =>
      if f = file then (file, backup) :: rest else (f, b) :: record rest file backup

def snapshotsDir : Path := [".velune".toList, "snapshots".toList]

def Snapshot (p : Path) : Prop := snapshotsDir <+: p

instance (p : Path) : Decidable (Snapshot p) :=
  inferInstanceAs (Decidable (snapshotsDir <+: p))

def checkpointPath (checkpointId : Name) : Path := snapshotsDir ++ [checkpointId]

/-- One file of `create_checkpoint`. -/
def checkpointFile (checkpointId : Name) (s : Files Path ν × Copied) (file : Path) :
    Files Path ν × Copied :=
  match s.1 file with
  | none => (s.1, record s.2 file none)
  | some content =>
      let backup := checkpointPath checkpointId ++ file
      (s.1.insert backup content, record s.2 file (some backup))

def createCheckpoint (checkpointId : Name) (files : List Path) (work : Files Path ν) :
    Files Path ν × Copied :=
  files.foldl (checkpointFile checkpointId) (work, [])

def absolute (workspace p : Path) : PyStr := (workspace ++ p).flatMap fun part => '/' :: part

/-- The loop of `restore_checkpoint`: the files it leaves, and the error
it stopped with. -/
def restoreFiles (workspace : Path) : Copied → Files Path ν → Files Path ν × Option PyStr
  | [], work => (work, none)
  | (target, none) :: rest, work => restoreFiles workspace rest (work.erase target)
  | (target, some backup) :: rest, work =>
      match work backup with
      | none => (work, some ("Backup file not found: ".toList ++ absolute workspace backup))
      | some content => restoreFiles workspace rest (work.insert target content)

/-- `restore_checkpoint`: the files back to their copies, and the copies
removed. -/
def restoreCheckpoint (workspace : Path) (checkpointId : Name) (copied : Copied)
    (work : Files Path ν) : Files Path ν × Option PyStr :=
  match restoreFiles workspace copied work with
  | (work, some error) => (work, some error)
  | (work, none) => (fun p => if checkpointPath checkpointId <+: p then none else work p, none)

-- ===== tracker

/-- `GitTracker`. Each operation reports whether git exited with 0, which
a push with nothing to stash does too. -/
structure GitTracker (ν : Type) where
  git : Tool Path ν
  isGit : Bool

namespace GitTracker

variable (tracker : GitTracker ν) (r : Repo Path ν)

def createStash : Repo Path ν × Bool :=
  if tracker.isGit then (tracker.git.push r, true) else (r, false)

def popStash : Repo Path ν × Bool := if tracker.isGit then tracker.git.pop r else (r, false)

def applyStash : Repo Path ν × Bool := if tracker.isGit then tracker.git.apply r else (r, false)

def dropStash : Repo Path ν × Bool := if tracker.isGit then r.drop else (r, false)

end GitTracker

-- ===== manager

/-- What `save_state` returns. -/
structure CheckpointState where
  checkpointId : Name
  fileSnapshot : Copied
  gitActive : Bool
  gitStashSuccess : Bool
  deriving DecidableEq, Repr

structure RollbackManager (ν : Type) where
  workspacePath : Path
  gitTracker : GitTracker ν

namespace RollbackManager

variable (manager : RollbackManager ν)

def saveState (checkpointId : Name) (filesToTrack : List Path) (r : Repo Path ν) :
    Repo Path ν × CheckpointState :=
  let (work, copied) := createCheckpoint checkpointId filesToTrack r.work
  let r := r.setWork work
  if manager.gitTracker.isGit then
    let (r, stashed) := manager.gitTracker.createStash r
    -- applied back, so that the files stay in place for the command
    let r := if stashed then (manager.gitTracker.applyStash r).1 else r
    (r, ⟨checkpointId, copied, true, stashed⟩)
  else (r, ⟨checkpointId, copied, false, false⟩)

/-- `rollback`, and the text of the error it raises. -/
def rollback (state : CheckpointState) (r : Repo Path ν) : Repo Path ν × Option PyStr :=
  let r :=
    if state.gitActive then
      let r := manager.gitTracker.git.clean r.resetHard
      if state.gitStashSuccess then (manager.gitTracker.popStash r).1 else r
    else r
  let (work, error) :=
    restoreCheckpoint manager.workspacePath state.checkpointId state.fileSnapshot r.work
  (r.setWork work, error.map ("File rollback copy recovery failed: ".toList ++ ·))

/-- What `execute_plan` does with the checkpoint of a step that went
well. -/
def keep (state : CheckpointState) (r : Repo Path ν) : Repo Path ν :=
  if state.gitActive && state.gitStashSuccess then (manager.gitTracker.dropStash r).1 else r

end RollbackManager

end Velune.Rollback
