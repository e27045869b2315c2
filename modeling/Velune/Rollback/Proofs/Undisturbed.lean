/-
What saving a checkpoint and dropping it, or rolling back to it, does to
the user's git state.

The file half never goes wrong: the record of a checkpoint knows of each
file that it was absent, or where its copy is (`Backed`), and restoring
from such a record brings the files back. The git half assumes that the
newest stash entry is the one `save_state` made. It is not when there was
nothing to stash: then the entry applied, and dropped or popped in the
end, is the user's own.
-/
import Velune.Rollback.Manager

namespace Velune.Rollback

open Lib Lib.Git

variable {ν : Type}

-- ===== copies

def copies (checkpointId : Name) (files : List Path) (work : Files Path ν) : Files Path ν := fun p =>
  if checkpointPath checkpointId <+: p ∧ p.drop 3 ∈ files then (work (p.drop 3)).or (work p)
  else work p

variable {checkpointId : Name} {work : Files Path ν} {files : List Path}

theorem snapshot_checkpoint {p : Path} (h : checkpointPath checkpointId <+: p) : Snapshot p :=
  (List.prefix_append snapshotsDir [checkpointId]).trans h

theorem snapshot_copy (checkpointId : Name) (file : Path) :
    Snapshot (checkpointPath checkpointId ++ file) :=
  snapshot_checkpoint (List.prefix_append _ _)

theorem copies_of_not_snapshot
    {p : Path} (h : ¬ Snapshot p) : copies checkpointId files work p = work p :=
  if_neg fun hcopy => h (snapshot_checkpoint hcopy.1)

theorem drop_checkpoint (checkpointId : Name) (file : Path) :
    (checkpointPath checkpointId ++ file).drop 3 = file := rfl

theorem copies_copy
    {file : Path} {content : ν} (hfile : file ∈ files) (hwork : work file = some content) :
    copies checkpointId files work (checkpointPath checkpointId ++ file) = some content := by
  unfold copies
  rw [drop_checkpoint, if_pos ⟨List.prefix_append _ _, hfile⟩, hwork, Option.some_or]

/-- A path of the checkpoint is the copy of what its last parts name. -/
theorem eq_copy {p : Path} (h : checkpointPath checkpointId <+: p) :
    p = checkpointPath checkpointId ++ p.drop 3 := by
  obtain ⟨file, rfl⟩ := h
  rw [drop_checkpoint]

theorem copies_nil (checkpointId : Name) (work : Files Path ν) : copies checkpointId [] work = work := by
  funext p
  simp [copies]

theorem copies_concat_some {file : Path} {content : ν} (hwork : work file = some content) :
    copies checkpointId (files ++ [file]) work =
      (copies checkpointId files work).insert (checkpointPath checkpointId ++ file) content := by
  funext p
  by_cases hp : p = checkpointPath checkpointId ++ file
  · subst hp
    rw [copies_copy (by simp) hwork, Dict.insert_self]
  · rw [Dict.insert_of_ne _ _ hp]
    unfold copies
    by_cases hpre : checkpointPath checkpointId <+: p
    · have hne : p.drop 3 ≠ file := fun h => hp (by rw [← h]; exact eq_copy hpre)
      simp [hne]
    · simp [hpre]

theorem copies_concat_none {file : Path} (hwork : work file = none) :
    copies checkpointId (files ++ [file]) work = copies checkpointId files work := by
  funext p
  unfold copies
  by_cases hdrop : p.drop 3 = file
  · simp [hdrop, hwork]
  · simp [hdrop]

-- ===== checkpoint

/-- What a record says of the files before the checkpoint: each was
absent, or its copy is in the tree. -/
def Backed (before work : Files Path ν) (copied : Copied) : Prop :=
  ∀ e ∈ copied, ¬ Snapshot e.1 ∧
    ((e.2 = none ∧ before e.1 = none) ∨
      ∃ backup content, e.2 = some backup ∧ Snapshot backup ∧ before e.1 = some content ∧
        work backup = some content)

theorem mem_record {copied : Copied} {file : Path} {backup : Option Path} {e : Path × Option Path}
    (h : e ∈ record copied file backup) : e = (file, backup) ∨ e ∈ copied := by
  induction copied with
  | nil => exact Or.inl (by simpa [record] using h)
  | cons head rest ih =>
      obtain ⟨f, b⟩ := head
      unfold record at h
      split at h
      · rcases List.mem_cons.mp h with rfl | h
        · exact Or.inl rfl
        · exact Or.inr (List.mem_cons_of_mem _ h)
      · rcases List.mem_cons.mp h with rfl | h
        · exact Or.inr (List.mem_cons_self ..)
        · exact (ih h).imp_right (List.mem_cons_of_mem _)

def Entered (checkpointId : Name) (files : List Path) (before : Files Path ν)
    (e : Path × Option Path) : Prop :=
  e.1 ∈ files ∧ ((e.2 = none ∧ before e.1 = none) ∨
    ∃ content, e.2 = some (checkpointPath checkpointId ++ e.1) ∧ before e.1 = some content)

/-- A checkpoint puts the copies into the tree and enters each file. -/
theorem createCheckpoint_spec (hfiles : ∀ f ∈ files, ¬ Snapshot f) :
    (createCheckpoint checkpointId files work).1 = copies checkpointId files work ∧
      ∀ e ∈ (createCheckpoint checkpointId files work).2, Entered checkpointId files work e := by
  unfold createCheckpoint
  induction files using List.reverseRecOn with
  | nil => exact ⟨(copies_nil checkpointId work).symm, by simp⟩
  | append_singleton files file ih =>
      obtain ⟨hwork, hentered⟩ := ih fun f hf => hfiles f (List.mem_append_left _ hf)
      have hkept : ∀ e, Entered checkpointId files work e →
          Entered checkpointId (files ++ [file]) work e := fun e he =>
        ⟨List.mem_append_left _ he.1, he.2⟩
      have hlookup : copies checkpointId files work file = work file :=
        copies_of_not_snapshot (hfiles file (by simp))
      rw [List.foldl_append, List.foldl_cons, List.foldl_nil]
      generalize files.foldl (checkpointFile checkpointId) (work, []) = s at hwork hentered ⊢
      unfold checkpointFile
      rw [hwork, hlookup]
      obtain hnone | ⟨content, hsome⟩ := Option.eq_none_or_eq_some (work file)
      · rw [hnone]
        refine ⟨(copies_concat_none hnone).symm, fun e he => ?_⟩
        rcases mem_record he with rfl | he
        · exact ⟨by simp, Or.inl ⟨rfl, hnone⟩⟩
        · exact hkept e (hentered e he)
      · rw [hsome]
        refine ⟨(copies_concat_some hsome).symm, fun e he => ?_⟩
        rcases mem_record he with rfl | he
        · exact ⟨by simp, Or.inr ⟨content, rfl, hsome⟩⟩
        · exact hkept e (hentered e he)

/-- The record of a checkpoint serves in every tree with the same
snapshot directory. -/
theorem createCheckpoint_backed {later : Files Path ν} (hfiles : ∀ f ∈ files, ¬ Snapshot f)
    (hlater : ∀ p, Snapshot p → later p = copies checkpointId files work p) :
    Backed work later (createCheckpoint checkpointId files work).2 := by
  intro e he
  obtain ⟨hfile, habsent | ⟨content, hbackup, hcontent⟩⟩ := (createCheckpoint_spec hfiles).2 e he
  · exact ⟨hfiles e.1 hfile, Or.inl habsent⟩
  · have hsnapshot := snapshot_copy checkpointId e.1
    refine ⟨hfiles e.1 hfile, Or.inr ⟨_, content, hbackup, hsnapshot, hcontent, ?_⟩⟩
    rw [hlater _ hsnapshot, copies_copy hfile hcontent]

-- ===== restore

theorem restoreFiles_backed {workspace : Path} {before : Files Path ν} {copied : Copied}
    (h : Backed before work copied) {p : Path}
    (hwork : work p = before p) : (restoreFiles workspace copied work).1 p = before p := by
  induction copied generalizing work with
  | nil => exact hwork
  | cons e rest ih =>
      obtain ⟨target, backup⟩ := e
      obtain ⟨htarget, hentry⟩ := h (target, backup) (List.mem_cons_self ..)
      have hrest : ∀ later : Files Path ν, (∀ q, Snapshot q → later q = work q) →
          Backed before later rest := fun later hlater f hf => by
        obtain ⟨hfile, hf⟩ := h f (List.mem_cons_of_mem _ hf)
        refine ⟨hfile, hf.imp_right ?_⟩
        rintro ⟨b, c, hb, hsnapshot, hbefore, hcopy⟩
        exact ⟨b, c, hb, hsnapshot, hbefore, (hlater b hsnapshot).trans hcopy⟩
      have hne : ∀ q, Snapshot q → q ≠ target := fun q hq heq => htarget (heq ▸ hq)
      rcases hentry with ⟨hb, hbefore⟩ | ⟨b, content, hb, -, hbefore, hcopy⟩
      · obtain rfl : backup = none := hb
        refine ih (hrest _ fun q hq => Dict.erase_of_ne _ (hne q hq)) ?_
        by_cases heq : p = target
        · subst heq
          rw [Dict.erase_self, hbefore]
        · rw [Dict.erase_of_ne _ heq, hwork]
      · obtain rfl : backup = some b := hb
        unfold restoreFiles
        rw [hcopy]
        refine ih (hrest _ fun q hq => Dict.insert_of_ne _ _ (hne q hq)) ?_
        by_cases heq : p = target
        · subst heq
          rw [Dict.insert_self, hbefore]
        · rw [Dict.insert_of_ne _ _ heq, hwork]

theorem restoreCheckpoint_backed {workspace : Path}
    {before : Files Path ν} {copied : Copied} (h : Backed before work copied)
    {p : Path} (hp : ¬ Snapshot p) (hwork : work p = before p) :
    (restoreCheckpoint workspace checkpointId copied work).1 p = before p := by
  have hfiles := @restoreFiles_backed _ _ workspace _ _ h p hwork
  unfold restoreCheckpoint
  split
  next hcase => rw [hcase] at hfiles; exact hfiles
  next hcase =>
    rw [hcase] at hfiles
    exact (if_neg fun hpre => hp (snapshot_checkpoint hpre)).trans hfiles

-- ===== git state

def checkpointed (checkpointId : Name) (files : List Path) (r : Repo Path ν) : Repo Path ν :=
  r.setWork (copies checkpointId files r.work)

/-- What a checkpoint leaves of the user's state, whether the step goes
well or is rolled back: the stash, and the files outside the snapshot
directory. The command between may change every file outside it; rolling
back answers for the files git answers for. -/
structure Undisturbed (manager : RollbackManager ν) (checkpointId : Name) (files : List Path)
    (r : Repo Path ν) : Prop where
  kept_stash : (manager.keep (manager.saveState checkpointId files r).2
    (manager.saveState checkpointId files r).1).stash = r.stash
  kept_files : ∀ p, ¬ Snapshot p → (manager.keep (manager.saveState checkpointId files r).2
    (manager.saveState checkpointId files r).1).work p = r.work p
  back_stash : ∀ work : Files Path ν,
    (∀ p, Snapshot p → work p = (manager.saveState checkpointId files r).1.work p) →
    (manager.rollback (manager.saveState checkpointId files r).2
      ((manager.saveState checkpointId files r).1.setWork work)).1.stash = r.stash
  back_files : ∀ work : Files Path ν,
    (∀ p, Snapshot p → work p = (manager.saveState checkpointId files r).1.work p) →
    ∀ p, ¬ Snapshot p → Visible manager.gitTracker.git.ignored r p →
      (manager.rollback (manager.saveState checkpointId files r).2
        ((manager.saveState checkpointId files r).1.setWork work)).1.work p = r.work p

section

variable {manager : RollbackManager ν} {checkpointId : Name} {files : List Path} {r : Repo Path ν}

theorem visible_checkpointed {ignored : Path → Bool} {p : Path} (hp : ¬ Snapshot p)
    (h : Visible ignored r p) : Visible ignored (checkpointed checkpointId files r) p := by
  have hwork : (checkpointed checkpointId files r).work p = r.work p := copies_of_not_snapshot hp
  unfold Visible
  rw [hwork]
  exact h

/-- In a git repository, saving the state is a push and an apply over the
copies, both taken to have succeeded. -/
theorem saveState_git (hgit : manager.gitTracker.isGit = true)
    (hfiles : ∀ f ∈ files, ¬ Snapshot f) :
    manager.saveState checkpointId files r =
      ((manager.gitTracker.git.apply
          (manager.gitTracker.git.push (checkpointed checkpointId files r))).1,
        ⟨checkpointId, (createCheckpoint checkpointId files r.work).2, true, true⟩) := by
  have hcopies : (createCheckpoint checkpointId files r.work).1
      = copies checkpointId files r.work := (createCheckpoint_spec hfiles).1
  simp [RollbackManager.saveState, GitTracker.createStash, GitTracker.applyStash, hgit, hcopies,
    checkpointed]

theorem keep_git (hgit : manager.gitTracker.isGit = true) (copied : Copied) :
    manager.keep ⟨checkpointId, copied, true, true⟩ r = r.drop.1 := by
  simp [RollbackManager.keep, GitTracker.dropStash, hgit]

theorem rollback_stash (hgit : manager.gitTracker.isGit = true) (copied : Copied) :
    (manager.rollback ⟨checkpointId, copied, true, true⟩ r).1.stash
      = (manager.gitTracker.git.pop (manager.gitTracker.git.clean r.resetHard)).1.stash := by
  simp [RollbackManager.rollback, GitTracker.popStash, hgit]

/-- Where git brings the tree back and keeps the snapshots, the restored
copies change nothing. -/
theorem rollback_files (hgit : manager.gitTracker.isGit = true)
    (hfiles : ∀ f ∈ files, ¬ Snapshot f) {s : Repo Path ν} {p : Path} (hp : ¬ Snapshot p)
    (hsnapshots : ∀ q, Snapshot q →
      (manager.gitTracker.git.pop (manager.gitTracker.git.clean s.resetHard)).1.work q
        = copies checkpointId files r.work q)
    (hwork : (manager.gitTracker.git.pop (manager.gitTracker.git.clean s.resetHard)).1.work p
      = r.work p) :
    (manager.rollback
        ⟨checkpointId, (createCheckpoint checkpointId files r.work).2, true, true⟩ s).1.work p
      = r.work p := by
  have hrestored := @restoreCheckpoint_backed _ checkpointId _ manager.workspacePath _ _
    (createCheckpoint_backed hfiles hsnapshots) p hp hwork
  simpa [RollbackManager.rollback, GitTracker.popStash, hgit] using hrestored

/-- The tree git brings back, from the two facts about the files it
answers for and the others. -/
theorem back_of_recovered {git : Tool Path ν} {recovered work : Files Path ν}
    (hwork : ∀ p, Snapshot p → work p = (checkpointed checkpointId files r).work p)
    (h : ∀ p, (Visible git.ignored (checkpointed checkpointId files r) p →
          recovered p = (checkpointed checkpointId files r).work p) ∧
        (¬ Visible git.ignored (checkpointed checkpointId files r) p → recovered p = work p)) :
    (∀ q, Snapshot q → recovered q = copies checkpointId files r.work q) ∧
      ∀ p, ¬ Snapshot p → Visible git.ignored r p → recovered p = r.work p := by
  refine ⟨fun q hq => ?_, fun p hp hvisible => ?_⟩
  · by_cases hvisible : Visible git.ignored (checkpointed checkpointId files r) q
    · exact (h q).1 hvisible
    · exact ((h q).2 hvisible).trans (hwork q hq)
  · exact ((h p).1 (visible_checkpointed hp hvisible)).trans (copies_of_not_snapshot hp)

-- ===== the cases

/-- With something to stash, the entry `save_state` made is the newest,
and only a file in its way keeps a rollback from removing it. -/
theorem undisturbed_dirty (hgit : manager.gitTracker.isGit = true)
    (hfiles : ∀ f ∈ files, ¬ Snapshot f)
    (hdirty : Dirty manager.gitTracker.git.ignored (checkpointed checkpointId files r)) :
    Undisturbed manager checkpointId files r ↔
      ¬ Unindexed manager.gitTracker.git.ignored (checkpointed checkpointId files r) := by
  have hsave := @saveState_git _ manager checkpointId files r hgit hfiles
  rw [Tool.apply_push hdirty] at hsave
  refine ⟨fun h => ?_, fun h => ⟨?_, fun p hp => ?_, fun work _ => ?_, fun work hwork p hp hv => ?_⟩⟩
  · have hback := h.back_stash (manager.saveState checkpointId files r).1.work fun _ _ => rfl
    rw [hsave, rollback_stash hgit] at hback
    exact (Tool.pop_stash _).mp hback
  · rw [hsave, keep_git hgit]
    rfl
  · rw [hsave, keep_git hgit]
    exact copies_of_not_snapshot hp
  · rw [hsave, rollback_stash hgit]
    exact (Tool.pop_stash work).mpr h
  · rw [hsave] at hwork ⊢
    obtain ⟨hsnapshots, hfront⟩ := back_of_recovered hwork (Tool.pop_restores work)
    exact rollback_files hgit hfiles hp hsnapshots (hfront p hp hv)

/-- With nothing to stash and no entry, git has nothing to apply, drop or
pop. -/
theorem undisturbed_clean (hgit : manager.gitTracker.isGit = true)
    (hfiles : ∀ f ∈ files, ¬ Snapshot f)
    (hclean : ¬ Dirty manager.gitTracker.git.ignored (checkpointed checkpointId files r))
    (hstash : r.stash = []) : Undisturbed manager checkpointId files r := by
  have hnone : (checkpointed checkpointId files r).stash = [] := hstash
  have hsave := @saveState_git _ manager checkpointId files r hgit hfiles
  rw [Tool.push_clean hclean, Tool.apply_nil hnone] at hsave
  have hpop : ∀ work, ((checkpointed checkpointId files r).setWork work).stash = [] := fun _ => hnone
  refine ⟨?_, fun p hp => ?_, fun work _ => ?_, fun work hwork p hp hvisible => ?_⟩
  · rw [hsave, keep_git hgit, Repo.drop_nil hnone]
    rfl
  · rw [hsave, keep_git hgit, Repo.drop_nil hnone]
    exact copies_of_not_snapshot hp
  · rw [hsave, rollback_stash hgit, Tool.pop_clean_nil (hpop work)]
    rfl
  · rw [hsave] at hwork ⊢
    obtain ⟨hsnapshots, hfront⟩ := back_of_recovered hwork (Tool.clean_restores hclean work)
    refine rollback_files hgit hfiles hp (fun q hq => ?_) ?_
    · rw [Tool.pop_clean_nil (hpop work)]
      exact hsnapshots q hq
    · rw [Tool.pop_clean_nil (hpop work)]
      exact hfront p hp hvisible

/-- With nothing to stash, the success path drops the user's own newest
entry. -/
theorem stash_nil_of_undisturbed (hgit : manager.gitTracker.isGit = true)
    (hfiles : ∀ f ∈ files, ¬ Snapshot f)
    (hclean : ¬ Dirty manager.gitTracker.git.ignored (checkpointed checkpointId files r))
    (h : Undisturbed manager checkpointId files r) : r.stash = [] := by
  have hkept := h.kept_stash
  rw [saveState_git hgit hfiles, keep_git hgit, Repo.drop_stash, Tool.apply_stash,
    Tool.push_clean hclean] at hkept
  have hlength : r.stash.tail.length = r.stash.length := congrArg List.length hkept
  rw [List.length_tail] at hlength
  exact List.eq_nil_of_length_eq_zero (by omega)

end

/-- A workspace under git where one file is committed; `content` is what
stands in the tree, and the user has stashed something before. -/
def oneFile (content : Nat) : Repo Path Nat where
  head := Dict.empty.insert ["a".toList] 1
  index := Dict.empty.insert ["a".toList] 1
  work := Dict.empty.insert ["a".toList] content
  stash := [⟨Dict.empty.insert ["a".toList] 0, Dict.empty.insert ["a".toList] 3, Dict.empty⟩]

noncomputable def plainManager : RollbackManager Nat where
  workspacePath := ["w".toList]
  gitTracker := { git := Tool.plain fun _ => false, isGit := true }

end Velune.Rollback
