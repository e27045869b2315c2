/-
What a version-control tool's commands do to a working tree and a stash.

A repository is its last commit, its index, its working tree and its
stash; trees are dictionaries from paths to contents. `push`, `reset` and
`clean` are as documented, untracked files that are not ignored included.
What applying an entry does in general is a merge, a parameter; on the
tree it was made from, with nothing else changed, it is the inverse of
making it (`merge_own`). Neither `push` nor any other command here fails,
except for `apply`, `pop` and `drop` without an entry and a merge that
does not go through.
-/
import Velune.Lib.Dict

namespace Lib.Git

variable {κ ν : Type}

abbrev Files (κ ν : Type) := Dict κ ν

/-- A stash entry: the commit it was made on, the tracked files of the
working tree, and the untracked ones. -/
structure Entry (κ ν : Type) where
  base : Files κ ν
  tracked : Files κ ν
  untracked : Files κ ν

structure Repo (κ ν : Type) where
  head : Files κ ν
  index : Files κ ν
  work : Files κ ν
  stash : List (Entry κ ν)

def Repo.setWork (r : Repo κ ν) (work : Files κ ν) : Repo κ ν := { r with work := work }

@[simp] theorem Repo.setWork_head (r : Repo κ ν) (work : Files κ ν) :
    (r.setWork work).head = r.head := rfl

@[simp] theorem Repo.setWork_index (r : Repo κ ν) (work : Files κ ν) :
    (r.setWork work).index = r.index := rfl

@[simp] theorem Repo.setWork_work (r : Repo κ ν) (work : Files κ ν) :
    (r.setWork work).work = work := rfl

@[simp] theorem Repo.setWork_stash (r : Repo κ ν) (work : Files κ ν) :
    (r.setWork work).stash = r.stash := rfl

def Repo.tracked (r : Repo κ ν) (p : κ) : Bool := (r.head p).isSome || (r.index p).isSome

/-- There is something to stash: a change in the index, a change of a
file in it, or an untracked file that is not ignored. -/
def Dirty (ignored : κ → Bool) (r : Repo κ ν) : Prop :=
  (∃ p, r.index p ≠ r.head p) ∨ (∃ p, r.index p ≠ none ∧ r.work p ≠ r.index p) ∨
    ∃ p, ignored p = false ∧ r.index p = none ∧ r.work p ≠ none

/-- The files a repository answers for: those not ignored, those of the
last commit, and those of the index that are there. -/
def Visible (ignored : κ → Bool) (r : Repo κ ν) (p : κ) : Prop :=
  ignored p = false ∨ r.head p ≠ none ∨ (r.index p ≠ none ∧ r.work p ≠ none)

/-- The working tree an entry was made from, over what stands there. -/
def Entry.restore (e : Entry κ ν) (work : Files κ ν) : Files κ ν := fun p =>
  if (e.base p).isSome || (e.tracked p).isSome then e.tracked p else (e.untracked p).or (work p)

def Entry.stage (e : Entry κ ν) : Files κ ν := fun p => (e.base p).or (e.tracked p)

/-- The entry made from a repository. A file taken out of the index that
still stands in the tree counts twice: as a file of the commit, and as an
untracked one. -/
def Repo.entry (ignored : κ → Bool) (r : Repo κ ν) : Entry κ ν where
  base := r.head
  tracked p := if r.tracked p then r.work p else none
  untracked p := if (r.index p).isSome || ignored p then none else r.work p

/-- Some file of the commit was taken out of the index and left in the
tree, where nothing ignores it. -/
def Unindexed (ignored : κ → Bool) (r : Repo κ ν) : Prop :=
  ∃ p, ignored p = false ∧ r.head p ≠ none ∧ r.index p = none ∧ r.work p ≠ none

/-- What applying an entry leaves, and whether it went through. -/
structure Applied (κ ν : Type) where
  work : Files κ ν
  index : Files κ ν
  ok : Bool

/-- The tool: its ignore rules, whether it sees something to stash, and
how it merges an entry into a working tree. On a clean tree of the commit
an entry was made on, the merge brings the files back; it reports failure
when one of the untracked files is in the way of a tracked one. -/
structure Tool (κ ν : Type) where
  ignored : κ → Bool
  changed : Repo κ ν → Bool
  changed_iff : ∀ r, changed r = true ↔ Dirty ignored r
  merge : Entry κ ν → Repo κ ν → Applied κ ν
  merge_work : ∀ s r : Repo κ ν, s.head = r.head → ¬ Dirty ignored r →
    (merge (s.entry ignored) r).work = (s.entry ignored).restore r.work
  merge_index : ∀ s r : Repo κ ν, s.head = r.head → ¬ Dirty ignored r →
    (merge (s.entry ignored) r).index = (s.entry ignored).stage
  merge_ok : ∀ s r : Repo κ ν, s.head = r.head → ¬ Dirty ignored r →
    ((merge (s.entry ignored) r).ok = true ↔ ¬ Unindexed ignored s)

/-- A tool that merges into a clean tree only, and otherwise overwrites. -/
noncomputable def Tool.plain (ignored : κ → Bool) : Tool κ ν where
  ignored := ignored
  changed r := by classical exact decide (Dirty ignored r)
  changed_iff r := by simp
  merge e r :=
    { work := e.restore r.work
      index := e.stage
      ok := by classical exact decide (¬ ∃ p, e.tracked p ≠ none ∧ e.untracked p ≠ none) }
  merge_work _ _ _ _ := rfl
  merge_index _ _ _ _ := rfl
  merge_ok s r _ _ := by
    have hblocked : (∃ p, (s.entry ignored).tracked p ≠ none ∧ (s.entry ignored).untracked p ≠ none)
        ↔ Unindexed ignored s := by
      refine exists_congr fun p => ⟨fun ⟨htracked, huntracked⟩ => ?_, fun h => ?_⟩
      · have hknown : s.tracked p = true ∧ s.work p ≠ none := by
          simpa [Repo.entry] using htracked
        obtain ⟨hindex, hignored, hwork⟩ :
            s.index p = none ∧ ignored p = false ∧ s.work p ≠ none := by
          simpa [Repo.entry] using huntracked
        have hhead : s.head p ≠ none := by
          simpa [Repo.tracked, hindex, Option.isSome_iff_ne_none] using hknown.1
        exact ⟨hignored, hhead, hindex, hwork⟩
      · obtain ⟨hignored, hhead, hindex, hwork⟩ := h
        refine ⟨?_, by simpa [Repo.entry, hindex, hignored] using hwork⟩
        simpa [Repo.entry, Repo.tracked, Option.isSome_iff_ne_none, hhead] using hwork
    simp [← hblocked]

-- ===== commands

/-- `reset --hard HEAD`. -/
def Repo.resetHard (r : Repo κ ν) : Repo κ ν :=
  { r with index := r.head, work := fun p => if r.tracked p then r.head p else r.work p }

namespace Tool

variable (git : Tool κ ν)

/-- `clean -fd`. -/
def clean (r : Repo κ ν) : Repo κ ν :=
  { r with work := fun p => if (r.index p).isSome || git.ignored p then r.work p else none }

def stashed (r : Repo κ ν) : Repo κ ν :=
  { git.clean r.resetHard with stash := r.entry git.ignored :: r.stash }

/-- `stash push --include-untracked`: nothing happens when there is
nothing to stash. -/
def push (r : Repo κ ν) : Repo κ ν := if git.changed r then git.stashed r else r

/-- `stash apply`, and whether it succeeded. -/
def apply (r : Repo κ ν) : Repo κ ν × Bool :=
  match r.stash with
  | [] => (r, false)
  | e :: _ =>
      let a := git.merge e r
      ({ r with work := a.work, index := a.index }, a.ok)

/-- `stash pop`: an entry that cannot be applied is kept. -/
def pop (r : Repo κ ν) : Repo κ ν × Bool :=
  match r.stash with
  | [] => (r, false)
  | e :: rest =>
      let a := git.merge e r
      ({ r with work := a.work, index := a.index, stash := if a.ok then rest else r.stash }, a.ok)

/-- What a push with something to stash leaves once it is applied again:
the files as they were, the index with what was added, and the entry on
top. -/
def kept (r : Repo κ ν) : Repo κ ν where
  head := r.head
  index := (r.entry git.ignored).stage
  work := r.work
  stash := r.entry git.ignored :: r.stash

end Tool

/-- `stash drop`. -/
def Repo.drop (r : Repo κ ν) : Repo κ ν × Bool :=
  match r.stash with
  | [] => (r, false)
  | _ :: rest => ({ r with stash := rest }, true)

-- ===== laws

theorem Repo.drop_stash {r : Repo κ ν} : r.drop.1.stash = r.stash.tail := by
  unfold Repo.drop
  split
  next h => simp [h]
  next h => simp [h]

theorem Repo.drop_nil {r : Repo κ ν} (h : r.stash = []) : r.drop = (r, false) := by
  simp [Repo.drop, h]

namespace Tool

variable {git : Tool κ ν} {r : Repo κ ν}

theorem clean_resetHard_work (p : κ) :
    (git.clean r.resetHard).work p
      = if r.tracked p then r.head p else if git.ignored p then r.work p else none := by
  simp only [clean, Repo.resetHard, Repo.tracked]
  by_cases hhead : (r.head p).isSome = true
  · simp [hhead]
  · have hnone : r.head p = none := by simpa using hhead
    by_cases hindex : (r.index p).isSome = true <;> simp [hnone, hindex]

theorem not_dirty_clean : ¬ Dirty git.ignored (git.clean r.resetHard) := by
  rintro (⟨p, h⟩ | ⟨p, hindex, hwork⟩ | ⟨p, hignored, hindex, hwork⟩)
  · exact h rfl
  · have hhead : r.head p ≠ none := hindex
    refine hwork ?_
    rw [clean_resetHard_work, if_pos (by simp [Repo.tracked, Option.isSome_iff_ne_none, hhead])]
    rfl
  · have hhead : r.head p = none := hindex
    refine hwork ?_
    rw [clean_resetHard_work, hhead, hignored]
    simp

/-- What an entry brings back over a tree without untracked files: the
files the repository answers for as they were. -/
theorem restore_visible {work : Files κ ν} {p : κ} (hvisible : Visible git.ignored r p)
    (h : git.ignored p = false → r.head p = none → r.work p = none → work p = none) :
    (r.entry git.ignored).restore work p = r.work p := by
  simp only [Entry.restore, Repo.entry, Repo.tracked]
  obtain hhead | ⟨c, hhead⟩ := Option.eq_none_or_eq_some (r.head p)
  · obtain hwork | ⟨c, hwork⟩ := Option.eq_none_or_eq_some (r.work p)
    · have hignored : git.ignored p = false := by simpa [Visible, hhead, hwork] using hvisible
      simp [hhead, hwork, h hignored hhead hwork]
    · by_cases hindex : (r.index p).isSome = true
      · simp [hhead, hindex, hwork]
      · have hnone : r.index p = none := by simpa using hindex
        have hignored : git.ignored p = false := by simpa [Visible, hhead, hnone] using hvisible
        simp [hhead, hnone, hwork, hignored]
  · simp [hhead]

/-- A file the repository does not answer for is ignored and unknown to
the commit, and an entry says nothing about it. -/
theorem hidden_ignored {p : κ} (h : ¬ Visible git.ignored r p) :
    git.ignored p = true ∧ r.head p = none ∧
      (r.entry git.ignored).tracked p = none ∧ (r.entry git.ignored).untracked p = none := by
  simp only [Visible, not_or, not_and, Bool.not_eq_false, not_not] at h
  obtain ⟨hignored, hhead, hindex⟩ := h
  refine ⟨hignored, hhead, ?_, by simp [Repo.entry, hignored]⟩
  by_cases hnone : r.index p = none
  · simp [Repo.entry, Repo.tracked, hhead, hnone]
  · simp [Repo.entry, hindex hnone]

/-- An entry leaves the files alone that the repository it was made from
does not answer for. -/
theorem restore_hidden {work : Files κ ν} {p : κ} (h : ¬ Visible git.ignored r p) :
    (r.entry git.ignored).restore work p = work p := by
  obtain ⟨-, hhead, htracked, huntracked⟩ := hidden_ignored h
  have hbase : (r.entry git.ignored).base p = none := hhead
  simp [Entry.restore, hbase, htracked, huntracked]

/-- A push with something to stash, applied again, brings every file back. -/
theorem apply_push (h : Dirty git.ignored r) : (git.apply (git.push r)).1 = git.kept r := by
  have hpush : git.push r = git.stashed r := if_pos ((git.changed_iff r).mpr h)
  have hclean : ¬ Dirty git.ignored (git.stashed r) := not_dirty_clean
  have hwork : (r.entry git.ignored).restore (git.stashed r).work = r.work := by
    funext p
    have hleft : (git.stashed r).work p = (git.clean r.resetHard).work p := rfl
    by_cases hvisible : Visible git.ignored r p
    · refine restore_visible hvisible fun hignored hhead _ => ?_
      rw [hleft, clean_resetHard_work]
      simp [hhead, hignored]
    · obtain ⟨hignored, hhead, htracked, -⟩ := hidden_ignored hvisible
      rw [restore_hidden hvisible, hleft, clean_resetHard_work, hhead, hignored]
      split
      next hknown => simpa [Repo.entry, hknown] using htracked.symm
      next => rfl
  have happly : (git.apply (git.stashed r)).1 =
      { git.stashed r with
        work := (git.merge (r.entry git.ignored) (git.stashed r)).work
        index := (git.merge (r.entry git.ignored) (git.stashed r)).index } := rfl
  rw [hpush, happly, git.merge_work r (git.stashed r) rfl hclean,
    git.merge_index r (git.stashed r) rfl hclean, hwork]
  rfl

theorem push_clean (h : ¬ Dirty git.ignored r) : git.push r = r :=
  if_neg fun hchanged => h ((git.changed_iff r).mp hchanged)

theorem pop_clean_nil (h : r.stash = []) :
    (git.pop (git.clean r.resetHard)).1 = git.clean r.resetHard := by
  have hnone : (git.clean r.resetHard).stash = [] := h
  simp [pop, hnone]

theorem apply_nil (h : r.stash = []) : git.apply r = (r, false) := by
  simp [apply, h]

theorem apply_stash : (git.apply r).1.stash = r.stash := by
  unfold apply
  split <;> rfl

/-- A reset, a clean-up and a pop undo what happened to the working tree
after an entry was made and applied. -/
theorem pop_restores (work : Files κ ν) (p : κ) :
    (Visible git.ignored r p →
        (git.pop (git.clean ((git.kept r).setWork work).resetHard)).1.work p = r.work p) ∧
      (¬ Visible git.ignored r p →
        (git.pop (git.clean ((git.kept r).setWork work).resetHard)).1.work p = work p) := by
  have hpop : (git.pop (git.clean ((git.kept r).setWork work).resetHard)).1.work
      = (r.entry git.ignored).restore (git.clean ((git.kept r).setWork work).resetHard).work :=
    git.merge_work r _ rfl not_dirty_clean
  have hhead : ((git.kept r).setWork work).head = r.head := rfl
  rw [hpop]
  refine ⟨fun hvisible => restore_visible hvisible fun hignored hnone _ => ?_, fun hvisible => ?_⟩
  · rw [clean_resetHard_work, hhead, hnone, hignored]
    simp
  · obtain ⟨hignored, hnone, htracked, -⟩ := hidden_ignored hvisible
    have hindex : ((git.kept r).setWork work).index p = none := by
      simp [kept, Entry.stage, htracked, show (r.entry git.ignored).base p = none from hnone]
    rw [restore_hidden hvisible, clean_resetHard_work, hhead, hignored]
    simp [Repo.tracked, hindex, show (git.kept r).head p = none from hnone]

/-- The pop removes the entry unless one of its untracked files was in
the way. -/
theorem pop_stash (work : Files κ ν) :
    (git.pop (git.clean ((git.kept r).setWork work).resetHard)).1.stash = r.stash
      ↔ ¬ Unindexed git.ignored r := by
  have hstash : (git.clean ((git.kept r).setWork work).resetHard).stash
      = r.entry git.ignored :: r.stash := rfl
  have hok := git.merge_ok r (git.clean ((git.kept r).setWork work).resetHard) rfl not_dirty_clean
  simp only [pop, hstash, ← hok]
  split
  next h => simp [h]
  next h => simp [h]

/-- On a clean tree, a reset and a clean-up alone undo what happened to
the working tree. -/
theorem clean_restores (h : ¬ Dirty git.ignored r) (work : Files κ ν) (p : κ) :
    (Visible git.ignored r p →
        (git.clean (r.setWork work).resetHard).work p = r.work p) ∧
      (¬ Visible git.ignored r p →
        (git.clean (r.setWork work).resetHard).work p = work p) := by
  simp only [Dirty, not_or, not_exists, not_and, not_not] at h
  obtain ⟨hindex, hwork, huntracked⟩ := h
  rw [clean_resetHard_work]
  have htracked : (r.setWork work).tracked p = (r.head p).isSome := by
    simp [Repo.tracked, hindex p]
  rw [htracked]
  refine ⟨fun hvisible => ?_, fun hvisible => ?_⟩
  · obtain hhead | ⟨c, hhead⟩ := Option.eq_none_or_eq_some (r.head p)
    · have hnone : r.index p = none := (hindex p).trans hhead
      have hignored : git.ignored p = false := by simpa [Visible, hhead, hnone] using hvisible
      simp [hhead, hignored, huntracked p hignored hnone]
    · have hsome : r.index p = some c := (hindex p).trans hhead
      simp [hhead, hwork p (by simp [hsome]), hsome]
  · obtain ⟨hignored, hhead, -⟩ := hidden_ignored hvisible
    simp [hhead, hignored]

end Tool

end Lib.Git
