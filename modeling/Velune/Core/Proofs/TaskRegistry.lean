/-
When the registry knows every task that is not over.

The table holds one task a name. As long as no name is used again before
its task is over, and no table is cleared while a task is, the tasks of
the table are those that run (`Tracked`), which is what makes its count
right and a `cancel_all` complete; and either of the two loses a task at
once (`tasks_tracked_iff`).
-/
import Mathlib.Data.List.Nodup
import Mathlib.Data.List.Perm.Subperm
import Velune.Core.TaskRegistry

namespace Velune.Core

open Lib

namespace BackgroundTaskRegistry

-- ===== property

def unfinished (s : BackgroundTaskRegistry) : List Nat :=
  (List.range s.submitted.length).filter s.isPending

def Counted (s : BackgroundTaskRegistry) : Prop := s.pendingCount = s.unfinished.length

/-- `cancel_all` requests the cancellation of every task that runs. -/
def Requested : TaskStep → BackgroundTaskRegistry → Prop
  | .cancelAll, s => ∀ s', taskStep .cancelAll s = some s' →
      ∀ task ∈ s'.submitted, task.phase ≠ .done → task.cancelling = true
  | _, _ => True

/-- After a `cancel_all` only tasks run that have caught a cancellation
and gone on. -/
def Stopped : TaskStep → BackgroundTaskRegistry → Prop
  | .cleared call timedOut, s => ∀ s', taskStep (.cleared call timedOut) s = some s' →
      ∀ task ∈ s'.submitted, task.phase ≠ .done → task.defied = true
  | _, _ => True

def Orderly : TaskStep → BackgroundTaskRegistry → Prop
  | .submit name, s => ∀ task ∈ s.submitted, task.name = name → task.phase = .done
  | .cleared _ _, s => ∀ task ∈ s.submitted, task.phase = .done
  | _, _ => True

-- ===== invariant

structure Sound (s : BackgroundTaskRegistry) : Prop where
  keys : (Assoc.keys s.tasks).Nodup
  named : ∀ name id, s.tasks.get? name = some id → ∃ task, s.submitted[id]? = some task ∧ task.name = name

def Tracked (s : BackgroundTaskRegistry) : Prop :=
  ∀ (id : Nat) (task : BackgroundTask), s.submitted[id]? = some task → task.phase ≠ .done → s.tasks.get? task.name = some id

section Counting

variable {s : BackgroundTaskRegistry}

theorem isPending_iff {id : Nat} :
    s.isPending id = true ↔ ∃ task, s.submitted[id]? = some task ∧ task.phase ≠ .done := by
  simp [isPending, Option.any_eq_true]

theorem mem_unfinished {id : Nat} : id ∈ s.unfinished ↔ s.isPending id = true := by
  refine List.mem_filter.trans (and_iff_right_of_imp fun h => List.mem_range.2 ?_)
  obtain ⟨task, htask, -⟩ := isPending_iff.1 h
  exact (List.getElem?_eq_some_iff.1 htask).1

theorem mem_pending (h : Sound s) {id : Nat} :
    id ∈ s.pending ↔ s.isPending id = true ∧ ∃ name, s.tasks.get? name = some id := by
  refine List.mem_filter.trans (and_comm.trans (and_congr_right fun _ => ?_))
  simp only [Assoc.get?_eq_some_iff h.keys, List.mem_map, Prod.exists, exists_eq_right]

theorem pending_nodup (h : Sound s) : s.pending.Nodup := by
  refine List.Nodup.filter _ (List.Nodup.map_on ?_ (List.Nodup.of_map _ h.keys))
  rintro ⟨name, id⟩ hmem ⟨name', id'⟩ hmem' heq
  obtain ⟨task, htask, hname⟩ := h.named _ _ ((Assoc.get?_eq_some_iff h.keys).2 hmem)
  obtain ⟨task', htask', hname'⟩ := h.named _ _ ((Assoc.get?_eq_some_iff h.keys).2 hmem')
  have hid : id = id' := heq
  subst hid
  cases htask.symm.trans htask'
  rw [← hname, ← hname']

theorem pending_subset (h : Sound s) : s.pending ⊆ s.unfinished :=
  fun _ hid => mem_unfinished.2 ((mem_pending h).1 hid).1

theorem tracked_iff_subset (h : Sound s) : s.Tracked ↔ s.unfinished ⊆ s.pending := by
  refine ⟨fun htracked id hid => ?_, fun hsubset id task htask hphase => ?_⟩
  · obtain ⟨task, htask, hphase⟩ := isPending_iff.1 (mem_unfinished.1 hid)
    exact (mem_pending h).2 ⟨mem_unfinished.1 hid, task.name, htracked id task htask hphase⟩
  · have hpending := isPending_iff.2 ⟨task, htask, hphase⟩
    obtain ⟨-, name, hget⟩ := (mem_pending h).1 (hsubset (mem_unfinished.2 hpending))
    obtain ⟨task', htask', hname⟩ := h.named name id hget
    cases htask.symm.trans htask'
    rw [hname, hget]

theorem counted_iff (h : Sound s) : s.Counted ↔ s.Tracked := by
  have hunfinished : s.unfinished.Nodup := List.Nodup.filter _ List.nodup_range
  rw [tracked_iff_subset h, Counted, pendingCount]
  refine ⟨fun hlength => ?_, fun hsubset => ?_⟩
  · have hsubperm := (pending_nodup h).subperm (pending_subset h)
    exact (hsubperm.perm_of_length_le (Nat.le_of_eq hlength.symm)).symm.subset
  · refine Nat.le_antisymm ?_ (hunfinished.subperm hsubset).length_le
    exact ((pending_nodup h).subperm (pending_subset h)).length_le

end Counting

-- ===== steps

structure Later (s s' : BackgroundTaskRegistry) : Prop where
  back : ∀ (id : Nat) (task' : BackgroundTask), s'.submitted[id]? = some task' →
    ∃ task : BackgroundTask, s.submitted[id]? = some task ∧ task'.name = task.name
      ∧ (task.phase = .done → task'.phase = .done)
  forth : ∀ (id : Nat) (task : BackgroundTask), s.submitted[id]? = some task →
    ∃ task' : BackgroundTask, s'.submitted[id]? = some task' ∧ task'.name = task.name

section Steps

variable {s s' : BackgroundTaskRegistry}

theorem Later.of_eq (h : s'.submitted = s.submitted) : Later s s' :=
  ⟨fun _ task' htask => ⟨task', h ▸ htask, rfl, id⟩, fun _ task htask => ⟨task, h ▸ htask, rfl⟩⟩

theorem Later.of_update {id : Nat} {f : BackgroundTask → BackgroundTask} {task : BackgroundTask}
    (hget : s.submitted[id]? = some task) (hsubmitted : s'.submitted = (s.update id f).submitted)
    (hname : (f task).name = task.name) (hdone : task.phase = .done → (f task).phase = .done) :
    Later s s' := by
  refine ⟨fun i task' htask => ?_, fun i old htask => ?_⟩
  · rw [hsubmitted, update, List.getElem?_modify] at htask
    obtain ⟨old, hold, heq⟩ := Option.map_eq_some_iff.1 htask
    refine ⟨old, hold, ?_⟩
    split at heq
    · rename_i hi
      subst hi
      cases hget.symm.trans hold
      exact heq ▸ ⟨hname, hdone⟩
    · exact heq ▸ ⟨rfl, fun h => h⟩
  · rw [hsubmitted, update, List.getElem?_modify, htask]
    refine ⟨_, rfl, ?_⟩
    dsimp only
    split
    · rename_i hi
      subst hi
      cases hget.symm.trans htask
      exact hname
    · rfl

theorem Later.sound (h : Later s s') (hsound : Sound s) (htasks : s'.tasks = s.tasks) : Sound s' := by
  refine ⟨htasks ▸ hsound.keys, fun name id hget => ?_⟩
  obtain ⟨task, htask, hname⟩ := hsound.named name id (htasks ▸ hget)
  obtain ⟨task', htask', hsame⟩ := h.forth id task htask
  exact ⟨task', htask', hsame.trans hname⟩

theorem Later.tracked (h : Later s s') (htracked : Tracked s) (htasks : s'.tasks = s.tasks) :
    Tracked s' := by
  intro id task' htask' hphase
  obtain ⟨task, htask, hname, hdone⟩ := h.back id task' htask'
  rw [htasks, hname]
  exact htracked id task htask fun hd => hphase (hdone hd)

theorem later_cancelAll (s : BackgroundTaskRegistry) : Later s s.cancelAll := by
  unfold cancelAll
  split
  · exact Later.of_eq rfl
  · refine ⟨fun id task' htask => ?_, fun id task htask => ?_⟩
    · rw [List.getElem?_mapIdx] at htask
      obtain ⟨task, hget, heq⟩ := Option.map_eq_some_iff.1 htask
      refine ⟨task, hget, ?_⟩
      split at heq
      · exact heq ▸ ⟨rfl, fun h => h⟩
      · exact heq ▸ ⟨rfl, fun h => h⟩
    · dsimp only
      rw [List.getElem?_mapIdx, htask]
      refine ⟨_, rfl, ?_⟩
      dsimp only
      split
      · rfl
      · rfl

theorem tasks_cancelAll (s : BackgroundTaskRegistry) : s.cancelAll.tasks = s.tasks := by
  unfold cancelAll
  split
  · rfl
  · rfl

/-- What `submit` finds and adds. -/
theorem getElem?_submit {name : PyStr} {id : Nat} {task : BackgroundTask}
    (h : (s.submit name).submitted[id]? = some task) :
    s.submitted[id]? = some task ∨ id = s.submitted.length ∧ task = { name } := by
  simp only [submit] at h
  by_cases hlt : id < s.submitted.length
  · rw [List.getElem?_append_left hlt] at h
    exact Or.inl h
  · rw [List.getElem?_append_right (Nat.not_lt.1 hlt)] at h
    obtain ⟨hone, heq⟩ := List.getElem?_eq_some_iff.1 h
    have hzero : id - s.submitted.length = 0 := Nat.lt_one_iff.1 hone
    refine Or.inr ⟨Nat.le_antisymm (Nat.sub_eq_zero_iff_le.1 hzero) (Nat.not_lt.1 hlt), ?_⟩
    rw [← heq]
    exact List.mem_singleton.1 (List.getElem_mem _)

theorem sound_submit (h : Sound s) (name : PyStr) : Sound (s.submit name) := by
  refine ⟨Assoc.keys_set h.keys name _, fun other id hget => ?_⟩
  by_cases hother : other = name
  · subst hother
    rw [submit, Assoc.get?_set_self] at hget
    cases hget
    exact ⟨{ name := other }, by simp [submit], rfl⟩
  · rw [submit, Assoc.get?_set_of_ne _ _ hother] at hget
    obtain ⟨task, htask, hname⟩ := h.named other id hget
    exact ⟨task, by rw [submit, List.getElem?_append_left (List.getElem?_eq_some_iff.1 htask).1, htask], hname⟩

/-- A submitted task is added to those the table knows, unless it takes
the place of one that runs. -/
theorem tracked_submit (htracked : Tracked s) (name : PyStr) :
    Tracked (s.submit name) ↔ Orderly (.submit name) s := by
  refine ⟨fun h task hmem hname => ?_, fun h id task htask hphase => ?_⟩
  · obtain ⟨id, hid⟩ := List.mem_iff_getElem?.1 hmem
    have hlt := (List.getElem?_eq_some_iff.1 hid).1
    refine Decidable.byContradiction fun hphase => ?_
    have hget := h id task (by rw [submit, List.getElem?_append_left hlt, hid]) hphase
    rw [hname, submit, Assoc.get?_set_self] at hget
    exact Nat.ne_of_gt hlt (Option.some.inj hget)
  · rcases getElem?_submit htask with hold | ⟨rfl, rfl⟩
    · have hname : task.name ≠ name := fun hname => hphase (h task (List.mem_of_getElem? hold) hname)
      rw [submit, Assoc.get?_set_of_ne _ _ hname]
      exact htracked id task hold hphase
    · exact Assoc.get?_set_self _ _ _

/-- A task that ends frees its name, which no other running task has. -/
theorem tracked_finish {id : Nat} {task : BackgroundTask} (htracked : Tracked s)
    (htask : s.submitted[id]? = some task) (hphase : task.phase ≠ .done)
    (hsubmitted : s'.submitted = (s.update id fun t => { t with phase := .done }).submitted)
    (htasks : s'.tasks = s.tasks.pop task.name) : Tracked s' := by
  intro i task' htask' hphase'
  rw [hsubmitted, update, List.getElem?_modify] at htask'
  obtain ⟨old, hget, heq⟩ := Option.map_eq_some_iff.1 htask'
  split at heq
  · exact (hphase' (heq ▸ rfl)).elim
  · rename_i hi
    have hsame : old = task' := heq
    subst hsame
    rw [htasks, Assoc.get?_pop_of_ne _ fun hname => hi ?_]
    · exact htracked i old hget hphase'
    · have hother := htracked i old hget hphase'
      rw [hname, htracked id task htask hphase] at hother
      exact Option.some.inj hother

theorem later_step {step : TaskStep} (hstep : taskStep step s = some s') :
    (∃ name, step = .submit name) ∨ (∃ id, step = .finish id)
      ∨ (∃ call timedOut, step = .cleared call timedOut)
      ∨ (Later s s' ∧ s'.tasks = s.tasks) ∧ Stopped step s ∧ Orderly step s := by
  cases step with
  | submit name => exact Or.inl ⟨name, rfl⟩
  | finish id => exact Or.inr (Or.inl ⟨id, rfl⟩)
  | cleared call timedOut => exact Or.inr (Or.inr (Or.inl ⟨call, timedOut, rfl⟩))
  | start id =>
      refine Or.inr (Or.inr (Or.inr ⟨?_, trivial, trivial⟩))
      simp only [taskStep] at hstep
      split at hstep
      · split at hstep
        · rename_i hget hcreated
          cases hstep
          refine ⟨Later.of_update hget rfl rfl fun hdone => ?_, rfl⟩
          cases hcreated.symm.trans hdone
        · cases hstep
      · cases hstep
  | defy id =>
      refine Or.inr (Or.inr (Or.inr ⟨?_, trivial, trivial⟩))
      simp only [taskStep] at hstep
      split at hstep
      · split at hstep
        · rename_i hget hrunning
          cases hstep
          exact ⟨Later.of_update hget rfl rfl fun hdone => hdone, rfl⟩
        · cases hstep
      · cases hstep
  | cancel id =>
      refine Or.inr (Or.inr (Or.inr ⟨?_, trivial, trivial⟩))
      simp only [taskStep] at hstep
      split at hstep
      · rename_i hpending
        cases hstep
        obtain ⟨task, hget, -⟩ := isPending_iff.1 hpending
        exact ⟨Later.of_update hget rfl rfl fun hdone => hdone, rfl⟩
      · cases hstep
        exact ⟨Later.of_eq rfl, rfl⟩
  | cancelAll =>
      cases hstep
      exact Or.inr (Or.inr (Or.inr ⟨⟨later_cancelAll s, tasks_cancelAll s⟩, trivial, trivial⟩))
  | abandoned call =>
      refine Or.inr (Or.inr (Or.inr ⟨?_, trivial, trivial⟩))
      simp only [taskStep] at hstep
      split at hstep
      · cases hstep
        exact ⟨Later.of_eq rfl, rfl⟩
      · cases hstep

/-- What `finish` finds and leaves. -/
theorem finish_cases {id : Nat} (hstep : taskStep (.finish id) s = some s') :
    ∃ task, s.submitted[id]? = some task ∧ task.phase = .running
      ∧ s'.submitted = (s.update id fun t => { t with phase := .done }).submitted
      ∧ s'.tasks = s.tasks.pop task.name := by
  simp only [taskStep] at hstep
  split at hstep
  · split at hstep
    · rename_i task hget hrunning
      cases hstep
      exact ⟨task, hget, hrunning, rfl, rfl⟩
    · cases hstep
  · cases hstep

theorem cleared_cases {call : Nat} {timedOut : Bool}
    (hstep : taskStep (.cleared call timedOut) s = some s') :
    s'.submitted = s.submitted ∧ s'.tasks = [] := by
  simp only [taskStep] at hstep
  split at hstep
  · split at hstep
    · cases hstep
      exact ⟨rfl, rfl⟩
    · cases hstep
  · cases hstep

theorem sound_step {step : TaskStep} (h : Sound s) (hstep : taskStep step s = some s') : Sound s' := by
  rcases later_step hstep with ⟨name, rfl⟩ | ⟨id, rfl⟩ | ⟨call, timedOut, rfl⟩ | ⟨⟨hlater, htasks⟩, -⟩
  · cases hstep
    exact sound_submit h name
  · obtain ⟨task, hget, -, hsubmitted, htasks⟩ := finish_cases hstep
    have hlater : Later s s' := Later.of_update hget hsubmitted rfl fun _ => rfl
    refine ⟨?_, fun name i hname => ?_⟩
    · rw [htasks]
      exact h.keys.sublist (Assoc.keys_pop _ _)
    · have hne : name ≠ task.name := by
        intro heq
        rw [htasks, heq, Assoc.get?_pop_self] at hname
        cases hname
      rw [htasks, Assoc.get?_pop_of_ne _ hne] at hname
      obtain ⟨old, hold, hsame⟩ := h.named name i hname
      obtain ⟨new, hnew, hnames⟩ := hlater.forth i old hold
      exact ⟨new, hnew, hnames.trans hsame⟩
  · obtain ⟨-, htasks⟩ := cleared_cases hstep
    refine ⟨htasks ▸ List.nodup_nil, fun name i hname => ?_⟩
    rw [htasks] at hname
    cases hname
  · exact hlater.sound h htasks

/-- A `cancel_all` that knows all tasks that run reaches them. -/
theorem requested_of_tracked (h : Sound s) (htracked : Tracked s) (step : TaskStep) :
    Requested step s := by
  cases step with
  | cancelAll =>
      intro s' hstep task hmem hphase
      obtain ⟨id, hget⟩ := List.mem_iff_getElem?.1 hmem
      have hs' : s' = s.cancelAll := (Option.some.inj hstep).symm
      have hpending : ∀ old, s.submitted[id]? = some old → old.phase ≠ .done → id ∈ s.pending :=
        fun old hold hrunning =>
          (tracked_iff_subset h).1 htracked (mem_unfinished.2 (isPending_iff.2 ⟨old, hold, hrunning⟩))
      rw [hs', cancelAll] at hget
      split at hget
      · rename_i hnone
        have hin := hpending task hget hphase
        rw [hnone] at hin
        cases hin
      · dsimp only at hget
        rw [List.getElem?_mapIdx] at hget
        obtain ⟨old, hold, heq⟩ := Option.map_eq_some_iff.1 hget
        split at heq
        · exact heq ▸ rfl
        · rename_i hout
          exact (hout (hpending old hold (heq ▸ hphase))).elim
  | _ => trivial

theorem tracked_step {step : TaskStep} (h : Sound s) (htracked : Tracked s)
    (hstep : taskStep step s = some s') :
    (Requested step s ∧ Stopped step s) ∧ Tracked s' ↔ Orderly step s := by
  have hrequested := requested_of_tracked h htracked step
  rw [and_iff_right hrequested]
  rcases later_step hstep with ⟨name, rfl⟩ | ⟨id, rfl⟩ | ⟨call, timedOut, rfl⟩ | ⟨⟨hlater, htasks⟩, hrest⟩
  · cases hstep
    exact (and_iff_right trivial).trans (tracked_submit htracked name)
  · obtain ⟨task, hget, hrunning, hsubmitted, htasks⟩ := finish_cases hstep
    refine iff_of_true ⟨trivial, tracked_finish htracked hget ?_ hsubmitted htasks⟩ trivial
    rw [hrunning]
    decide
  · obtain ⟨hsubmitted, htasks⟩ := cleared_cases hstep
    refine ⟨fun ⟨_, hkept⟩ task hmem => ?_, fun hover => ⟨fun u hu task hmem hphase => ?_, ?_⟩⟩
    · obtain ⟨id, hget⟩ := List.mem_iff_getElem?.1 hmem
      refine Decidable.byContradiction fun hphase => ?_
      have hfound := hkept id task (hsubmitted ▸ hget) hphase
      rw [htasks] at hfound
      cases hfound
    · cases hstep.symm.trans hu
      exact (hphase (hover task (hsubmitted ▸ hmem))).elim
    · intro id task hget hphase
      exact (hphase (hover task (List.mem_of_getElem? (hsubmitted ▸ hget)))).elim
  · exact iff_of_true ⟨hrest.1, hlater.tracked htracked htasks⟩ hrest.2

end Steps

-- ===== claim

/-- In a run the registry counts the tasks that run at every moment, its
`cancel_all` reaches them and leaves none, exactly when no name is used
again before its task is over and no table is cleared before all are. -/
theorem tasks_tracked_iff {steps : List TaskStep} {t : BackgroundTaskRegistry}
    (hrun : run taskStep steps {} = some t) :
    Meets taskStep (fun step s => s.Counted ∧ Requested step s ∧ Stopped step s) steps {} ∧ t.Counted
      ↔ Meets taskStep Orderly steps {} := by
  have hsound : Sound {} := ⟨List.nodup_nil, fun _ _ hget => by cases hget⟩
  refine upheld_iff_meets (fun _ _ _ h _ _ => sound_step h) (fun step s s' hs hP hstep => ?_) hsound rfl hrun
  rw [counted_iff (sound_step hs hstep)]
  exact tracked_step hs ((counted_iff hs).1 hP) hstep

/-- Two tasks, of which the second is over when all are cancelled. -/
def tidy : List TaskStep :=
  [.submit "a".toList, .submit "b".toList, .start 0, .start 1, .finish 1, .cancelAll, .finish 0,
    .cleared 0 false]

def afterTidy : BackgroundTaskRegistry := (run taskStep tidy {}).getD {}

theorem tidy_tracked : run taskStep tidy {} = some afterTidy
    ∧ (Meets taskStep (fun step s => s.Counted ∧ Requested step s ∧ Stopped step s) tidy {}
        ∧ afterTidy.Counted ↔ Meets taskStep Orderly tidy {}) :=
  ⟨rfl, tasks_tracked_iff rfl⟩

def doubled : List TaskStep := [.submit "a".toList, .submit "a".toList, .start 0, .start 1, .cancelAll]

/-- The first of them is not counted, and not cancelled. -/
theorem task_untracked :
    ∃ t, run taskStep doubled {} = some t ∧ t.pendingCount = 1 ∧ t.unfinished = [0, 1]
      ∧ t.submitted[0]? = some { name := "a".toList, phase := .running } := by
  refine ⟨_, rfl, ?_, ?_, ?_⟩
  · decide
  · decide
  · decide

end BackgroundTaskRegistry

end Velune.Core
