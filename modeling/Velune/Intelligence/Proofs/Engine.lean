/-
When the knowledge graph follows the index.

A delta that is recorded in the index waits in one of three places for
the graph: with the loop that is about to queue it, in the queue, or with
the worker (`Waiting`). It leaves the last by being patched, or is lost: a
queue that is full, a cancellation that finds it outside the queue, a
patch that fails, or a writer that queues nothing. Nothing else loses one
(`graph_follows`).
-/
import Velune.Intelligence.Engine

namespace Velune.Intelligence

open Lib

-- ===== condition

def EngineState.Waiting (s : EngineState) (delta : Nat) : Prop :=
  s.detection = .saved delta ∨ .graphPatch delta ∈ s.queue ∨ s.worker = some (.graphPatch delta)

/-- A task is done, unless it is no patch of a delta of the index. -/
def EngineState.Done (s : EngineState) (done : Bool) (task : Option DownstreamTask) : Prop :=
  ∀ delta ∈ s.applied, task = some (.graphPatch delta) → done = true

def Lossless : EngineStep → EngineState → Prop
  | .enqueue, s => ∀ delta ∈ s.applied, s.detection = .saved delta →
      s.queue.length < DOWNSTREAM_QUEUE_MAXSIZE
  | .finish done, s => s.Done done s.worker
  | .cancel done, s => (∀ delta ∈ s.applied, s.detection ≠ .saved delta) ∧ s.Done done s.worker
  | .drain done, s => s.Done done s.queue.head?
  | .abort done, s => s.Done done s.queue.head?
      ∧ ∀ delta ∈ s.applied, .graphPatch delta ∉ s.queue.tail
  | .cognition, _ => False
  | _, _ => True

instance : ∀ step s, Decidable (Lossless step s)
  | .enqueue, s => inferInstanceAs (Decidable (∀ delta ∈ s.applied, _ → _))
  | .finish _, s => inferInstanceAs (Decidable (∀ delta ∈ s.applied, _ → _))
  | .cancel _, s => inferInstanceAs (Decidable ((∀ delta ∈ s.applied, _) ∧ ∀ delta ∈ s.applied, _ → _))
  | .drain _, s => inferInstanceAs (Decidable (∀ delta ∈ s.applied, _ → _))
  | .abort _, s => inferInstanceAs (Decidable ((∀ delta ∈ s.applied, _ → _) ∧ ∀ delta ∈ s.applied, _))
  | .cognition, _ => isFalse id
  | .detect, _ | .apply _, _ | .wake, _ | .take, _ | .stop, _ | .startUp, _ => isTrue trivial

structure Follows (s : EngineState) : Prop where
  waits : ∀ delta ∈ s.applied, delta ∈ s.patched ∨ s.Waiting delta
  halted : s.lifecycle ≠ .running → s.worker = none ∧ s.detection = .stopped
  worked : s.lifecycle = .stopped → ∀ delta ∈ s.applied, .graphPatch delta ∉ s.queue

-- ===== steps

section Steps

variable {s s' : EngineState} {delta : Nat} {task : DownstreamTask} {done : Bool}

theorem mem_leaves (patched : List Nat) (h : delta ∈ patched) : delta ∈ task.leaves done patched := by
  unfold DownstreamTask.leaves
  split
  · split
    · exact List.mem_append_left _ h
    · exact h
  · exact h

theorem done_leaves (hmem : delta ∈ s.applied) (hdone : s.Done done (some (.graphPatch delta))) :
    delta ∈ (DownstreamTask.graphPatch delta).leaves done s.patched := by
  rw [hdone delta hmem rfl]
  exact List.mem_append_right _ (List.mem_singleton_self delta)

theorem mem_enqueueDownstream {queue : List DownstreamTask} (h : task ∈ queue)
    (other : DownstreamTask) : task ∈ enqueueDownstream other queue := by
  unfold enqueueDownstream
  split
  · exact List.mem_append_left _ h
  · exact h

theorem mem_enqueueAll {queue : List DownstreamTask} (h : task ∈ queue) :
    task ∈ enqueueAll delta queue :=
  mem_enqueueDownstream (mem_enqueueDownstream (mem_enqueueDownstream h _) _) _

theorem patch_enqueued {queue : List DownstreamTask}
    (h : queue.length < DOWNSTREAM_QUEUE_MAXSIZE) : .graphPatch delta ∈ enqueueAll delta queue := by
  refine mem_enqueueDownstream (mem_enqueueDownstream ?_ _) _
  unfold enqueueDownstream
  rw [if_pos h]
  exact List.mem_append_right _ (List.mem_singleton_self _)

theorem Follows.running (h : Follows s) (hdetection : s.detection ≠ .stopped) :
    s.lifecycle = .running :=
  Decidable.byContradiction fun hnot => hdetection (h.halted hnot).2

theorem follows_running (hlifecycle : s'.lifecycle = s.lifecycle)
    (hrunning : s.lifecycle = .running)
    (hwaits : ∀ delta ∈ s'.applied, delta ∈ s'.patched ∨ s'.Waiting delta) : Follows s' where
  waits := hwaits
  halted hnot := (hnot (hlifecycle.trans hrunning)).elim
  worked hstopped := by
    rw [hlifecycle, hrunning] at hstopped
    cases hstopped

/-- The first task of the queue is run by `shutdown`. -/
theorem drained {rest : List DownstreamTask} (h : Follows s) (hworker : s.worker = none)
    (hdetection : s.detection = .stopped) (hqueue : s.queue = task :: rest)
    (hdone : s.Done done s.queue.head?) (delta : Nat) (hdelta : delta ∈ s.applied) :
    delta ∈ task.leaves done s.patched ∨ s.detection = .saved delta
      ∨ .graphPatch delta ∈ rest ∨ s.worker = some (.graphPatch delta) := by
  rcases h.waits delta hdelta with hpatched | hsaved | hmem | htaken
  · exact Or.inl (mem_leaves _ hpatched)
  · cases hdetection.symm.trans hsaved
  · rw [hqueue] at hmem
    rcases List.mem_cons.1 hmem with hhead | htail
    · subst hhead
      rw [hqueue] at hdone
      exact Or.inl (done_leaves hdelta hdone)
    · exact Or.inr (Or.inr (Or.inl htail))
  · cases hworker.symm.trans htaken

theorem step_follows {step : EngineStep} (hlossless : Lossless step s) (h : Follows s)
    (hstep : engineStep step s = some s') : Follows s' := by
  cases step with
  | detect =>
      simp only [engineStep] at hstep
      split at hstep
      · rename_i hdetection
        cases hstep
        have hrunning := h.running (by rw [hdetection]; simp)
        refine follows_running rfl hrunning fun delta hdelta => ?_
        refine (h.waits delta hdelta).imp_right fun hwaiting => Or.inr ?_
        refine hwaiting.resolve_left fun hsaved => ?_
        rw [hdetection] at hsaved
        cases hsaved
      · cases hstep
  | apply saves =>
      simp only [engineStep] at hstep
      split at hstep
      · rename_i found hdetection
        cases hstep
        have hrunning := h.running (by rw [hdetection]; simp)
        refine follows_running rfl hrunning fun delta hdelta => ?_
        have hold : delta ∈ s.applied → delta ∈ s.patched ∨ .graphPatch delta ∈ s.queue
            ∨ s.worker = some (.graphPatch delta) := by
          intro hmem
          refine (h.waits delta hmem).imp_right fun hwaiting => hwaiting.resolve_left fun hsaved => ?_
          rw [hdetection] at hsaved
          cases hsaved
        by_cases hmem : delta ∈ s.applied
        · exact (hold hmem).imp_right Or.inr
        · refine Or.inr (Or.inl ?_)
          cases saves with
          | false => exact (hmem hdelta).elim
          | true =>
              have hnew : delta = found :=
                List.mem_singleton.1 ((List.mem_append.1 hdelta).resolve_left hmem)
              rw [hnew]
      · cases hstep
  | enqueue =>
      simp only [engineStep] at hstep
      split at hstep
      · rename_i saved hdetection
        cases hstep
        have hrunning := h.running (by rw [hdetection]; simp)
        refine follows_running rfl hrunning fun delta hdelta => ?_
        refine (h.waits delta hdelta).imp_right fun hwaiting => Or.inr ?_
        rcases hwaiting with hsaved | hqueue | hworker
        · have hsame : saved = delta := Detection.saved.inj (hdetection.symm.trans hsaved)
          subst hsame
          exact Or.inl (patch_enqueued (hlossless saved hdelta hdetection))
        · exact Or.inl (mem_enqueueAll hqueue)
        · exact Or.inr hworker
      · cases hstep
  | wake =>
      simp only [engineStep] at hstep
      split at hstep
      · rename_i hdetection
        cases hstep
        have hrunning := h.running (by rw [hdetection]; simp)
        refine follows_running rfl hrunning fun delta hdelta => ?_
        refine (h.waits delta hdelta).imp_right fun hwaiting => Or.inr ?_
        refine hwaiting.resolve_left fun hsaved => ?_
        rw [hdetection] at hsaved
        cases hsaved
      · cases hstep
  | take =>
      simp only [engineStep] at hstep
      split at hstep
      · rename_i task rest hrunning hworker hqueue
        cases hstep
        refine follows_running rfl hrunning fun delta hdelta => ?_
        refine (h.waits delta hdelta).imp_right fun hwaiting => ?_
        rcases hwaiting with hsaved | hmem | htaken
        · exact Or.inl hsaved
        · rw [hqueue] at hmem
          rcases List.mem_cons.1 hmem with hhead | htail
          · exact Or.inr (Or.inr (congrArg some hhead.symm))
          · exact Or.inr (Or.inl htail)
        · rw [hworker] at htaken
          cases htaken
      · cases hstep
  | finish done =>
      simp only [engineStep] at hstep
      split at hstep
      · rename_i task hworker
        cases hstep
        have hrunning : s.lifecycle = .running := Decidable.byContradiction fun hnot => by
          rw [(h.halted hnot).1] at hworker
          cases hworker
        refine follows_running rfl hrunning fun delta hdelta => ?_
        rcases h.waits delta hdelta with hpatched | hsaved | hmem | htaken
        · exact Or.inl (mem_leaves _ hpatched)
        · exact Or.inr (Or.inl hsaved)
        · exact Or.inr (Or.inr (Or.inl hmem))
        · cases hworker.symm.trans htaken
          exact Or.inl (done_leaves hdelta (hworker ▸ hlossless))
      · cases hstep
  | cancel done =>
      simp only [engineStep] at hstep
      split at hstep
      · cases hstep
        obtain ⟨hunsaved, hdone⟩ := hlossless
        refine ⟨fun delta hdelta => ?_, fun _ => ⟨rfl, rfl⟩, fun hstopped => by cases hstopped⟩
        rcases h.waits delta hdelta with hpatched | hsaved | hmem | htaken
        · refine Or.inl ?_
          cases hworker : s.worker with
          | none => exact hpatched
          | some task => exact mem_leaves _ hpatched
        · exact (hunsaved delta hdelta hsaved).elim
        · exact Or.inr (Or.inr (Or.inl hmem))
        · refine Or.inl ?_
          simp only [htaken]
          exact done_leaves hdelta (htaken ▸ hdone)
      · cases hstep
  | drain done =>
      simp only [engineStep] at hstep
      split at hstep
      · rename_i task rest hdraining hqueue
        cases hstep
        obtain ⟨hworker, hdetection⟩ := h.halted (by rw [hdraining]; simp)
        refine ⟨fun delta hdelta => ?_, fun _ => ⟨hworker, hdetection⟩, fun hstopped => ?_⟩
        · exact drained h hworker hdetection hqueue hlossless delta hdelta
        · cases hdraining.symm.trans hstopped
      · cases hstep
  | stop =>
      simp only [engineStep] at hstep
      split at hstep
      · rename_i hdraining hqueue
        cases hstep
        refine ⟨h.waits, fun _ => h.halted (by rw [hdraining]; simp), fun _ delta _ hmem => ?_⟩
        rw [hqueue] at hmem
        cases hmem
      · cases hstep
  | abort done =>
      simp only [engineStep] at hstep
      split at hstep
      · rename_i task rest hdraining hqueue
        cases hstep
        obtain ⟨hworker, hdetection⟩ := h.halted (by rw [hdraining]; simp)
        obtain ⟨hdone, hrest⟩ := hlossless
        refine ⟨fun delta hdelta => ?_, fun _ => ⟨hworker, hdetection⟩, fun _ delta hdelta => ?_⟩
        · exact drained h hworker hdetection hqueue hdone delta hdelta
        · have htail := hrest delta hdelta
          rw [hqueue] at htail
          exact htail
      · cases hstep
  | startUp =>
      simp only [engineStep] at hstep
      split at hstep
      · rename_i hstopped
        cases hstep
        obtain ⟨hworker, hdetection⟩ := h.halted (by rw [hstopped]; simp)
        refine ⟨fun delta hdelta => ?_, fun hnot => (hnot rfl).elim, fun hstopped => by cases hstopped⟩
        refine (h.waits delta hdelta).imp_right fun hwaiting => Or.inr ?_
        refine hwaiting.resolve_left fun hsaved => ?_
        rw [hdetection] at hsaved
        cases hsaved
      · cases hstep
  | cognition => exact hlossless.elim

end Steps

-- ===== claim

/-- An engine that is not running, whose graph is in step with the index. -/
def idleEngine : EngineState := ⟨.stopped, .stopped, [], none, 0, [], []⟩

theorem idleEngine_follows : Follows idleEngine :=
  ⟨fun _ hdelta => (by cases hdelta), fun _ => ⟨rfl, rfl⟩, fun _ _ hdelta => (by cases hdelta)⟩

/-- After any steps that lose no delta, an engine that is settled has
applied every delta of the index to the graph. -/
theorem graph_follows {steps : List EngineStep} {t : EngineState}
    (hrun : run engineStep steps idleEngine = some t)
    (hlossless : Meets engineStep Lossless steps idleEngine) (hsettled : t.Settled) : t.InStep := by
  have hfollows : Follows t := run_preserves_of
    (fun _ _ _ hlossless h hstep => step_follows hlossless h hstep) hlossless idleEngine_follows hrun
  intro delta hdelta
  refine (hfollows.waits delta hdelta).resolve_right fun hwaiting => ?_
  rcases hsettled with hstopped | ⟨hrunning, hqueue, hworker, hdetection⟩
  · obtain ⟨hworker, hdetection⟩ := hfollows.halted (by rw [hstopped]; simp)
    rcases hwaiting with hsaved | hmem | htaken
    · cases hdetection.symm.trans hsaved
    · exact hfollows.worked hstopped delta hdelta hmem
    · cases hworker.symm.trans htaken
  · rcases hwaiting with hsaved | hmem | htaken
    · rcases hdetection with h | h
      · cases h.symm.trans hsaved
      · cases h.symm.trans hsaved
    · rw [hqueue] at hmem
      cases hmem
    · cases hworker.symm.trans htaken

/-- One delta is found, queued and patched, and the engine is shut down. -/
def oneDelta : List EngineStep :=
  [.startUp, .detect, .apply true, .enqueue, .take, .finish true, .take, .finish true, .cancel false,
    .drain true, .stop]

def afterOneDelta : EngineState := (run engineStep oneDelta idleEngine).getD idleEngine

theorem oneDelta_follows : run engineStep oneDelta idleEngine = some afterOneDelta
    ∧ afterOneDelta.InStep := by
  have hrun : run engineStep oneDelta idleEngine = some afterOneDelta := rfl
  exact ⟨hrun, graph_follows hrun (by decide) (Or.inl rfl)⟩

/-- The worker has taken the patch when the engine is shut down. -/
def cancelled : List EngineStep :=
  [.startUp, .detect, .apply true, .enqueue, .take, .cancel false, .drain true, .drain true, .stop]

def afterCancelled : EngineState := (run engineStep cancelled idleEngine).getD idleEngine

theorem delta_lost : run engineStep cancelled idleEngine = some afterCancelled
    ∧ afterCancelled.Settled ∧ ¬ afterCancelled.InStep := by
  refine ⟨rfl, Or.inl rfl, fun h => ?_⟩
  have hpatched := h 0 (by decide)
  revert hpatched
  decide

end Velune.Intelligence
