/-
Where the items of the embedding pipeline are.

Every item is in one place (`places`), and a step moves at most one. An
item that a worker holds has no other place, so it is lost with the worker
when that is cancelled or leaves by what is no `Exception`; nothing else
loses one (`turns_placed_iff`).
-/
import Mathlib.Data.List.Nodup
import Velune.Memory.EmbeddingPipeline

namespace Velune.Memory

open Lib

namespace EmbeddingPipeline

-- ===== property

/-- How often an item is in the queue, with a worker, in the store, and
among the dropped. -/
def places (s : EmbeddingPipeline) (item : Nat) : Nat :=
  s.queue.count item + (s.workers.flatMap (·.held)).count item
    + (s.stored.map (·.1)).count item + s.dropped.count item

/-- Between `initialize` and `shutdown` the worker has not ended. -/
def Alive (s : EmbeddingPipeline) : Prop :=
  s.running = true → ∃ n worker, s.workerTask = some n ∧ s.workers[n]? = some worker ∧ worker ≠ .ended

/-- Each item is in one place, once; what is stored is its record, and the
worker lives. -/
structure Placed (s : EmbeddingPipeline) : Prop where
  conserved : ∀ item, s.places item = if item < s.enqueued.length then 1 else 0
  records : ∀ entry ∈ s.stored, ∃ item, s.enqueued[entry.1]? = some item ∧ entry.2 = item.record
  alive : s.Alive

/-- The worker that `initialize` started last, before `shutdown`. -/
def Current (s : EmbeddingPipeline) (n : Nat) : Prop := s.running = true ∧ s.workerTask = some n

def Careful (python310 : Bool) : Step → EmbeddingPipeline → Prop
  | .timeout n, s => python310 = true → ¬ s.Current n
  | .crash n stores, s => stores = true ∧ ¬ s.Current n
  | .cancelled n stores, s => ∀ item, s.workers[n]? = some (.processing item) → stores = true
  | _, _ => True

structure Sound (s : EmbeddingPipeline) : Prop where
  cancelling : ∀ n ∈ s.cancelling, n < s.workers.length
  current : ∀ n, s.workerTask = some n → n < s.workers.length ∧ (s.running = true → n ∉ s.cancelling)

-- ===== places

section Places

variable {s : EmbeddingPipeline} {n i item : Nat} {old new : Worker}

theorem count_held (new : Worker) (i : Nat) : ∀ {workers : List Worker} {n : Nat},
    workers[n]? = some old → ((workers.set n new).flatMap (·.held)).count i + old.held.count i
      = (workers.flatMap (·.held)).count i + new.held.count i
  | [], _, h => by cases h
  | w :: workers, 0, h => by
      cases h
      simp only [List.set_cons_zero, List.flatMap_cons, List.count_append]
      omega
  | w :: workers, n + 1, h => by
      have hrest : workers[n]? = some old := h
      have ih := count_held new i hrest
      simp only [List.set_cons_succ, List.flatMap_cons, List.count_append]
      omega

theorem places_setWorker (h : s.workers[n]? = some old) (new : Worker) :
    (s.setWorker n new).places i + old.held.count i = s.places i + new.held.count i := by
  have hheld := count_held new i h
  simp only [places, setWorker]
  omega

theorem places_put (item : Nat) : (s.put item).places i = s.places i + [item].count i := by
  unfold put
  split
  · simp only [places, List.count_append]
    omega
  · simp only [places, List.count_append]
    omega

theorem places_store (h : item < s.enqueued.length) :
    (s.store item).places i = s.places i + [item].count i := by
  have hget : s.enqueued[item]? = some s.enqueued[item] := List.getElem?_eq_getElem h
  simp only [places, store, hget, Option.toList_some, List.map_cons, List.map_nil, List.map_append,
    List.count_append]
  omega

theorem lt_of_place (h : s.Placed) (hplace : 0 < s.places item) : item < s.enqueued.length := by
  have hone := h.conserved item
  split at hone
  · assumption
  · omega

theorem place_of_held (h : s.workers[n]? = some (.processing item)) : 0 < s.places item := by
  have hmem : item ∈ s.workers.flatMap (·.held) :=
    List.mem_flatMap.2 ⟨_, List.mem_of_getElem? h, List.mem_singleton_self item⟩
  have hcount := List.count_pos_iff.2 hmem
  unfold places
  omega

theorem alive_setWorker (h : s.Alive) (hget : s.workers[n]? = some old) :
    (s.setWorker n new).Alive ↔ (s.Current n → new ≠ .ended) := by
  obtain ⟨hlt, -⟩ := List.getElem?_eq_some_iff.1 hget
  refine ⟨fun halive ⟨hrunning, htask⟩ => ?_, fun hnew hrunning => ?_⟩
  · obtain ⟨m, worker, hm, hworker, hended⟩ := halive hrunning
    cases htask.symm.trans hm
    simp only [setWorker, List.getElem?_set_self hlt] at hworker
    cases hworker
    exact hended
  · obtain ⟨m, worker, hm, hworker, hended⟩ := h hrunning
    by_cases hsame : n = m
    · subst hsame
      exact ⟨n, new, hm, List.getElem?_set_self hlt, hnew ⟨hrunning, hm⟩⟩
    · exact ⟨m, worker, hm, (List.getElem?_set_ne hsame).trans hworker, hended⟩

end Places

-- ===== steps

section Steps

variable {s s' : EmbeddingPipeline} {n item : Nat} {old new : Worker} {python310 : Bool}

/-- What `Sound` speaks of; what a step of a worker leaves. -/
def Same (s s' : EmbeddingPipeline) : Prop :=
  s'.running = s.running ∧ s'.workerTask = s.workerTask ∧ s'.cancelling = s.cancelling
    ∧ s'.workers.length = s.workers.length

theorem Same.sound (h : Same s s') (hs : s.Sound) : s'.Sound := by
  obtain ⟨hrunning, htask, hcancelling, hlength⟩ := h
  refine ⟨fun m hm => ?_, fun m hm => ?_⟩
  · rw [hcancelling] at hm
    exact hlength ▸ hs.cancelling m hm
  · rw [htask] at hm
    rw [hrunning, hcancelling, hlength]
    exact hs.current m hm

theorem same_put (item : Nat) : Same s (s.put item) := by
  unfold put
  split
  · exact ⟨rfl, rfl, rfl, rfl⟩
  · exact ⟨rfl, rfl, rfl, rfl⟩

theorem same_setWorker (n : Nat) (new : Worker) : Same s (s.setWorker n new) :=
  ⟨rfl, rfl, rfl, List.length_set⟩

theorem Same.trans {s₁ s₂ : EmbeddingPipeline} (h : Same s s₁) (h' : Same s₁ s₂) : Same s s₂ :=
  ⟨h'.1.trans h.1, h'.2.1.trans h.2.1, h'.2.2.1.trans h.2.2.1, h'.2.2.2.trans h.2.2.2⟩

/-- A step of a worker: it lets go of what it held, which is put back or
stored, or takes the first item of the queue. -/
inductive Works (s : EmbeddingPipeline) (n : Nat) : EmbeddingPipeline → Worker → Prop
  | moves {was next : Worker} (hget : s.workers[n]? = some was)
      (hfree : was.held = [] ∧ next.held = []) : Works s n (s.setWorker n next) next
  | takes {first : Nat} {rest : List Nat} (hget : s.workers[n]? = some .waiting)
      (hqueue : s.queue = first :: rest) :
      Works s n ({ s with queue := rest }.setWorker n (.processing first)) (.processing first)
  | stores {taken : Nat} {next : Worker} (hget : s.workers[n]? = some (.processing taken))
      (hfree : next.held = []) : Works s n ((s.store taken).setWorker n next) next
  | puts {taken : Nat} {next : Worker} (hget : s.workers[n]? = some (.processing taken))
      (hfree : next.held = []) : Works s n ((s.put taken).setWorker n next) next

theorem put_keeps (item : Nat) : (s.put item).enqueued = s.enqueued
    ∧ (s.put item).stored = s.stored ∧ (s.put item).workers = s.workers
    ∧ ((s.put item).Alive ↔ s.Alive) := by
  unfold put
  split
  · exact ⟨rfl, rfl, rfl, Iff.rfl⟩
  · exact ⟨rfl, rfl, rfl, Iff.rfl⟩

theorem Works.placed (h : Works s n s' new) (hp : s.Placed) :
    s'.Placed ↔ (s.Current n → new ≠ .ended) := by
  suffices hkept : (∀ i, s'.places i = s.places i) ∧ s'.enqueued = s.enqueued
      ∧ (∀ entry ∈ s'.stored, ∃ item, s.enqueued[entry.1]? = some item ∧ entry.2 = item.record)
      ∧ (s'.Alive ↔ (s.Current n → new ≠ .ended)) by
    obtain ⟨hplaces, henqueued, hrecords, halive⟩ := hkept
    refine ⟨fun h => halive.1 h.alive, fun hnew => ⟨fun i => ?_, ?_, halive.2 hnew⟩⟩
    · rw [hplaces, henqueued]
      exact hp.conserved i
    · rw [henqueued]
      exact hrecords
  cases h with
  | @moves old _ hget hfree =>
      refine ⟨fun i => ?_, rfl, hp.records, alive_setWorker hp.alive hget⟩
      have hplaces := places_setWorker (i := i) hget new
      rw [hfree.1, hfree.2] at hplaces
      exact hplaces
  | @takes item rest hget hqueue =>
      refine ⟨fun i => ?_, rfl, hp.records, ?_⟩
      · have hplaces := places_setWorker (s := { s with queue := rest }) (i := i) hget (.processing item)
        have htaken : s.places i = { s with queue := rest }.places i + [item].count i := by
          simp only [places, hqueue, List.count_cons, List.count_nil]
          omega
        simp only [Worker.held, List.count_nil, Nat.add_zero] at hplaces
        rw [hplaces, htaken]
      · exact alive_setWorker (s := { s with queue := rest }) hp.alive hget
  | @stores item _ hget hfree =>
      have hlt := lt_of_place hp (place_of_held hget)
      refine ⟨fun i => ?_, rfl, fun entry hentry => ?_, ?_⟩
      · have hplaces := places_setWorker (s := s.store item) (i := i) hget new
        rw [hfree, places_store hlt] at hplaces
        simp only [Worker.held, List.count_nil, Nat.add_zero] at hplaces
        exact Nat.add_right_cancel hplaces
      · rcases List.mem_append.1 hentry with hold | hnew
        · exact hp.records entry hold
        · obtain ⟨i, hi, heq⟩ := List.mem_map.1 hnew
          subst heq
          exact ⟨i, Option.mem_toList.1 hi, rfl⟩
      · exact alive_setWorker (s := s.store item) hp.alive hget
  | @puts item _ hget hfree =>
      obtain ⟨henqueued, hstored, hworkers, halive⟩ := put_keeps (s := s) item
      have hget' : (s.put item).workers[n]? = some (.processing item) := hworkers ▸ hget
      refine ⟨fun i => ?_, henqueued, fun entry hentry => ?_, ?_⟩
      · have hplaces := places_setWorker (i := i) hget' new
        rw [hfree, places_put] at hplaces
        simp only [Worker.held, List.count_nil, Nat.add_zero] at hplaces
        exact Nat.add_right_cancel hplaces
      · exact hp.records entry (hstored ▸ hentry)
      · have hsame := same_put (s := s) item
        refine (alive_setWorker (halive.2 hp.alive) hget').trans ?_
        unfold Current
        rw [hsame.1, hsame.2.1]

theorem lost (hget : s.workers[n]? = some (.processing item)) (hp : s.Placed) :
    ¬ (s.setWorker n .ended).Placed := by
  intro h
  have hlt := lt_of_place hp (place_of_held hget)
  have hplaces := places_setWorker (i := item) hget .ended
  have hbefore := hp.conserved item
  have hafter := h.conserved item
  rw [if_pos hlt] at hbefore
  have henqueued : (s.setWorker n .ended).enqueued = s.enqueued := rfl
  rw [henqueued, if_pos hlt] at hafter
  simp only [Worker.held, List.count_singleton_self, List.count_nil] at hplaces
  omega

theorem loop_careful (n : Nat) :
    s.Current n → (if s.running then Worker.waiting else .ended) ≠ .ended := by
  intro hcurrent
  rw [if_pos hcurrent.1]
  decide

theorem loop_held : (if s.running then Worker.waiting else .ended).held = [] := by
  split
  · rfl
  · rfl

theorem placed_enqueue (hp : s.Placed) (item : EmbedQueueItem) : (s.enqueue item).Placed := by
  obtain ⟨henqueued, hstored, -, halive⟩ :=
    put_keeps (s := { s with enqueued := s.enqueued ++ [item] }) s.enqueued.length
  refine ⟨fun i => ?_, fun entry hentry => ?_, halive.2 hp.alive⟩
  · have hplaces := places_put (s := { s with enqueued := s.enqueued ++ [item] }) (i := i)
      s.enqueued.length
    have hold := hp.conserved i
    have hsame : { s with enqueued := s.enqueued ++ [item] }.places i = s.places i := rfl
    unfold enqueue
    rw [hplaces, hsame, hold, henqueued, List.length_append, List.length_singleton, List.count_singleton]
    by_cases hlast : s.enqueued.length = i
    · subst hlast
      simp
    · have hne : (s.enqueued.length == i) = false := beq_eq_false_iff_ne.2 hlast
      rw [hne]
      by_cases hlt : i < s.enqueued.length
      · rw [if_pos hlt, if_pos (Nat.lt_succ_of_lt hlt)]
        rfl
      · have hge : ¬ i < s.enqueued.length + 1 := by omega
        rw [if_neg hlt, if_neg hge]
        rfl
  · unfold enqueue at hentry ⊢
    rw [hstored] at hentry
    obtain ⟨old, hget, heq⟩ := hp.records entry hentry
    rw [henqueued]
    exact ⟨old, (List.getElem?_append_left (List.getElem?_eq_some_iff.1 hget).1).trans hget, heq⟩

theorem placed_startUp (hp : s.Placed) : s.startUp.Placed := by
  refine ⟨fun i => ?_, hp.records, fun _ => ⟨_, .waiting, rfl, ?_, by decide⟩⟩
  · have hheld : s.startUp.workers.flatMap (·.held) = s.workers.flatMap (·.held) := by
      simp [startUp, Worker.held]
    have hplaces : s.startUp.places i = s.places i := by
      unfold places
      rw [hheld]
      rfl
    rw [hplaces]
    exact hp.conserved i
  · simp [startUp]

theorem placed_step {step : Step} (hs : s.Sound) (hp : s.Placed)
    (hstep : EmbeddingPipeline.step python310 step s = some s') :
    s'.Placed ↔ Careful python310 step s := by
  cases step with
  | enqueue item =>
      cases hstep
      exact iff_of_true (placed_enqueue hp item) trivial
  | startUp =>
      cases hstep
      exact iff_of_true (placed_startUp hp) trivial
  | shutdown =>
      cases hstep
      exact iff_of_true ⟨hp.conserved, hp.records, fun hrunning => by cases hrunning⟩ trivial
  | get n =>
      simp only [EmbeddingPipeline.step] at hstep
      split at hstep
      · rename_i hget hqueue
        cases hstep
        exact iff_of_true ((Works.takes hget hqueue).placed hp |>.2 fun _ => by simp) trivial
      · cases hstep
  | timeout n =>
      simp only [EmbeddingPipeline.step] at hstep
      split at hstep
      · rename_i hget
        cases python310 with
        | true =>
            have hs' : s' = s.setWorker n .ended := (Option.some.inj hstep).symm
            subst hs'
            refine ((Works.moves hget ⟨rfl, rfl⟩).placed hp).trans ?_
            exact ⟨fun h _ hcurrent => h hcurrent rfl, fun h hcurrent => (h rfl hcurrent).elim⟩
        | false =>
            cases hstep
            refine iff_of_true ?_ fun hold => by cases hold
            exact ((Works.moves hget ⟨rfl, loop_held⟩).placed hp).2 (loop_careful n)
      · cases hstep
  | succeed n =>
      simp only [EmbeddingPipeline.step] at hstep
      split at hstep
      · rename_i hget
        cases hstep
        refine iff_of_true ?_ trivial
        exact ((Works.stores hget loop_held).placed hp).2 (loop_careful n)
      · cases hstep
  | fail n =>
      simp only [EmbeddingPipeline.step] at hstep
      split at hstep
      · rename_i hget
        cases hstep
        exact iff_of_true (((Works.puts hget rfl).placed hp).2 fun _ => by decide) trivial
      · cases hstep
  | crash n stores =>
      simp only [EmbeddingPipeline.step] at hstep
      split at hstep
      · rename_i item hget
        cases stores with
        | true =>
            have hs' : s' = (s.store item).setWorker n .ended := (Option.some.inj hstep).symm
            subst hs'
            refine ((Works.stores hget rfl).placed hp).trans ?_
            exact ⟨fun h => ⟨rfl, fun hcurrent => h hcurrent rfl⟩, fun h hcurrent => (h.2 hcurrent).elim⟩
        | false =>
            cases hstep
            exact iff_of_false (lost hget hp) fun h => by cases h.1
      · cases hstep
  | wake n =>
      simp only [EmbeddingPipeline.step] at hstep
      split at hstep
      · rename_i hget
        cases hstep
        refine iff_of_true ?_ trivial
        exact ((Works.moves hget ⟨rfl, loop_held⟩).placed hp).2 (loop_careful n)
      · cases hstep
  | cancelled n stores =>
      simp only [EmbeddingPipeline.step] at hstep
      split at hstep
      · rename_i hcancelling
        have hother : ¬ s.Current n := fun hcurrent => (hs.current n hcurrent.2).2 hcurrent.1 hcancelling
        split at hstep
        · rename_i item hget
          cases stores with
          | true =>
              cases hstep
              refine iff_of_true ?_ fun _ _ => rfl
              exact ((Works.stores hget rfl).placed hp).2 fun hcurrent => (hother hcurrent).elim
          | false =>
              cases hstep
              exact iff_of_false (lost hget hp) fun h => by cases h item hget
        · rename_i hget
          cases hstep
          refine iff_of_true ?_ fun item hitem => by cases hget.symm.trans hitem
          exact ((Works.moves hget ⟨rfl, rfl⟩).placed hp).2 fun hcurrent => (hother hcurrent).elim
        · rename_i hget
          cases hstep
          refine iff_of_true ?_ fun item hitem => by cases hget.symm.trans hitem
          exact ((Works.moves hget ⟨rfl, rfl⟩).placed hp).2 fun hcurrent => (hother hcurrent).elim
        · cases hstep
      · cases hstep

theorem sound_startUp (hs : s.Sound) : s.startUp.Sound := by
  refine ⟨fun m hm => ?_, fun m hm => ?_⟩
  · have hlt := hs.cancelling m hm
    simp only [startUp, List.length_append, List.length_singleton]
    omega
  · have hlast : m = s.workers.length := (Option.some.inj hm).symm
    refine ⟨by simp [startUp, hlast], fun _ hmem => ?_⟩
    exact Nat.lt_irrefl m (hlast ▸ hs.cancelling m hmem)

theorem sound_shutdown (hs : s.Sound) : s.shutdown.Sound := by
  refine ⟨fun m hm => ?_, fun m hm => ⟨(hs.current m hm).1, fun hrunning => by cases hrunning⟩⟩
  rcases List.mem_append.1 hm with htask | hold
  · exact (hs.current m (Option.mem_toList.1 htask)).1
  · exact hs.cancelling m hold

theorem same_step {step : Step} (hstep : EmbeddingPipeline.step python310 step s = some s') :
    step = .startUp ∨ step = .shutdown ∨ Same s s' := by
  cases step with
  | startUp => exact Or.inl rfl
  | shutdown => exact Or.inr (Or.inl rfl)
  | enqueue item =>
      cases hstep
      exact Or.inr (Or.inr (same_put (s := { s with enqueued := s.enqueued ++ [item] }) _))
  | get n =>
      simp only [EmbeddingPipeline.step] at hstep
      split at hstep
      · cases hstep
        exact Or.inr (Or.inr ⟨rfl, rfl, rfl, List.length_set⟩)
      · cases hstep
  | timeout n =>
      simp only [EmbeddingPipeline.step] at hstep
      split at hstep
      · cases hstep
        cases python310 with
        | true => exact Or.inr (Or.inr (same_setWorker n _))
        | false => exact Or.inr (Or.inr (same_setWorker n _))
      · cases hstep
  | succeed n =>
      simp only [EmbeddingPipeline.step] at hstep
      split at hstep
      · cases hstep
        exact Or.inr (Or.inr ⟨rfl, rfl, rfl, List.length_set⟩)
      · cases hstep
  | fail n =>
      simp only [EmbeddingPipeline.step] at hstep
      split at hstep
      · cases hstep
        exact Or.inr (Or.inr ((same_put _).trans (same_setWorker _ _)))
      · cases hstep
  | crash n stores =>
      simp only [EmbeddingPipeline.step] at hstep
      split at hstep
      · cases hstep
        cases stores with
        | true => exact Or.inr (Or.inr ⟨rfl, rfl, rfl, List.length_set⟩)
        | false => exact Or.inr (Or.inr (same_setWorker n _))
      · cases hstep
  | wake n =>
      simp only [EmbeddingPipeline.step] at hstep
      split at hstep
      · cases hstep
        exact Or.inr (Or.inr (same_setWorker n _))
      · cases hstep
  | cancelled n stores =>
      simp only [EmbeddingPipeline.step] at hstep
      split at hstep
      · split at hstep
        · cases hstep
          cases stores with
          | true => exact Or.inr (Or.inr ⟨rfl, rfl, rfl, List.length_set⟩)
          | false => exact Or.inr (Or.inr (same_setWorker n _))
        · cases hstep
          exact Or.inr (Or.inr (same_setWorker n _))
        · cases hstep
          exact Or.inr (Or.inr (same_setWorker n _))
        · cases hstep
      · cases hstep

theorem sound_step {step : Step} (hs : s.Sound)
    (hstep : EmbeddingPipeline.step python310 step s = some s') : s'.Sound := by
  rcases same_step hstep with rfl | rfl | hsame
  · cases hstep
    exact sound_startUp hs
  · cases hstep
    exact sound_shutdown hs
  · exact hsame.sound hs

end Steps

-- ===== claim

def someItem : EmbedQueueItem where
  recordId := "r".toList
  turnId := "t".toList
  sessionId := "s".toList
  content := "text".toList
  sourceType := "turn".toList
  workspaceRoot := []
  createdAt := 0

/-- An item is retried once and stored, and the pipeline is shut down. -/
def retried : List Step :=
  [.startUp, .timeout 0, .enqueue someItem, .get 0, .fail 0, .wake 0, .get 0, .succeed 0, .shutdown,
    .cancelled 0 false]

def afterRetried : EmbeddingPipeline := (run (step false) retried {}).getD {}

def interrupted : List Step :=
  [.startUp, .enqueue someItem, .get 0, .shutdown, .cancelled 0 false]

/-- No item is in two places, and what is stored is an item's record. -/
structure Once (s : EmbeddingPipeline) : Prop where
  once : ∀ item, s.places item ≤ if item < s.enqueued.length then 1 else 0
  records : ∀ entry ∈ s.stored, ∃ item, s.enqueued[entry.1]? = some item ∧ entry.2 = item.record

section Once

variable {s s' : EmbeddingPipeline} {n item : Nat} {old new : Worker} {python310 : Bool}

theorem Once.idle (h : s.Once) (hget : s.workers[n]? = some old)
    (hfree : old.held = [] ∧ new.held = []) : (s.setWorker n new).Once := by
  refine ⟨fun i => ?_, h.records⟩
  have hplaces := places_setWorker (i := i) hget new
  rw [hfree.1, hfree.2] at hplaces
  exact (Nat.add_right_cancel hplaces).le.trans (h.once i)

theorem Once.release (h : s.Once) (hget : s.workers[n]? = some (.processing item))
    (hfree : new.held = []) {t : EmbeddingPipeline}
    (ht : t = s ∨ t = s.store item ∨ t = s.put item) : (t.setWorker n new).Once := by
  have hlt : item < s.enqueued.length := by
    have hplace := (place_of_held hget).trans_le (h.once item)
    split at hplace
    · assumption
    · cases hplace
  have hkept : t.workers[n]? = some (.processing item) ∧ t.enqueued = s.enqueued
      ∧ (∀ i, t.places i ≤ s.places i + [item].count i)
      ∧ ∀ entry ∈ t.stored, entry ∈ s.stored ∨
        ∃ i, s.enqueued[item]? = some i ∧ entry = (item, i.record) := by
    rcases ht with rfl | rfl | rfl
    · exact ⟨hget, rfl, fun i => Nat.le_add_right _ _, fun entry hentry => Or.inl hentry⟩
    · refine ⟨hget, rfl, fun i => (places_store hlt).le, fun entry hentry => ?_⟩
      refine (List.mem_append.1 hentry).imp_right fun hnew => ?_
      obtain ⟨i, hi, heq⟩ := List.mem_map.1 hnew
      exact ⟨i, Option.mem_toList.1 hi, heq.symm⟩
    · obtain ⟨henqueued, hstored, hworkers, -⟩ := put_keeps (s := s) item
      exact ⟨hworkers ▸ hget, henqueued, fun i => (places_put item).le, fun entry hentry =>
        Or.inl (hstored ▸ hentry)⟩
  obtain ⟨hget', henqueued, hplaces, hstored⟩ := hkept
  refine ⟨fun i => ?_, fun entry hentry => ?_⟩
  · have hset := places_setWorker (i := i) hget' new
    rw [hfree, List.count_nil, Nat.add_zero] at hset
    have hle := hset.le.trans (hplaces i)
    show (t.setWorker n new).places i ≤ if i < t.enqueued.length then 1 else 0
    rw [henqueued]
    exact (Nat.le_of_add_le_add_right hle).trans (h.once i)
  · show ∃ i, t.enqueued[entry.1]? = some i ∧ _
    rw [henqueued]
    rcases hstored entry hentry with hold | ⟨i, hi, rfl⟩
    · exact h.records entry hold
    · exact ⟨i, hi, rfl⟩

theorem Once.enqueue (h : s.Once) (new : EmbedQueueItem) : (s.enqueue new).Once := by
  obtain ⟨henqueued, hstored, -, -⟩ :=
    put_keeps (s := { s with enqueued := s.enqueued ++ [new] }) s.enqueued.length
  unfold EmbeddingPipeline.enqueue
  refine ⟨fun i => ?_, fun entry hentry => ?_⟩
  · have hold := h.once i
    rw [places_put, henqueued, List.length_append, List.length_singleton, List.count_singleton]
    show s.places i + _ ≤ _
    simp only [beq_iff_eq]
    split at hold <;> split_ifs <;> omega
  · rw [hstored] at hentry
    obtain ⟨old, hget, heq⟩ := h.records entry hentry
    rw [henqueued]
    exact ⟨old, (List.getElem?_append_left (List.getElem?_eq_some_iff.1 hget).1).trans hget, heq⟩

theorem Once.step {step : Step} (h : s.Once)
    (hstep : EmbeddingPipeline.step python310 step s = some s') : s'.Once := by
  cases step with
  | enqueue item =>
      cases hstep
      exact h.enqueue item
  | startUp =>
      cases hstep
      refine ⟨fun i => Eq.trans_le ?_ (h.once i), h.records⟩
      simp [startUp, places, Worker.held]
  | shutdown =>
      cases hstep
      exact ⟨h.once, h.records⟩
  | get n =>
      simp only [EmbeddingPipeline.step] at hstep
      split at hstep <;> cases hstep
      next item rest hget hqueue =>
        refine ⟨fun i => Eq.trans_le ?_ (h.once i), h.records⟩
        have hplaces := places_setWorker (s := { s with queue := rest }) (i := i) hget (.processing item)
        simp only [Worker.held, List.count_nil, Nat.add_zero] at hplaces
        rw [hplaces]
        simp only [places, hqueue, List.count_cons, List.count_nil]
        omega
  | timeout n | wake n =>
      simp only [EmbeddingPipeline.step] at hstep
      split at hstep <;> cases hstep
      next hget =>
        first
        | exact h.idle hget ⟨rfl, loop_held⟩
        | cases python310 <;> exact h.idle hget ⟨rfl, by first | exact loop_held | rfl⟩
  | succeed n | fail n =>
      simp only [EmbeddingPipeline.step] at hstep
      split at hstep <;> cases hstep
      next hget =>
        first
        | exact h.release hget loop_held (Or.inr (Or.inl rfl))
        | exact h.release hget rfl (Or.inr (Or.inr rfl))
  | crash n stores =>
      simp only [EmbeddingPipeline.step] at hstep
      split at hstep <;> cases hstep
      next hget =>
        refine h.release hget rfl ?_
        cases stores
        · exact Or.inl rfl
        · exact Or.inr (Or.inl rfl)
  | cancelled n stores =>
      simp only [EmbeddingPipeline.step] at hstep
      split at hstep
      · split at hstep <;> cases hstep
        next hget =>
          refine h.release hget rfl ?_
          cases stores
          · exact Or.inl rfl
          · exact Or.inr (Or.inl rfl)
        all_goals
          next hget => exact h.idle hget ⟨rfl, rfl⟩
      · cases hstep

end Once

/-- However workers fail, are cancelled or pile up: no turn is stored
twice, or while it is still to be embedded, and none as another's record. -/
theorem stored_once {python310 : Bool} {steps : List Step} {s : EmbeddingPipeline}
    (hrun : run (step python310) steps {} = some s) :
    (s.stored.map (·.1)).Nodup ∧ (∀ entry ∈ s.stored, entry.1 ∉ s.queue)
      ∧ ∀ entry ∈ s.stored, ∃ item, s.enqueued[entry.1]? = some item ∧ entry.2 = item.record := by
  have hall : s.Once := run_preserves (fun _ _ _ h hstep => h.step hstep)
    ⟨fun _ => Nat.zero_le _, fun _ hentry => (by cases hentry)⟩ hrun
  have hone : ∀ i, s.places i ≤ 1 := fun i => (hall.once i).trans (by split <;> decide)
  refine ⟨List.nodup_iff_count_le_one.2 fun i => ?_, fun entry hentry hqueued => ?_, hall.records⟩
  · have hplaces := hone i
    unfold places at hplaces
    omega
  · have hplaces := hone entry.1
    have hstored := List.count_pos_iff.2 (List.mem_map_of_mem (f := (·.1)) hentry)
    have hqueue := List.count_pos_iff.2 hqueued
    unfold places at hplaces
    omega

theorem stored_once_retried : ∃ s, run (step false) retried {} = some s ∧ s.stored.length = 1
    ∧ (s.stored.map (·.1)).Nodup := by
  have hdone : (run (step false) retried {}).map (·.stored.length) = some 1 := by decide
  obtain ⟨s, hs, hlength⟩ := Option.map_eq_some_iff.1 hdone
  exact ⟨s, hs, hlength, (stored_once hs).1⟩

end EmbeddingPipeline

end Velune.Memory
