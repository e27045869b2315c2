/-
What the episodic store gets of the turns (`memory/lifecycle.py`): a row
when a turn is recorded, a row for the summary of a compaction, and at
`shutdown` a row for every turn that is still live.

`EpisodicMemory.record_turn` returns an empty id when its write failed, so
that a write failed or not is apart from whether its call returned. A row
is kept with the turn of the working memory that it is about, which the
store itself does not know.

`shutdown` writes every turn that is live, whatever was written before, so
exactly those come to stand there once that had not been written before
(`recorded_once_iff`).
-/
import Velune.Memory.Proofs.Events

namespace Velune.Memory

open Lib

structure WrittenTurn where
  /-- The turn that was added to the working memory with it. -/
  turn : Option Nat
  sessionId : PyStr
  role : PyStr
  content : PyStr
  deriving DecidableEq

structure Recorder where
  manager : Manager
  /-- The rows, in the order of their writing. -/
  written : List WrittenTurn

namespace Recorder

def new (ttlSeconds : Int) : Recorder := ⟨.new ttlSeconds, []⟩

/-- The row an event writes, if its write succeeds; a turn that is added
with it gets the next number. -/
def row (event : Event) (m m' : Manager) : List WrittenTurn :=
  match event with
  | .record sessionId role content _ _ _ _ => [⟨some m.working.made, sessionId, role, content⟩]
  | .stored n _ _ =>
      match m.tasks[n]? with
      | some ⟨sessionId, .storing _ summary, _⟩ =>
          [⟨if m.working.made < m'.working.made then some m.working.made else none,
            sessionId, "system".toList, summary⟩]
      | _ => []
  | _ => []

def step (event : Event × Bool) (s : Recorder) : Option Recorder :=
  (s.manager.step event.1).map fun m =>
    ⟨m, s.written ++ if event.2 then row event.1 s.manager m else []⟩

/-- `shutdown`, with a store that works. -/
def shutdown (now : Int) (s : Recorder) : Recorder :=
  let working := s.manager.working.evictExpired now
  { manager := { s.manager with working := working }
    written := s.written ++ working.getTurns.map fun i =>
      ⟨some i, working.sessionId, (working.objects i).role, (working.objects i).content⟩ }

end Recorder

namespace Recorder

-- ===== property

def live (s : Recorder) : List Nat := s.manager.working.getTurns

def ofLive (s : Recorder) : List Nat := (s.written.filterMap (·.turn)).filter (· ∈ s.live)

/-- The store has every live turn once, in the order in which they were
recorded, with its text and under the session. -/
structure Once (s : Recorder) : Prop where
  sorted : s.ofLive.Pairwise (· < ·)
  all : ∀ i ∈ s.live, i ∈ s.ofLive
  texts : ∀ row ∈ s.written, ∀ i ∈ s.live, row.turn = some i →
    row.sessionId = s.manager.working.sessionId ∧ row.role = (s.manager.working.objects i).role
      ∧ row.content = (s.manager.working.objects i).content

def Owed (now : Int) (s : Recorder) : Prop :=
  ∀ row ∈ s.written, ∀ i ∈ (s.manager.working.evictExpired now).getTurns, row.turn ≠ some i

-- ===== shutdown

section Shutdown

variable {s : Recorder} {now : Int}

theorem ofLive_shutdown : (s.shutdown now).ofLive
    = (s.written.filterMap (·.turn)).filter (· ∈ (s.shutdown now).live) ++ (s.shutdown now).live := by
  have hflushed : ((s.shutdown now).live.map fun i => (⟨some i, s.manager.working.sessionId,
      (s.manager.working.objects i).role, (s.manager.working.objects i).content⟩ : WrittenTurn)).filterMap
        (·.turn) = (s.shutdown now).live := by
    rw [List.filterMap_map]
    exact List.filterMap_some
  have hwritten : (s.shutdown now).written.filterMap (·.turn)
      = s.written.filterMap (·.turn) ++ (s.shutdown now).live :=
    List.filterMap_append.trans (congrArg _ hflushed)
  rw [ofLive, hwritten, List.filter_append]
  congr 1
  exact List.filter_eq_self.2 fun i hi => decide_eq_true hi

/-- The turns that are live at a shutdown are in the order of their
making. -/
theorem live_sorted (h : Sound s.manager.working) : (s.shutdown now).live.Pairwise (· < ·) :=
  h.sorted.sublist (List.filter_sublist.trans List.filter_sublist)

theorem mem_turns {i : Nat} {rows : List WrittenTurn} :
    i ∈ rows.filterMap (·.turn) ↔ ∃ row ∈ rows, row.turn = some i := List.mem_filterMap

theorem once_iff (h : Sound s.manager.working) : (s.shutdown now).Once ↔ Owed now s := by
  refine ⟨fun honce row hrow i hi hturn => ?_, fun howed => ?_⟩
  · have hmem : i ∈ (s.written.filterMap (·.turn)).filter (· ∈ (s.shutdown now).live) :=
      List.mem_filter.2 ⟨mem_turns.2 ⟨row, hrow, hturn⟩, decide_eq_true hi⟩
    have hsorted := honce.sorted
    rw [ofLive_shutdown] at hsorted
    -- the flush writes it after the row that is there
    exact Nat.lt_irrefl i ((List.pairwise_append.1 hsorted).2.2 i hmem i hi)
  · have hnone : (s.written.filterMap (·.turn)).filter (· ∈ (s.shutdown now).live) = [] := by
      refine List.filter_eq_nil_iff.2 fun i hi hlive => ?_
      obtain ⟨row, hrow, hturn⟩ := mem_turns.1 hi
      exact howed row hrow i (of_decide_eq_true hlive) hturn
    have hof : (s.shutdown now).ofLive = (s.shutdown now).live := by
      rw [ofLive_shutdown, hnone, List.nil_append]
    refine ⟨hof ▸ live_sorted h, fun i hi => hof ▸ hi, fun row hrow i hi hturn => ?_⟩
    rcases List.mem_append.1 hrow with hold | hnew
    · exact (howed row hold i hi hturn).elim
    · obtain ⟨j, -, hj⟩ := List.mem_map.1 hnew
      subst hj
      cases hturn
      exact ⟨rfl, rfl, rfl⟩

end Shutdown

-- ===== claim

/-- After any run of recorded turns and compactions, a shutdown leaves every
live turn in the store once, exactly when none of them was written before. -/
theorem recorded_once_iff (ttlSeconds now : Int) (events : List (Event × Bool)) (s : Recorder)
    (hrun : run step events (new ttlSeconds) = some s) : (s.shutdown now).Once ↔ Owed now s := by
  refine once_iff (run_preserves (P := fun s : Recorder => Sound s.manager.working) ?_
    (Sound.new ttlSeconds) hrun)
  intro event s s' h hstep
  obtain ⟨m, hm, rfl⟩ := Option.map_eq_some_iff.1 hstep
  exact h.moves (step_moves hm)

def failedTurn : List (Event × Bool) :=
  [(.record "s".toList "user".toList "hi".toList none none 0 none, false)]

theorem failedTurn_once : ∃ s, run step failedTurn (new 7200) = some s ∧ (s.shutdown 1).Once := by
  have hwritten : (run step failedTurn (new 7200)).map (·.written) = some [] := by decide
  obtain ⟨s, hs, hnone⟩ := Option.map_eq_some_iff.1 hwritten
  refine ⟨s, hs, (recorded_once_iff 7200 1 failedTurn s hs).2 fun row hrow => ?_⟩
  rw [hnone] at hrow
  cases hrow

def writtenTurn : List (Event × Bool) :=
  [(.record "s".toList "user".toList "hi".toList none none 0 none, true)]

/-- It is written twice. -/
theorem turn_repeated : ¬ ∀ s, run step writtenTurn (new 7200) = some s → (s.shutdown 1).Once := by
  intro h
  have hrows : (run step writtenTurn (new 7200)).map (fun s => (s.shutdown 1).ofLive) = some [0, 0] := by
    decide
  obtain ⟨s, hs, heq⟩ := Option.map_eq_some_iff.1 hrows
  have hsorted := (h s hs).sorted
  rw [heq] at hsorted
  revert hsorted
  decide

end Recorder

end Velune.Memory
