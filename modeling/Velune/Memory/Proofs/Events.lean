/-
What an event does to a manager: one inversion of its step (`Moves`), and
what holds of the working memory whatever happens to it (`Sound`). Every
turn in the tier carries the stamp of the session it is bound to, because
binding stamps the turns of the session before it.
-/
import Velune.Memory.Lifecycle

namespace Velune.Memory

open Lib

-- ===== the tier

structure Sound (tier : WorkingMemoryTier) : Prop where
  stamped : ∀ i ∈ tier.turns, (tier.objects i).sessionId = tier.sessionId
  below : ∀ i ∈ tier.turns, i < tier.made
  sorted : tier.turns.Pairwise (· < ·)

section Tier

variable {tier : WorkingMemoryTier}

theorem Sound.new (ttlSeconds : Int) : Sound (.new ttlSeconds) :=
  ⟨fun _ h => (List.not_mem_nil h).elim, fun _ h => (List.not_mem_nil h).elim, List.Pairwise.nil⟩

theorem Sound.getTurns (h : Sound tier) : tier.getTurns = tier.turns :=
  List.filter_eq_self.2 fun i hi => decide_eq_true (h.stamped i hi)

theorem Sound.sublist (h : Sound tier) {left : List Nat} (hleft : left.Sublist tier.turns) :
    Sound { tier with turns := left } :=
  ⟨fun i hi => h.stamped i (hleft.subset hi), fun i hi => h.below i (hleft.subset hi),
    h.sorted.sublist hleft⟩

theorem bindSession_turns (sessionId : PyStr) : (tier.bindSession sessionId).turns = tier.turns := by
  unfold WorkingMemoryTier.bindSession
  split <;> rfl

theorem bindSession_made (sessionId : PyStr) : (tier.bindSession sessionId).made = tier.made := by
  unfold WorkingMemoryTier.bindSession
  split <;> rfl

theorem bindSession_idle {sessionId : PyStr} (h : sessionId = [] ∨ sessionId = tier.sessionId) :
    tier.bindSession sessionId = tier := if_pos h

theorem bindSession_sessionId (sessionId : PyStr) :
    (tier.bindSession sessionId).sessionId = if sessionId = [] then tier.sessionId else sessionId := by
  unfold WorkingMemoryTier.bindSession
  by_cases hempty : sessionId = []
  · rw [if_pos (Or.inl hempty), if_pos hempty]
  · rw [if_neg hempty]
    by_cases hsame : sessionId = tier.sessionId
    · rw [if_pos (Or.inr hsame), hsame]
    · rw [if_neg fun h => h.elim hempty hsame]

theorem Sound.bindSession (h : Sound tier) (sessionId : PyStr) :
    Sound (tier.bindSession sessionId) := by
  by_cases hidle : sessionId = [] ∨ sessionId = tier.sessionId
  · rw [bindSession_idle hidle]
    exact h
  · refine ⟨fun i hi => ?_, fun i hi => ?_, ?_⟩
    · rw [bindSession_turns] at hi
      have hstamp := h.stamped i hi
      rw [bindSession_sessionId, if_neg fun he => hidle (Or.inl he)]
      unfold WorkingMemoryTier.bindSession
      rw [if_neg hidle]
      change (if i ∈ tier.turns ∧ (tier.objects i).sessionId = tier.sessionId then
        { tier.objects i with sessionId := sessionId } else tier.objects i).sessionId = sessionId
      rw [if_pos ⟨hi, hstamp⟩]
    · rw [bindSession_turns] at hi
      rw [bindSession_made]
      exact h.below i hi
    · rw [bindSession_turns]
      exact h.sorted

theorem Sound.addTurn (h : Sound tier) (role content : PyStr) (metadata : Metadata)
    {sessionId : Option PyStr} (hsession : sessionId.getD tier.sessionId = tier.sessionId)
    (timestamp : Int) : Sound (tier.addTurn role content metadata sessionId timestamp) := by
  refine ⟨fun i hi => ?_, fun i hi => ?_, ?_⟩
  · change (if i = tier.made then
      (⟨role, content, timestamp, metadata, sessionId.getD tier.sessionId⟩ : MemoryTurn)
      else tier.objects i).sessionId = tier.sessionId
    rcases List.mem_append.1 hi with hold | hnew
    · rw [if_neg (Nat.ne_of_lt (h.below i hold))]
      exact h.stamped i hold
    · rw [if_pos (List.mem_singleton.1 hnew)]
      exact hsession
  · change i < tier.made + 1
    rcases List.mem_append.1 hi with hold | hnew
    · exact Nat.lt_succ_of_lt (h.below i hold)
    · rw [List.mem_singleton.1 hnew]
      exact Nat.lt_succ_self _
  · refine List.pairwise_append.2 ⟨h.sorted, List.pairwise_singleton _ _, fun i hi j hj => ?_⟩
    rw [List.mem_singleton.1 hj]
    exact h.below i hi

variable {sessionId role content : PyStr} {model : Option PyStr} {tokens : Option Int}
variable {timestamp : Int}

theorem record_turns : (tier.record sessionId role content model tokens timestamp).turns
    = tier.turns ++ [tier.made] := by
  change (tier.bindSession sessionId).turns ++ [(tier.bindSession sessionId).made] = _
  rw [bindSession_turns, bindSession_made]

theorem record_made : (tier.record sessionId role content model tokens timestamp).made
    = tier.made + 1 := congrArg (· + 1) (bindSession_made sessionId)

theorem record_sessionId : (tier.record sessionId role content model tokens timestamp).sessionId
    = if sessionId = [] then tier.sessionId else sessionId := bindSession_sessionId sessionId

theorem Sound.record (h : Sound tier) :
    Sound (tier.record sessionId role content model tokens timestamp) := by
  refine (h.bindSession sessionId).addTurn _ _ _ ?_ _
  rw [bindSession_sessionId]
  by_cases hempty : sessionId = []
  · rw [if_pos hempty, if_pos hempty]
    rfl
  · rw [if_neg hempty, if_neg hempty]
    rfl

theorem popAll_sublist : ∀ (indices turns : List Nat), (popAll indices turns).1.Sublist turns
  | [], turns => List.Sublist.refl turns
  | i :: indices, turns => by
      unfold popAll
      split
      · exact (popAll_sublist indices _).trans (List.eraseIdx_sublist turns i)
      · exact List.Sublist.refl turns

/-- What replacing does, in whichever way it ends: turns go, and a summary
may come. -/
theorem replace_cases (tier : WorkingMemoryTier) (turns : List Nat) (summary : PyStr) (timestamp : Int) :
    ∃ left, left.Sublist tier.turns
      ∧ ((replaceTurnsWithSummary tier turns summary timestamp).1 = { tier with turns := left }
        ∨ (replaceTurnsWithSummary tier turns summary timestamp).1
          = { tier with turns := left }.addTurn "system".toList summary .compactionSummary none
            timestamp) := by
  refine ⟨_, popAll_sublist ((turns.filterMap (indexOf tier)).insertionSort (· ≥ ·)) tier.turns, ?_⟩
  unfold replaceTurnsWithSummary
  dsimp only
  split
  · exact Or.inr rfl
  · exact Or.inl rfl

end Tier

-- ===== events

/-- The phase of a task; one that was not created yet counts as
scheduled. -/
def Manager.phaseAt (m : Manager) (n : Nat) : Phase :=
  (m.tasks[n]?.map Compaction.phase).getD .scheduled

section Phases

variable {m : Manager} {n : Nat} {task : Compaction}

theorem phaseAt_of (h : m.tasks[n]? = some task) : m.phaseAt n = task.phase := by
  unfold Manager.phaseAt
  rw [h]
  rfl

theorem phaseAt_set (h : m.tasks[n]? = some task) (task' : Compaction) :
    ({ m with tasks := m.tasks.set n task' } : Manager).phaseAt
      = Function.update m.phaseAt n task'.phase := by
  funext k
  unfold Manager.phaseAt
  rw [List.getElem?_set]
  by_cases hk : n = k
  · subst hk
    rw [if_pos rfl, if_pos (List.getElem?_eq_some_iff.1 h).1, Function.update_self]
    rfl
  · rw [if_neg hk, Function.update_of_ne fun he => hk he.symm]

theorem phaseAt_discard (h : m.tasks[n]? = some task) : (m.discard n task).phaseAt = m.phaseAt := by
  refine (phaseAt_set h { task with settled := true }).trans ?_
  rw [← phaseAt_of h, Function.update_eq_self]

theorem phaseAt_schedule (sessionId : PyStr) : (m.schedule sessionId).phaseAt = m.phaseAt := by
  unfold Manager.schedule
  split
  · rfl
  · funext k
    unfold Manager.phaseAt
    rcases Nat.lt_trichotomy k m.tasks.length with hlt | rfl | hgt
    · rw [List.getElem?_append_left hlt]
    · rw [List.getElem?_append_right (Nat.le_refl _), Nat.sub_self,
        List.getElem?_eq_none (Nat.le_refl _)]
      rfl
    · rw [List.getElem?_eq_none (Nat.le_of_lt hgt), List.getElem?_eq_none]
      rw [List.length_append]
      exact hgt

/-- Starting a compaction changes neither the working memory nor a
phase. -/
theorem check_same (sessionId : PyStr) (provider : Option Nat) :
    (m.checkAndTriggerCompaction sessionId provider).working = m.working
      ∧ (m.checkAndTriggerCompaction sessionId provider).phaseAt = m.phaseAt := by
  unfold Manager.checkAndTriggerCompaction
  dsimp only
  split
  · exact ⟨rfl, rfl⟩
  · split
    · refine ⟨?_, phaseAt_schedule _⟩
      unfold Manager.schedule
      split <;> rfl
    · exact ⟨rfl, rfl⟩

end Phases

inductive Moves (m m' : Manager) : Event → Prop
  | record {sessionId role content model tokens timestamp provider}
      (hworking : m'.working = m.working.record sessionId role content model tokens timestamp)
      (hphases : m'.phaseAt = m.phaseAt) :
      Moves m m' (.record sessionId role content model tokens timestamp provider)
  | short {n} (hshort : m.working.getTurns.length ≤ KEEP_LAST_N_TURNS)
      (hworking : m'.working = m.working) (hwas : m.phaseAt n = .scheduled)
      (hphases : m'.phaseAt = Function.update m.phaseAt n .failed) : Moves m m' (.start n)
  | took {n} (hlong : KEEP_LAST_N_TURNS < m.working.getTurns.length)
      (hworking : m'.working = m.working) (hwas : m.phaseAt n = .scheduled)
      (hphases : m'.phaseAt
        = Function.update m.phaseAt n (.summarising (turnsToSummarize m.working))) :
      Moves m m' (.start n)
  | refused {n turns summary} (hworking : m'.working = m.working)
      (hwas : m.phaseAt n = .summarising turns)
      (hphases : m'.phaseAt = Function.update m.phaseAt n .failed) :
      Moves m m' (.summarised n summary)
  | accepted {n turns text} (hworking : m'.working = m.working)
      (hwas : m.phaseAt n = .summarising turns)
      (hphases : m'.phaseAt = Function.update m.phaseAt n (.storing turns text)) :
      Moves m m' (.summarised n (some text))
  | unstored {n turns text timestamp} (hworking : m'.working = m.working)
      (hwas : m.phaseAt n = .storing turns text)
      (hphases : m'.phaseAt = Function.update m.phaseAt n .failed) :
      Moves m m' (.stored n false timestamp)
  | replaced {n turns text timestamp}
      (hworking : m'.working = (replaceTurnsWithSummary m.working turns text timestamp).1)
      (hwas : m.phaseAt n = .storing turns text)
      (hphases : m'.phaseAt = Function.update m.phaseAt n
        (if (replaceTurnsWithSummary m.working turns text timestamp).2 then .succeeded turns
          else .failed)) : Moves m m' (.stored n true timestamp)
  | callback {n} (hworking : m'.working = m.working) (hphases : m'.phaseAt = m.phaseAt) :
      Moves m m' (.callback n)
  | evict {now} (hworking : m'.working = m.working.evictExpired now)
      (hphases : m'.phaseAt = m.phaseAt) : Moves m m' (.evict now)

theorem step_moves {event : Event} {m m' : Manager} (h : m.step event = some m') :
    Moves m m' event := by
  cases event with
  | record sessionId role content model tokens timestamp provider =>
      cases h
      exact .record (check_same _ _).1 (check_same _ _).2
  | start n =>
      obtain ⟨task, ht, hstep⟩ := Option.bind_eq_some_iff.1 h
      split at hstep
      · rename_i hwas
        cases hstep
        unfold Manager.compactStart
        split
        · exact .short ‹_› rfl ((phaseAt_of ht).trans hwas) (phaseAt_set ht _)
        · exact .took (Nat.lt_of_not_le ‹_›) rfl ((phaseAt_of ht).trans hwas) (phaseAt_set ht _)
      · cases hstep
  | summarised n summary =>
      obtain ⟨task, ht, hstep⟩ := Option.bind_eq_some_iff.1 h
      split at hstep
      · rename_i turns hwas
        cases hstep
        unfold Manager.compactSummarised
        split
        · exact .refused rfl ((phaseAt_of ht).trans hwas) (phaseAt_set ht _)
        · split
          · exact .accepted rfl ((phaseAt_of ht).trans hwas) (phaseAt_set ht _)
          · exact .refused rfl ((phaseAt_of ht).trans hwas) (phaseAt_set ht _)
      · cases hstep
  | stored n done timestamp =>
      obtain ⟨task, ht, hstep⟩ := Option.bind_eq_some_iff.1 h
      split at hstep
      · rename_i turns text hwas
        cases hstep
        cases done with
        | true => exact .replaced rfl ((phaseAt_of ht).trans hwas) (phaseAt_set ht _)
        | false => exact .unstored rfl ((phaseAt_of ht).trans hwas) (phaseAt_set ht _)
      · cases hstep
  | callback n =>
      obtain ⟨task, ht, hstep⟩ := Option.bind_eq_some_iff.1 h
      split at hstep
      · cases hstep
        exact .callback rfl (phaseAt_discard ht)
      · cases hstep
  | evict now =>
      cases h
      exact .evict rfl rfl

theorem Sound.moves {event : Event} {m m' : Manager} (h : Sound m.working)
    (hmoves : Moves m m' event) : Sound m'.working := by
  cases hmoves with
  | record hworking => exact hworking ▸ h.record
  | replaced hworking =>
      rw [hworking]
      obtain ⟨left, hleft, heq | heq⟩ := replace_cases m.working _ _ _
      · rw [heq]
        exact h.sublist hleft
      · rw [heq]
        exact (h.sublist hleft).addTurn _ _ _ rfl _
  | evict hworking => exact hworking ▸ h.sublist List.filter_sublist
  | short _ hworking => exact hworking ▸ h
  | took _ hworking => exact hworking ▸ h
  | refused hworking => exact hworking ▸ h
  | accepted hworking => exact hworking ▸ h
  | unstored hworking => exact hworking ▸ h
  | callback hworking => exact hworking ▸ h

theorem world_step {event : Event} {w w' : World} (h : World.step event w = some w') :
    ∃ m, Moves w.manager m event ∧ w' = w.after event m := by
  obtain ⟨m, hm, heq⟩ := Option.map_eq_some_iff.1 h
  exact ⟨m, step_moves hm, heq.symm⟩

theorem Sound.step {event : Event} {w w' : World} (h : Sound w.working)
    (hstep : World.step event w = some w') : Sound w'.working := by
  obtain ⟨m, hm, rfl⟩ := world_step hstep
  exact h.moves hm

end Velune.Memory
