/-
Sessions in the working memory, over every history of recorded turns and
of the compactions and evictions among them.

Whatever happens, every turn in the tier carries the stamp of the session
it is bound to (`Sound`): so `get_turns` returns all of them, whoever
recorded them. The sessions are apart exactly in the histories that never
bind another session while a turn of the one before is there
(`sessions_apart_iff`).
-/
import Velune.Memory.Proofs.Events

namespace Velune.Memory

open Lib

-- ===== isolation

/-- The turns of the session the tier is bound to, in the order they were
recorded: those that are there and were recorded under it, or under the
placeholder before the tier was bound. -/
def World.ownTurns (w : World) : List Nat :=
  (List.range w.working.made).filter fun i => i ∈ w.working.turns
    ∧ (w.recordedUnder i = none ∨ w.recordedUnder i = some w.working.sessionId)

/-- `get_turns` returns the turns of its session. -/
def World.Isolated (w : World) : Prop := w.working.getTurns = w.ownTurns

/-- Another session is bound only while no turn of a session is there. -/
def Alone (event : Event) (w : World) : Prop :=
  match event with
  | .record sessionId _ _ _ _ _ _ => sessionId = [] ∨ sessionId = w.working.sessionId
      ∨ ∀ i ∈ w.working.turns, w.recordedUnder i = none
  | _ => True

instance : (event : Event) → (w : World) → Decidable (Alone event w)
  | .record _ _ _ _ _ _ _, _ => inferInstanceAs (Decidable (_ ∨ _ ∨ ∀ i ∈ _, _ = none))
  | .start _, _ | .summarised _ _, _ | .stored _ _ _, _ | .callback _, _ | .evict _, _ =>
      isTrue trivial

theorem isolated_iff {w : World} (h : Sound w.working) : w.Isolated ↔ ∀ i ∈ w.working.turns,
    w.recordedUnder i = none ∨ w.recordedUnder i = some w.working.sessionId := by
  unfold World.Isolated World.ownTurns
  rw [h.getTurns]
  refine ⟨fun heq i hi => ?_, fun hall => ?_⟩
  · rw [heq] at hi
    exact (of_decide_eq_true (List.mem_filter.1 hi).2).2
  · refine h.sorted.eq_of_mem_iff (List.pairwise_lt_range.filter _) fun i => ?_
    refine ⟨fun hi => List.mem_filter.2 ⟨List.mem_range.2 (h.below i hi), ?_⟩, fun hi => ?_⟩
    · exact decide_eq_true ⟨hi, hall i hi⟩
    · exact (of_decide_eq_true (List.mem_filter.1 hi).2).1

section Steps

variable {event : Event} {w w' : World} {m : Manager}

theorem after_recorded {i : Nat} (h : i < w.working.made) :
    (w.after event m).recordedUnder i = w.recordedUnder i := if_pos h

/-- What was recorded before decides; a turn that is added is one of the
session the tier is bound to then. -/
theorem isolated_after (hs : Sound m.working)
    (h : ∀ i ∈ m.working.turns, i < w.working.made →
      w.recordedUnder i = none ∨ w.recordedUnder i = some m.working.sessionId) :
    (w.after event m).Isolated := by
  refine (isolated_iff hs).2 fun i hi => ?_
  by_cases hold : i < w.working.made
  · rw [after_recorded hold]
    exact h i hi hold
  · have hnew : (w.after event m).recordedUnder i
        = if (w.after event m).bound then some (m.working.objects i).sessionId else none :=
      if_neg hold
    rw [hnew]
    cases (w.after event m).bound with
    | false => exact Or.inl rfl
    | true => exact Or.inr (congrArg some (hs.stamped i hi))

/-- The step lemma: the sessions stay apart exactly when the event leaves
the binding, or no turn of a session is there. -/
theorem isolated_step (hs : Sound w.working) (hi : w.Isolated)
    (hstep : World.step event w = some w') : w'.Isolated ↔ Alone event w := by
  have hs' := hs.step hstep
  obtain ⟨m, hm, rfl⟩ := world_step hstep
  have hold := (isolated_iff hs).1 hi
  have hstays : m.working = w.working → (w.after event m).Isolated := fun heq =>
    isolated_after hs' fun i hi' _ => by
      rw [heq] at hi' ⊢
      exact hold i hi'
  cases hm with
  | @record sessionId role content model tokens timestamp provider hworking =>
      have hturns : m.working.turns = w.working.turns ++ [w.working.made] :=
        hworking ▸ record_turns
      have hsession : m.working.sessionId
          = if sessionId = [] then w.working.sessionId else sessionId := hworking ▸ record_sessionId
      refine ⟨fun hi' => ?_, fun halone => isolated_after hs' fun i hi' hlt => ?_⟩
      · by_cases hempty : sessionId = []
        · exact Or.inl hempty
        · rw [if_neg hempty] at hsession
          refine Or.inr (Classical.or_iff_not_imp_left.2 fun hne i hi₀ => ?_)
          -- a turn of the old session would now be returned under the new one
          have hmem : i ∈ m.working.turns := hturns ▸ List.mem_append_left _ hi₀
          have hnow := (isolated_iff hs').1 hi' i hmem
          rw [after_recorded (hs.below i hi₀)] at hnow
          refine hnow.resolve_right fun hsome => ?_
          rcases hold i hi₀ with hnone | hwas
          · cases hnone.symm.trans hsome
          · exact hne (hsession.symm.trans (Option.some.inj (hsome.symm.trans hwas)))
      · rw [hturns] at hi'
        have hi₀ : i ∈ w.working.turns :=
          (List.mem_append.1 hi').resolve_right fun hnew =>
            Nat.ne_of_lt hlt (List.mem_singleton.1 hnew)
        rcases halone with hempty | hsame | hnone
        · rw [hsession, if_pos hempty]
          exact hold i hi₀
        · rw [hsession, hsame, ite_self]
          exact hold i hi₀
        · exact Or.inl (hnone i hi₀)
  | evict hworking =>
      refine iff_of_true (isolated_after hs' fun i hi' _ => ?_) trivial
      rw [hworking] at hi' ⊢
      exact hold i (List.mem_filter.1 hi').1
  | replaced hworking =>
      refine iff_of_true (isolated_after hs' fun i hi' hlt => ?_) trivial
      obtain ⟨left, hleft, heq | heq⟩ := replace_cases w.working _ _ _
      · rw [hworking, heq] at hi' ⊢
        exact hold i (hleft.subset hi')
      · rw [hworking, heq] at hi' ⊢
        refine hold i (hleft.subset ((List.mem_append.1 hi').resolve_right fun hnew => ?_))
        exact Nat.ne_of_lt hlt (List.mem_singleton.1 hnew)
  | short _ hworking => exact iff_of_true (hstays hworking) trivial
  | took _ hworking => exact iff_of_true (hstays hworking) trivial
  | refused hworking => exact iff_of_true (hstays hworking) trivial
  | accepted hworking => exact iff_of_true (hstays hworking) trivial
  | unstored hworking => exact iff_of_true (hstays hworking) trivial
  | callback hworking => exact iff_of_true (hstays hworking) trivial

end Steps

-- ===== runs

/-- In every history `get_turns` returns the turns of its session, at every
moment, exactly when no session is bound while a turn of another is
there. -/
theorem sessions_apart_iff (ttlSeconds : Int) (es : List Event) (w : World)
    (hrun : run World.step es (.new ttlSeconds) = some w) :
    Meets World.step (fun _ v => v.Isolated) es (.new ttlSeconds) ∧ w.Isolated
      ↔ Meets World.step Alone es (.new ttlSeconds) :=
  kept_iff_meets (fun _ _ _ => Sound.step) (fun _ _ _ => isolated_step) (Sound.new ttlSeconds) rfl
    hrun

/-- A turn under the placeholder, and two under the first session. -/
def oneSession : List Event :=
  [.record placeholder "user".toList "hi".toList none none 0 none,
    .record "s".toList "user".toList "one".toList none none 1 none,
    .record "s".toList "assistant".toList "two".toList none none 2 none]

theorem oneSession_apart : ∃ w, run World.step oneSession (.new 7200) = some w
    ∧ Meets World.step (fun _ v => v.Isolated) oneSession (.new 7200) ∧ w.Isolated := by
  have hsome : (run World.step oneSession (.new 7200)).isSome = true := by decide
  obtain ⟨w, hw⟩ := Option.isSome_iff_exists.1 hsome
  exact ⟨w, hw, (sessions_apart_iff 7200 oneSession w hw).2 (by decide)⟩

def twoSessions : List Event :=
  [.record "s".toList "user".toList "one".toList none none 0 none,
    .record "t".toList "user".toList "two".toList none none 1 none]

/-- The turn of the first is returned under the second. -/
theorem sessions_mixed : ¬ ∀ w, run World.step twoSessions (.new 7200) = some w → w.Isolated := by
  intro h
  have hpair : (run World.step twoSessions (.new 7200)).map
      (fun w => (w.working.getTurns, w.ownTurns)) = some ([0, 1], [1]) := by decide
  obtain ⟨w, hw, heq⟩ := Option.map_eq_some_iff.1 hpair
  obtain ⟨hget, hown⟩ := Prod.mk.inj heq
  have hsame := h w hw
  unfold World.Isolated at hsame
  rw [hget, hown] at hsame
  cases hsame

end Velune.Memory
