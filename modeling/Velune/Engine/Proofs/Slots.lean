/-
Concurrency slots are conserved: the slots in flight are the
reservations not settled yet, and each of those is held by a call that
waits for its tool or by a tracked task whose callback will settle it.

One path loses a slot: a call whose context cannot be built after it
reserved (`_context` asks the tool for its permissions once more, and
runs between `reserve` and the handler that gives the slot back). The
theorem is about the runs in which that does not happen
(`DescribesAgain`); `slot_leaked` is a run in which it does.

`BudgetMove` lists what a move does to the budget of its run, once, for
this module and for Budget.lean.
-/
import Velune.Engine.Proofs.AtMostOnce

namespace Velune.Engine

open Lib

variable {h : Host} {a : Action} {s s' : Sys} {i k : Nat} {c c' : Call} {sh : Shared}
  {ts : List ToolTask}

-- ===== reservations

namespace BudgetLedger

variable {l : BudgetLedger} {r n : Nat}

/-- Settling, in full: nothing, for a reservation that is settled or was
never made; else the slot is given back and the bytes are counted. -/
theorem settle_cases (l : BudgetLedger) (r n : Nat) :
    (l.settle r n = l ∧ l.reservations[r]? ≠ some false)
      ∨ (l.reservations[r]? = some false
          ∧ l.settle r n = { l.settleBytes n with reservations := l.reservations.set r true }) := by
  unfold settle
  split
  next hr => exact Or.inr ⟨hr, rfl⟩
  next hr => exact Or.inl ⟨rfl, hr⟩

theorem settle_reservations {j : Nat} (hj : (l.settle r n).reservations[j]? = some false) :
    j ≠ r ∧ l.reservations[j]? = some false := by
  rcases settle_cases l r n with ⟨heq, hr⟩ | ⟨hr, heq⟩
  · rw [heq] at hj
    exact ⟨fun hjr => hr (hjr ▸ hj), hj⟩
  · have hset : (l.reservations.set r true)[j]? = some false := by rw [heq] at hj; exact hj
    rw [List.getElem?_set] at hset
    by_cases hrj : r = j
    · rw [if_pos hrj] at hset
      split_ifs at hset
      cases hset
    · rw [if_neg hrj] at hset
      exact ⟨fun hjr => hrj hjr.symm, hset⟩

/-- A call is refused for concurrency only when every slot is taken. -/
theorem full_of_concurrency {bytes now : Nat} (hp : l.problem bytes now = some .concurrency) :
    l.budget.maxConcurrent ≤ l.inFlight := by
  unfold problem at hp
  split at hp
  · cases hp
  split at hp
  · cases hp
  split at hp
  · cases hp
  split at hp
  · cases hp
  split at hp
  next hfull => exact hfull
  next => cases hp

/-- The slots in flight are the reservations not settled, out of one
for each call counted. -/
structure Counted (l : BudgetLedger) : Prop where
  inFlight : l.inFlight = l.reservations.count false
  calls : l.calls = l.reservations.length

theorem Counted.started (hl : l.Counted) (bytes : Nat) : (l.started bytes).Counted := by
  constructor
  · show l.inFlight + 1 = (l.reservations ++ [false]).count false
    rw [List.count_append, hl.inFlight]
    rfl
  · show l.calls + 1 = (l.reservations ++ [false]).length
    rw [List.length_append, hl.calls]
    rfl

theorem Counted.settle (hl : l.Counted) (r n : Nat) : (l.settle r n).Counted := by
  rcases settle_cases l r n with ⟨heq, -⟩ | ⟨hr, heq⟩
  · rw [heq]
    exact hl
  · obtain ⟨hlt, hget⟩ := List.getElem?_eq_some_iff.1 hr
    rw [heq]
    constructor
    · show l.inFlight - 1 = (l.reservations.set r true).count false
      rw [List.count_set hlt, hget, hl.inFlight]
      rfl
    · show l.calls = (l.reservations.set r true).length
      rw [List.length_set, hl.calls]

end BudgetLedger

-- ===== budget moves

/-- A call that waits for its tool on reservation `r`. -/
def Call.Reserves (c : Call) (r : Nat) : Prop := ∃ f t, c.state = .tool f t r

/-- What a move of a controlled call does to the control of its run,
apart from the store. -/
inductive BudgetMove (h : Host) (a : Action) (s : Sys) (i : Nat) (c c' : Call)
    (rc : RunControl ToolExecutionResult) : BudgetLedger → List (Nat × Nat) → Prop
  /-- Nothing: the call reserves nothing, before or after. -/
  | same (hnone : ∀ r, ¬ c.Reserves r) (hnone' : ∀ r, ¬ c'.Reserves r) :
      BudgetMove h a s i c c' rc rc.budget rc.background
  /-- The call reserves a slot and waits for its tool. -/
  | reserved (bytes now : Nat) (hnone : ∀ r, ¬ c.Reserves r)
      (hroom : rc.budget.problem bytes now = none)
      (hheld : ∀ r, c'.Reserves r ↔ r = rc.budget.reservations.length) :
      BudgetMove h a s i c c' rc (rc.budget.started bytes) rc.background
  /-- The call reserves a slot, and is over. -/
  | leaked (env : DecideEnv) (f : Frame) (request : InvocationRequest) (bytes : Nat)
      (ha : a = .decide i env) (hs : c.state = .approval f request)
      (hbytes : bytes = f.call.argumentBytes)
      (haccept : ((s.ledgers c.executor).consume env.answer env.approvalNow).1 = none)
      (hcancel : rc.cancelled = false)
      (hroom : rc.budget.problem bytes env.budgetNow = none)
      (hctx : contextBuilds env.permissions = false)
      (hnone' : ∀ r, ¬ c'.Reserves r)
      (hs' : ∃ r, c'.state = .returned r ∧ r.status = .failed ∧ r.executed = true) :
      BudgetMove h a s i c c' rc (rc.budget.started bytes) rc.background
  /-- The call stops waiting for a task that runs on. -/
  | tracked (t r : Nat) (hheld : ∀ j, c.Reserves j ↔ j = r) (hnone' : ∀ r, ¬ c'.Reserves r) :
      BudgetMove h a s i c c' rc rc.budget (rc.background ++ [(t, r)])
  /-- The call gives its slot back, with nothing to account. -/
  | released (r : Nat) (hheld : ∀ j, c.Reserves j ↔ j = r) (hnone' : ∀ r, ¬ c'.Reserves r) :
      BudgetMove h a s i c c' rc (rc.budget.release r) rc.background
  /-- The call accounts its output, and gives its slot back. -/
  | accounted (r : Nat) (text : PyStr) (hheld : ∀ j, c.Reserves j ↔ j = r)
      (hnone' : ∀ r, ¬ c'.Reserves r) :
      BudgetMove h a s i c c' rc
        ((rc.budget.settle r
          (Utf8.encode (clipBytes text rc.budget.resultAllowance).1).length).release r)
        rc.background

theorem not_reserves {st : CallState} (hs : c.state = st) (hst : ∀ f t r, st ≠ .tool f t r)
    (r : Nat) : ¬ c.Reserves r := by
  rintro ⟨f, t, hr⟩
  exact hst f t r (hs.symm.trans hr)

theorem reserves_iff {f : Frame} {t r : Nat} (hs : c.state = .tool f t r) (j : Nat) :
    c.Reserves j ↔ j = r := by
  constructor
  · rintro ⟨g, u, hg⟩
    rw [hs] at hg
    cases hg
    rfl
  · rintro rfl
    exact ⟨f, t, hs⟩

/-- What a move of a controlled call does to the budget and to the
tracked tasks of its run. -/
theorem Move.budget (hm : Move h a s i c c' sh ts) (hk : c.control = some k)
    (hcoh : c.Coherent) :
    ∃ rc, sh.control = some rc ∧ rc.runId = (s.controls k).runId
      ∧ BudgetMove h a s i c c' (s.controls k) rc.budget rc.background := by
  have hshared : (s.shared c).control = some (s.controls k) := by simp [Sys.shared, hk]
  have hleave : ∀ {f : Frame} {l : ApprovalLedger} {rc : RunControl ToolExecutionResult},
      rc.runId = (s.controls k).runId →
      BudgetMove h a s i c c' (s.controls k) rc.budget rc.background →
      ∃ rc', (f.leave ⟨l, some rc⟩).control = some rc' ∧ rc'.runId = (s.controls k).runId
        ∧ BudgetMove h a s i c c' (s.controls k) rc'.budget rc'.background := by
    intro f l rc hid hb
    refine ⟨f.leaveControl rc, leave_control rfl, ?_, ?_⟩
    · rw [leaveControl_eq]
      exact hid
    · rw [leaveControl_budget, leaveControl_background]
      exact hb
  cases hm with
  | early hs hr =>
      exact ⟨_, hshared, rfl, .same (not_reserves hs (by simp)) (not_reserves rfl (by simp))⟩
  | claimCancelled hs hc hnew =>
      rw [hshared] at hc
      cases hc
      exact ⟨_, rfl, rfl, .same (not_reserves hs (by simp)) (not_reserves rfl (by simp))⟩
  | asked hs hissue hcontrol =>
      rcases hcontrol with ⟨hnone, -⟩ | ⟨rc, hc, hnew, rfl⟩
      · rw [hshared] at hnone
        cases hnone
      · rw [hshared] at hc
        cases hc
        exact ⟨_, rfl, rfl, .same (not_reserves hs (by simp)) (not_reserves rfl (by simp))⟩
  | refused env hs =>
      rw [hshared]
      exact hleave rfl (.same (not_reserves hs (by simp)) (not_reserves rfl (by simp)))
  | unasked hs =>
      rw [show s.shared c = ⟨s.ledgers c.executor, some (s.controls k)⟩ by simp [Sys.shared, hk]]
      exact hleave rfl (.same (not_reserves hs (by simp)) (not_reserves rfl (by simp)))
  | cancelledBefore hs haccept hc =>
      rw [hshared] at hc
      cases hc
      exact hleave rfl (.same (not_reserves hs (by simp)) (not_reserves rfl (by simp)))
  | begun ha hs haccept hc hroom =>
      rw [hshared] at hc
      cases hc
      exact ⟨_, rfl, rfl, .reserved _ _ (not_reserves hs (by simp)) hroom (reserves_iff rfl)⟩
  | leaked ha hs hc hcancel hroom hctx haccept =>
      rw [hshared] at hc
      cases hc
      exact hleave rfl (.leaked _ _ _ _ ha hs rfl (by rw [haccept]) hcancel hroom hctx
        (not_reserves rfl (by simp)) ⟨_, rfl, rfl, rfl⟩)
  | begunDirect ha hs haccept hc | brokenDirect hs haccept hc =>
      rw [hshared] at hc
      cases hc
  | abandoned hs htask hending hc =>
      rw [hshared] at hc
      cases hc
      exact hleave rfl (.tracked _ _ (reserves_iff hs) (not_reserves rfl (by simp)))
  | finished hs htask hending hc hout =>
      rw [hshared] at hc
      cases hc
      cases hout with
      | recorded | broken | denied =>
          exact hleave rfl (.released _ (reserves_iff hs) (not_reserves rfl (by simp)))
      | completed raw text r =>
          exact hleave rfl (.accounted _ text (reserves_iff hs) (not_reserves rfl (by simp)))
  | unawaited hs htask hc =>
      rw [hshared] at hc
      cases hc
      unfold settleSlot
      split_ifs
      · exact hleave rfl (.tracked _ _ (reserves_iff hs) (not_reserves rfl (by simp)))
      · exact hleave rfl (.released _ (reserves_iff hs) (not_reserves rfl (by simp)))
  | doneDirect hs =>
      rw [Call.Coherent, hs] at hcoh
      rw [hcoh.2.2.1] at hk
      cases hk

-- ===== invariant

/-- The slots of run `k`: counted, and each one in flight is held, by a
call that waits for its tool or by a tracked task. -/
structure Sys.Slots (s : Sys) (k : Nat) : Prop where
  counted : (s.controls k).budget.Counted
  held : ∀ r, (s.controls k).budget.reservations[r]? = some false →
    (∃ (i : Nat) (c : Call), s.calls[i]? = some c ∧ c.control = some k ∧ c.Reserves r)
      ∨ ∃ t, (t, r) ∈ (s.controls k).background

/-- Whenever a call has reserved its slot, the tool names its
permissions once more, and only known ones: the call's context can be
built. -/
def DescribesAgain : Action → Sys → Prop
  | .decide i env, s =>
      ∀ (c : Call) (f : Frame) (request : InvocationRequest) (k : Nat), s.calls[i]? = some c →
        c.state = .approval f request → c.control = some k →
        ((s.ledgers c.executor).consume env.answer env.approvalNow).1 = none →
        (s.controls k).cancelled = false →
        (s.controls k).budget.problem f.call.argumentBytes env.budgetNow = none →
        contextBuilds env.permissions = true
  | _, _ => True

theorem Sys.Slots.own {rc : RunControl ToolExecutionResult} (hsl : s.Slots k)
    (hdesc : DescribesAgain a s) (hc : s.calls[i]? = some c) (hk : c.control = some k)
    (hk' : c'.control = some k) (hrc : sh.control = some rc)
    (hmove : BudgetMove h a s i c c' (s.controls k) rc.budget rc.background) :
    (s.after i c' sh ts).Slots k := by
  have hafter : (s.after i c' sh ts).controls k = rc := by
    rw [after_controls hk' hrc, if_pos rfl]
  -- a slot that the mover did not hold stays held by whoever held it
  have hother : ∀ r, (s.controls k).budget.reservations[r]? = some false → ¬ c.Reserves r →
      (∃ (j : Nat) (d : Call), (s.after i c' sh ts).calls[j]? = some d ∧ d.control = some k
          ∧ d.Reserves r)
        ∨ ∃ t, (t, r) ∈ (s.controls k).background := by
    intro r hr hnot
    rcases hsl.held r hr with ⟨j, d, hd, hdk, hres⟩ | hback
    · have hj : j ≠ i := by
        rintro rfl
        rw [hc] at hd
        cases hd
        exact hnot hres
      exact Or.inl ⟨j, d, by rw [after_other hj]; exact hd, hdk, hres⟩
    · exact Or.inr hback
  generalize hb : rc.budget = budget at hmove
  generalize hg : rc.background = background at hmove
  cases hmove with
  | same hnone hnone' =>
      refine ⟨by rw [hafter, hb]; exact hsl.counted, fun r hr => ?_⟩
      rw [hafter, hb] at hr
      rw [hafter, hg]
      exact hother r hr (hnone r)
  | reserved bytes now hnone hroom hheld =>
      refine ⟨by rw [hafter, hb]; exact hsl.counted.started bytes, fun r hr => ?_⟩
      rw [hafter, hb] at hr
      rw [hafter, hg]
      have happ : ((s.controls k).budget.reservations ++ [false])[r]? = some false := hr
      rw [List.getElem?_append] at happ
      split_ifs at happ with hlt
      · exact hother r happ (hnone r)
      · have hlen := (List.getElem?_eq_some_iff.1 happ).1
        rw [List.length_singleton] at hlen
        exact Or.inl ⟨i, c', after_self hc, hk', (hheld r).2 (by omega)⟩
  | leaked env f request bytes ha hs hbytes haccept hcancel hroom hctx hnone' hs' =>
      subst ha hbytes
      rw [hdesc c f request k hc hs hk haccept hcancel hroom] at hctx
      cases hctx
  | tracked t r₀ hheld hnone' =>
      refine ⟨by rw [hafter, hb]; exact hsl.counted, fun r hr => ?_⟩
      rw [hafter, hb] at hr
      rw [hafter, hg]
      by_cases hrr : r = r₀
      · subst hrr
        exact Or.inr ⟨t, List.mem_append_right _ (List.mem_singleton.2 rfl)⟩
      · rcases hother r hr (fun hres => hrr ((hheld r).1 hres)) with hcall | ⟨u, hu⟩
        · exact Or.inl hcall
        · exact Or.inr ⟨u, List.mem_append_left _ hu⟩
  | released r₀ hheld hnone' =>
      refine ⟨by rw [hafter, hb]; exact hsl.counted.settle _ _, fun r hr => ?_⟩
      rw [hafter, hb] at hr
      rw [hafter, hg]
      obtain ⟨hne, hr⟩ := BudgetLedger.settle_reservations hr
      exact hother r hr fun hres => hne ((hheld r).1 hres)
  | accounted r₀ text hheld hnone' =>
      refine ⟨by rw [hafter, hb]; exact (hsl.counted.settle _ _).settle _ _, fun r hr => ?_⟩
      rw [hafter, hb] at hr
      rw [hafter, hg]
      obtain ⟨hne, hr⟩ := BudgetLedger.settle_reservations hr
      obtain ⟨-, hr⟩ := BudgetLedger.settle_reservations hr
      exact hother r hr fun hres => hne ((hheld r).1 hres)

/-- A step off run `k` keeps its slots. -/
theorem Sys.Slots.frame (hsl : s.Slots k) (hcontrol : s'.controls k = s.controls k)
    (hcalls : ∀ (i : Nat) (c : Call) (r : Nat), s.calls[i]? = some c → c.control = some k →
      c.Reserves r → s'.calls[i]? = some c) : s'.Slots k := by
  refine ⟨by rw [hcontrol]; exact hsl.counted, fun r hr => ?_⟩
  rw [hcontrol] at hr ⊢
  rcases hsl.held r hr with ⟨i, c, hc, hk, hres⟩ | hback
  · exact Or.inl ⟨i, c, hcalls i c r hc hk hres, hk, hres⟩
  · exact Or.inr hback

/-- What an aside does to a budget: callbacks settle the reservation of
the task they drop, and nothing else touches slots. -/
theorem Aside.slots {rc : RunControl ToolExecutionResult} (ha : Aside a s k rc) :
    (∃ t r, rc.budget = (s.controls k).budget.release r
        ∧ rc.background = (s.controls k).background.erase (t, r))
      ∨ (rc.budget.reservations = (s.controls k).budget.reservations
          ∧ rc.budget.inFlight = (s.controls k).budget.inFlight
          ∧ rc.budget.calls = (s.controls k).budget.calls
          ∧ rc.background = (s.controls k).background) := by
  cases ha with
  | callbacks => exact Or.inl ⟨_, _, rfl, rfl⟩
  | token | noteAttempts => exact Or.inr ⟨rfl, rfl, rfl, rfl⟩
  | modelCall now =>
      refine Or.inr ?_
      dsimp only [BudgetLedger.reserveModelCall]
      split_ifs <;> exact ⟨rfl, rfl, rfl, rfl⟩
  | providerAttempt =>
      refine Or.inr ?_
      dsimp only [BudgetLedger.reserveProviderAttempt]
      split_ifs <;> exact ⟨rfl, rfl, rfl, rfl⟩

theorem Sys.Slots.aside {rc : RunControl ToolExecutionResult} (hsl : s.Slots k)
    (ha : Aside a s k rc) (hcalls : s'.calls = s.calls) (hcontrol : s'.controls k = rc) :
    s'.Slots k := by
  rcases ha.slots with ⟨t, r₀, hbudget, hback⟩ | ⟨hres, hflight, hcount, hback⟩
  · refine ⟨by rw [hcontrol, hbudget]; exact hsl.counted.settle _ _, fun r hr => ?_⟩
    rw [hcontrol, hbudget] at hr
    rw [hcontrol, hback, hcalls]
    obtain ⟨hne, hr⟩ := BudgetLedger.settle_reservations hr
    rcases hsl.held r hr with hcall | ⟨u, hu⟩
    · exact Or.inl hcall
    · refine Or.inr ⟨u, (List.mem_erase_of_ne ?_).2 hu⟩
      exact fun heq => hne (Prod.mk.inj heq).2
  · refine ⟨⟨?_, ?_⟩, fun r hr => ?_⟩
    · rw [hcontrol, hflight, hres]
      exact hsl.counted.inFlight
    · rw [hcontrol, hcount, hres]
      exact hsl.counted.calls
    · rw [hcontrol, hres] at hr
      rw [hcontrol, hback, hcalls]
      exact hsl.held r hr

theorem Sys.Slots.step (hsl : ∀ k, s.Slots k) (hbase : s.Base) (hdesc : DescribesAgain a s)
    (hstep : Engine.step h a s = some s') (k : Nat) : s'.Slots k := by
  rcases step_cases hbase.coherent hstep with ⟨executor, control, args, rfl⟩
    | ⟨i, c, c', sh, ts, hc, hm, rfl⟩ | ⟨t, task, task', -, -, -, rfl⟩ | ⟨k', rc, ha, rfl⟩
  · exact (hsl k).frame rfl fun i c r hc _ _ => concat_old hc
  · obtain ⟨-, hctl, -⟩ := hm.fixed
    have hframe : c.control ≠ some k → (s.after i c' sh ts).controls k = s.controls k →
        (s.after i c' sh ts).Slots k := by
      intro hne hcontrol
      refine (hsl k).frame hcontrol fun j d r hd hdk _ => ?_
      have hj : j ≠ i := by
        rintro rfl
        rw [hc] at hd
        cases hd
        exact hne hdk
      rw [after_other hj]
      exact hd
    cases hk : c.control with
    | none =>
        exact hframe (by rw [hk]; exact (by simp)) (by rw [after_controls_none (hctl.trans hk)])
    | some k₀ =>
        obtain ⟨rc, hrc, -, hmove⟩ := hm.budget hk (hbase.coherent i c hc)
        by_cases hkk : k = k₀
        · subst hkk
          exact (hsl k).own hdesc hc hk (hctl.trans hk) hrc hmove
        · refine hframe (by rw [hk]; exact fun heq => hkk (Option.some.inj heq).symm) ?_
          rw [after_controls (hctl.trans hk) hrc, if_neg hkk]
  · exact (hsl k).frame rfl fun i c r hc _ _ => hc
  · by_cases hkk : k = k'
    · subst hkk
      exact (hsl k).aside ha rfl (Function.update_self ..)
    · exact (hsl k).frame (Function.update_of_ne hkk _ _) fun i c r hc _ _ => hc

-- ===== runs

/-- Every controlled call of run `k` has returned or raised, or has not
run yet, and every tracked task has finished. -/
def Sys.Quiet (s : Sys) (k : Nat) : Prop :=
  (∀ (i : Nat) (c : Call), s.calls[i]? = some c → c.control = some k → ¬ c.Live)
    ∧ (s.controls k).background = []

/-- Every slot taken was given back: none is in flight, so no call is
refused for concurrency; and the slots given back are, one for one, the
calls that were counted. -/
def Sys.SlotsBack (s : Sys) (k : Nat) : Prop :=
  (s.controls k).budget.inFlight = 0
    ∧ (∀ bytes now, (s.controls k).budget.problem bytes now ≠ some .concurrency)
    ∧ (s.controls k).budget.reservations.count true = (s.controls k).budget.calls

theorem slots_conserved {s₀ : Sys} {as : List Action} (hfresh : s₀.Fresh)
    (hdesc : Meets (Engine.step h) DescribesAgain as s₀)
    (hrun : run (Engine.step h) as s₀ = some s) (k : Nat) :
    (s.controls k).budget.inFlight = (s.controls k).budget.reservations.count false
      ∧ (s.Quiet k → s.SlotsBack k) := by
  have hstart : ∀ k, s₀.Slots k := by
    intro k
    obtain ⟨runId, budget, now, hk⟩ := hfresh.controls k
    refine ⟨by rw [hk]; exact ⟨rfl, rfl⟩, fun r hr => ?_⟩
    rw [hk] at hr
    cases hr
  obtain ⟨-, hsl⟩ := run_preserves_of (P := fun s : Sys => s.Base ∧ ∀ k, s.Slots k)
    (fun _ _ _ hd hp hstep => ⟨hp.1.step hstep, Sys.Slots.step hp.2 hp.1 hd hstep⟩)
    hdesc ⟨hfresh.base, hstart⟩ hrun
  obtain ⟨⟨hflight, hcalls⟩, hheld⟩ := hsl k
  refine ⟨hflight, fun ⟨hover, hback⟩ => ?_⟩
  -- nobody is left to hold a reservation that is not settled
  have hnone : false ∉ (s.controls k).budget.reservations := by
    intro hmem
    obtain ⟨r, hr⟩ := List.mem_iff_getElem?.1 hmem
    rcases hheld r hr with ⟨i, c, hc, hk, f, t, hs⟩ | ⟨t, ht⟩
    · exact hover i c hc hk ⟨f, Or.inr ⟨t, r, hs⟩⟩
    · rw [hback] at ht
      cases ht
  have hzero : (s.controls k).budget.inFlight = 0 := by
    rw [hflight, List.count_eq_zero_of_not_mem hnone]
  refine ⟨hzero, fun bytes now hrefused => ?_, ?_⟩
  · have hmax := (s.controls k).budget.budget.concurrent_ok.1
    have hfull := BudgetLedger.full_of_concurrency hrefused
    omega
  · rw [hcalls, List.count_eq_length]
    intro b hb
    cases b with
    | true => rfl
    | false => exact absurd hb hnone

def CallState.isOver : CallState → Bool
  | .returned _ | .raised => true
  | _ => false

theorem quiet_of_over (hover : s.calls.all (·.state.isOver) = true)
    (hback : (s.controls k).background = []) : s.Quiet k := by
  refine ⟨fun i c hc _ hlive => ?_, hback⟩
  have hc := List.all_eq_true.1 hover c (List.mem_of_getElem? hc)
  obtain ⟨f, ⟨request, hs⟩ | ⟨t, r, hs⟩⟩ := hlive <;> simp [hs, CallState.isOver] at hc

/-- A call that runs `git_status`, and is over. -/
def oneQuietStatus : List Action := oneStatus.take 7

theorem slots_conserved_status :
    ∃ s, run (Engine.step statusHost) oneQuietStatus quietSys = some s
      ∧ (s.controls 0).budget.calls = 1 ∧ s.SlotsBack 0 := by
  have hdone : (run (Engine.step statusHost) oneQuietStatus quietSys).map
      (fun s => ((s.controls 0).budget.calls, s.calls.all (·.state.isOver),
        (s.controls 0).background)) = some (1, true, []) := by
    decide +kernel
  obtain ⟨s, hs, hdone⟩ := Option.map_eq_some_iff.1 hdone
  simp only [Prod.mk.injEq] at hdone
  have hdesc : Meets (Engine.step statusHost) DescribesAgain oneQuietStatus quietSys := by
    refine meets_of_forall _ fun a ha s => ?_
    simp only [oneQuietStatus, oneStatus, List.take, List.mem_cons, List.not_mem_nil,
      or_false] at ha
    rcases ha with rfl | rfl | rfl | rfl | rfl | rfl | rfl
    · trivial
    · trivial
    · intro c f request k _ _ _ _ _ _
      decide
    all_goals trivial
  exact ⟨s, hs, hdone.1, (slots_conserved quietSys_fresh hdesc hs 0).2
    (quiet_of_over hdone.2.1 hdone.2.2)⟩

/-- The tool fails to name its permissions a second time: the call is
over, nothing is tracked, and its slot is still taken. -/
theorem slot_leaked :
    ¬ ∀ (h : Host) (s₀ s : Sys) (as : List Action) (k : Nat), s₀.Fresh →
        run (Engine.step h) as s₀ = some s →
        (s.controls k).budget.inFlight = (s.controls k).budget.reservations.count false
          ∧ (s.Quiet k → s.SlotsBack k) := by
  intro hclaim
  have hleak : (run (Engine.step statusHost)
      [.invoke 0 (some 0) (statusArgs (some "r1".toList)),
        .start 0 ⟨statusLookup, "invoke-0".toList, 0, 0⟩,
        .decide 0 ⟨some (approve "invoke-0".toList), none, 1, 1⟩] quietSys).map
      (fun s => ((s.controls 0).budget.inFlight, s.calls.all (·.state.isOver),
        (s.controls 0).background)) = some (1, true, []) := by
    decide +kernel
  obtain ⟨s, hs, hleak⟩ := Option.map_eq_some_iff.1 hleak
  simp only [Prod.mk.injEq] at hleak
  have hzero := ((hclaim _ _ _ _ 0 quietSys_fresh hs).2
    (quiet_of_over hleak.2.1 hleak.2.2)).1
  rw [hleak.1] at hzero
  cases hzero

-- ===== approvals

def Sys.Cleared (s : Sys) : Prop :=
  ∀ (e : Nat) (id : PyStr) (p : Pending), (s.ledgers e).pending id = some p →
    ∀ c, s.calls[p.mintedFor]? = some c → c.state.isOver = false

theorem leave_discards {f : Frame} {request : InvocationRequest} (hf : f.Of c)
    (hminted : c.minted = some request) :
    (f.leave sh).ledger.pending request.invocationId = none := by
  obtain ⟨own, hown, hid⟩ := hf.minted
  cases hminted.symm.trans hown
  have hne : f.invocationId ≠ [] := by
    intro hnil
    have hlong := request.id_long
    rw [← hid, hnil] at hlong
    cases hlong
  rw [leave_ledger, if_neg hne, hid]
  exact Dict.erase_self ..

theorem Move.clears (hm : Move h a s i c c' sh ts) (hcoh : c.Coherent) :
    c'.state.isOver = false ∨ ∀ request, c'.minted = some request →
      sh.ledger.pending request.invocationId = none := by
  cases hm with
  | early | claimCancelled => exact Or.inr fun _ hr => by cases hr
  | asked | begun | begunDirect => exact Or.inl rfl
  | leaked _ hs | brokenDirect hs =>
      rw [Call.Coherent, hs] at hcoh
      exact Or.inr fun _ hr => leave_discards hcoh.1.begun hr
  | refused _ hs | cancelledBefore hs | unasked hs | abandoned hs | finished hs | unawaited hs
  | doneDirect hs =>
      rw [Call.Coherent, hs] at hcoh
      exact Or.inr fun _ hr => leave_discards hcoh.1 hr

theorem Sys.Cleared.step (hcl : s.Cleared) (hb : s.Booked) (hbase : s.Base)
    (hstep : Engine.step h a s = some s') : s'.Cleared := by
  rcases step_cases hbase.coherent hstep with ⟨executor, control, args, rfl⟩
    | ⟨i, c, c', sh, ts, hc, hm, rfl⟩ | ⟨t, task, task', -, -, -, rfl⟩ | ⟨k, rc, -, rfl⟩
  · intro e id p hp d hd
    rcases concat_calls hd with ⟨-, rfl⟩ | hd
    · rfl
    · exact hcl e id p hp d hd
  · intro e id p hp d hd
    obtain ⟨hid, own, hown, hexec, hminted⟩ := (hb.call_after hbase hc hm).filed e id p hp
    cases hd.symm.trans hown
    have hcoh := hbase.coherent i c hc
    rw [after_ledgers] at hp
    rcases after_calls hd with ⟨-, rfl⟩ | ⟨hother, hold⟩
    · rw [if_pos hexec.symm] at hp
      refine (hm.clears hcoh).resolve_right fun hgone => ?_
      rw [← hid, hgone p.request hminted] at hp
      cases hp
    · refine hcl e id p ?_ d hold
      split_ifs at hp with he
      · rw [he, hm.fixed.1]
        rcases hm.ledger hcoh with ⟨hsub, -⟩ | ⟨_, _, -, -, -, -, -, hpending⟩
          | ⟨_, _, _, -, -, -, -, -, -, -, -, -, -, hpending⟩
        · exact hsub id p hp
        · rw [hpending] at hp
          rcases Dict.insert_eq_some hp with ⟨-, rfl⟩ | ⟨-, hp⟩
          · exact absurd rfl hother
          · exact hp
        · rw [hpending] at hp
          exact (Dict.erase_eq_some hp).2
      · exact hp
  · exact hcl
  · exact hcl

/-- In every interleaving a pending invocation was minted for a call that
has neither returned nor raised: none is left for a later answer to use. -/
theorem approvals_cleared {s₀ : Sys} {as : List Action} {e : Nat} {id : PyStr} {p : Pending}
    (hfresh : s₀.Fresh) (hrun : run (Engine.step h) as s₀ = some s)
    (hp : (s.ledgers e).pending id = some p) :
    ∃ c, s.calls[p.mintedFor]? = some c ∧ c.executor = e ∧ c.minted = some p.request
      ∧ c.state.isOver = false := by
  have hstart : s₀.Cleared := fun e id p hp => by simp [hfresh.ledgers] at hp
  obtain ⟨⟨-, hbooked⟩, hcleared⟩ := run_preserves
    (P := fun s => (s.Base ∧ s.Booked) ∧ s.Cleared)
    (fun _ _ _ hp hstep => ⟨⟨hp.1.1.step hstep, hp.1.2.step hp.1.1 hstep⟩,
      hp.2.step hp.1.2 hp.1.1 hstep⟩) ⟨⟨hfresh.base, hfresh.booked⟩, hstart⟩ hrun
  obtain ⟨-, c, hc, hexec, hminted⟩ := hbooked.filed e id p hp
  exact ⟨c, hc, hexec, hminted, hcleared e id p hp c hc⟩

theorem approvals_cleared_status :
    ∃ s p, run (Engine.step statusHost) twoAsk quietSys = some s
      ∧ (s.ledgers 0).pending "invoke-0".toList = some p
      ∧ ∃ c, s.calls[p.mintedFor]? = some c ∧ c.executor = 0 ∧ c.minted = some p.request
        ∧ c.state.isOver = false := by
  have hasked : ((run (Engine.step statusHost) twoAsk quietSys).bind fun s =>
      (s.ledgers 0).pending "invoke-0".toList).isSome = true := by decide +kernel
  obtain ⟨p, hp⟩ := Option.isSome_iff_exists.1 hasked
  obtain ⟨s, hs, hp⟩ := Option.bind_eq_some_iff.1 hp
  exact ⟨s, p, hs, hp, approvals_cleared quietSys_fresh hs hp⟩

end Velune.Engine
