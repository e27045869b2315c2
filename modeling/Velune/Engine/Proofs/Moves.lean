/-
The inversion of the system's step (ExecSystem.lean): what any action
can have done, as one list of moves with the facts each one leaves.
Every invariant of the system is proved by splitting on it.

A move of a call names the call before and after, what it shares after,
and the task it started, if any; `step_cases` puts it back into the
system. The remaining actions move a tool task (`TaskMove`) or one run
control (`Aside`), or make a call (`invoke`).
-/
import Velune.Engine.ExecSystem
import Velune.Engine.Proofs.Execute

namespace Velune.Engine

open Lib

-- ===== moves

/-- What one action can do to call `i`, which was `c`. -/
inductive Move (h : Host) (a : Action) (s : Sys) (i : Nat) (c : Call) :
    Call → Shared → List ToolTask → Prop
  /-- It returns from its first segment with nothing changed. -/
  | early {r : ToolExecutionResult} (hs : c.state = .ready) (hr : Early c.args (s.shared c) r) :
      Move h a s i c { c with state := .returned r, minted := none } (s.shared c) []
  /-- Its request id is new and the token is set. -/
  | claimCancelled {rc : RunControl ToolExecutionResult} (hs : c.state = .ready)
      (hc : (s.shared c).control = some rc) (hnew : rc.store.entries c.args.key = none) :
      Move h a s i c
        { c with state := .returned (cancelledResult c.args.call [] c.args.key), minted := none }
        { s.shared c with control := some (claimedControl c.args rc .cancelled
            (some (cancelledResult c.args.call [] c.args.key))) } []
  /-- It waits for approval. -/
  | asked {newId : PyStr} {now : Nat} {request : InvocationRequest} {ledger : ApprovalLedger}
      {control : Option (RunControl ToolExecutionResult)} (hs : c.state = .ready)
      (hissue : (s.ledgers c.executor).issue c.args.call.name c.args.call.callDigest newId now i
        = some (request, ledger))
      (hcontrol : (s.shared c).control = none ∧ control = none
        ∨ ∃ rc, (s.shared c).control = some rc ∧ rc.store.entries c.args.key = none
            ∧ control = some (claimedControl c.args rc .pending none)) :
      Move h a s i c
        { c with
          state := .approval { call := c.args.call, key := c.args.key
                               invocationId := request.invocationId
                               claimed := (s.shared c).control.isSome } request
          minted := some request }
        ⟨ledger, control⟩ []
  /-- The answer was not accepted, or the budget refused. -/
  | refused {f : Frame} {request : InvocationRequest} {e : ToolErrorCategory}
      (env : DecideEnv) (hs : c.state = .approval f request) :
      Move h a s i c
        { c with
          state := .returned (refusal f.call f.invocationId f.key e)
          answer := env.answer
          spent := none }
        (f.leave ⟨((s.ledgers c.executor).consume env.answer env.approvalNow).2,
          (s.shared c).control⟩) []
  /-- The answer was accepted, but the token is set. -/
  | cancelledBefore {f : Frame} {request : InvocationRequest} {env : DecideEnv}
      {ledger : ApprovalLedger} {rc : RunControl ToolExecutionResult}
      (hs : c.state = .approval f request)
      (haccept : (s.ledgers c.executor).consume env.answer env.approvalNow = (none, ledger))
      (hc : (s.shared c).control = some rc) :
      Move h a s i c
        { c with
          state := .returned (f.cancelledBefore rc).1, answer := env.answer, spent := none }
        (f.leave ⟨ledger, some (f.cancelledBefore rc).2⟩) []
  /-- Its tool is started. -/
  | begun {f : Frame} {request : InvocationRequest} {env : DecideEnv} {ledger : ApprovalLedger}
      {rc : RunControl ToolExecutionResult} (ha : a = .decide i env)
      (hs : c.state = .approval f request)
      (haccept : (s.ledgers c.executor).consume env.answer env.approvalNow = (none, ledger))
      (hc : (s.shared c).control = some rc)
      (hroom : rc.budget.problem f.call.argumentBytes env.budgetNow = none) :
      Move h a s i c
        { c with
          state := .tool f.begun s.tasks.length rc.budget.reservations.length
          answer := env.answer
          spent := spentBy (s.ledgers c.executor) env.answer }
        ⟨ledger, some { rc with budget := rc.budget.started f.call.argumentBytes }⟩
        [{ owner := i, scope := c.control.map fun k => (k, f.key) }]
  /-- Its slot is reserved, and then its context cannot be built. -/
  | leaked {f : Frame} {request : InvocationRequest} {env : DecideEnv} {ledger : ApprovalLedger}
      {rc : RunControl ToolExecutionResult} (ha : a = .decide i env)
      (hs : c.state = .approval f request)
      (hc : (s.shared c).control = some rc)
      (hcancel : rc.cancelled = false)
      (hroom : rc.budget.problem f.call.argumentBytes env.budgetNow = none)
      (hctx : contextBuilds env.permissions = false)
      (haccept : (s.ledgers c.executor).consume env.answer env.approvalNow = (none, ledger)) :
      Move h a s i c
        { c with
          state := .returned (internalError f.call f.invocationId f.key true)
          answer := env.answer
          spent := none }
        (f.begun.leave
          ⟨ledger, some { rc with budget := rc.budget.started f.call.argumentBytes }⟩) []
  /-- Its tool is started, without a control. -/
  | begunDirect {f : Frame} {request : InvocationRequest} {env : DecideEnv}
      {ledger : ApprovalLedger} (ha : a = .decide i env)
      (hs : c.state = .approval f request)
      (haccept : (s.ledgers c.executor).consume env.answer env.approvalNow = (none, ledger))
      (hc : (s.shared c).control = none) :
      Move h a s i c
        { c with
          state := .direct f.begun s.tasks.length
          answer := env.answer
          spent := spentBy (s.ledgers c.executor) env.answer }
        ⟨ledger, none⟩ [{ owner := i, scope := none }]
  /-- Without a control, its context cannot be built. -/
  | brokenDirect {f : Frame} {request : InvocationRequest} {env : DecideEnv}
      {ledger : ApprovalLedger} (hs : c.state = .approval f request)
      (haccept : (s.ledgers c.executor).consume env.answer env.approvalNow = (none, ledger))
      (hc : (s.shared c).control = none) :
      Move h a s i c
        { c with
          state := .returned (internalError f.call f.invocationId f.key true)
          answer := env.answer
          spent := none }
        (f.begun.leave ⟨ledger, none⟩) []
  /-- It is cancelled from outside at the port. -/
  | unasked {f : Frame} {request : InvocationRequest} (hs : c.state = .approval f request) :
      Move h a s i c { c with state := .raised } (f.leave (s.shared c)) []
  /-- It stops waiting for its tool, because the token is set. -/
  | abandoned {f : Frame} {t reservation : Nat} {task : ToolTask} {r : ToolExecutionResult}
      {rc : RunControl ToolExecutionResult} (hs : c.state = .tool f t reservation)
      (htask : s.tasks[t]? = some task) (hending : task.ending = none)
      (hc : (s.shared c).control = some rc) (hexec : r.executed = true) (hout : r.output = [])
      (hstatus : r.status = .failed) :
      Move h a s i c { c with state := .returned r }
        (f.leave ⟨s.ledgers c.executor, some (settleSlot true t reservation
          { rc with store := rc.store.settle f.key .unknown (some r) })⟩) []
  /-- Its tool is done. -/
  | finished {f : Frame} {t reservation now : Nat} {task : ToolTask} {ending : Ending}
      {out : Option ToolExecutionResult × RunControl ToolExecutionResult}
      {rc : RunControl ToolExecutionResult} (hs : c.state = .tool f t reservation)
      (htask : s.tasks[t]? = some task) (hending : task.ending = some ending)
      (hc : (s.shared c).control = some rc)
      (hout : Finished h f ending task.checkPassed reservation now rc out) :
      Move h a s i c
        { c with state :=
            .returned (out.1.getD (internalError f.call f.invocationId f.key true)) }
        (f.leave ⟨s.ledgers c.executor, some (settleSlot false t reservation out.2)⟩) []
  /-- It is cancelled from outside while it waits for its tool. -/
  | unawaited {f : Frame} {t reservation : Nat} {task : ToolTask} {r : ToolExecutionResult}
      {rc : RunControl ToolExecutionResult} (hs : c.state = .tool f t reservation)
      (htask : s.tasks[t]? = some task) (hc : (s.shared c).control = some rc)
      (hexec : r.executed = true) (hout : r.output = []) :
      Move h a s i c { c with state := .raised }
        (f.leave ⟨s.ledgers c.executor, some (settleSlot task.ending.isNone t reservation
          { rc with store := rc.store.settle f.key .unknown (some r) })⟩) []
  /-- Without a control, its tool is done. -/
  | doneDirect {f : Frame} {t : Nat} {task : ToolTask} {ending : Ending} {state : CallState}
      (hs : c.state = .direct f t) (htask : s.tasks[t]? = some task)
      (hending : task.ending = some ending)
      (hstate : state = .raised ∨ ∃ r, state = .returned r) :
      Move h a s i c { c with state := state } (f.leave (s.shared c)) []

inductive TaskMove (task : ToolTask) : ToolTask → Prop
  | passed : TaskMove task { task with checkPassed := true }
  | entered (hgate : task.checkPassed = true) (honce : task.entered = false) :
      TaskMove task { task with entered := true }
  | ended (ending : Ending) : TaskMove task { task with ending := some ending }

/-- What one action can do to a run control, apart from the calls. -/
inductive Aside (a : Action) (s : Sys) (k : Nat) : RunControl ToolExecutionResult → Prop
  | callbacks {task reservation : Nat} {t : ToolTask} (htask : s.tasks[task]? = some t)
      (hending : t.ending.isSome = true)
      (hmem : (task, reservation) ∈ (s.controls k).background) :
      Aside a s k ((s.controls k).finishBackground task reservation)
  | token : Aside a s k (s.controls k).cancel
  | modelCall (now : Nat) :
      Aside a s k
        { s.controls k with budget := ((s.controls k).budget.reserveModelCall now).2 }
  | providerAttempt :
      Aside a s k { s.controls k with budget := (s.controls k).budget.reserveProviderAttempt.2 }
  | noteAttempts (attempts : Int) (ha : a = .noteAttempts k attempts) :
      Aside a s k
        { s.controls k with budget := (s.controls k).budget.noteProviderAttempts attempts }

-- ===== coherence

structure Frame.Of (f : Frame) (c : Call) : Prop where
  call : f.call = c.args.call
  key : f.key = c.args.key
  minted : ∃ request, c.minted = some request ∧ f.invocationId = request.invocationId
  claimed : f.claimed = c.control.isSome

def Call.Coherent (c : Call) : Prop :=
  match c.state with
  | .ready => c.minted = none ∧ c.spent = none
  | .approval f request =>
      f.Of c ∧ c.minted = some request ∧ f.executed = false ∧ c.spent = none
  | .tool f _ _ => f.Of c ∧ f.executed = true ∧ c.control.isSome = true ∧ c.spent.isSome = true
  | .direct f _ => f.Of c ∧ f.executed = true ∧ c.control = none ∧ c.spent.isSome = true
  | .returned _ | .raised => True

-- ===== inversion

variable {h : Host} {a : Action} {s s' : Sys} {i : Nat} {c : Call}

theorem stepStart_move {env : StartEnv} (hstep : stepStart h i env c s = some s') :
    ∃ c' sh, Move h a s i c c' sh [] ∧ s' = s.put i c' sh := by
  unfold stepStart at hstep
  split at hstep
  next hs =>
    have hcases := start_cases h c.args env i (s.shared c)
    rcases hcases with ⟨r, hr, heq⟩ | ⟨rc, hc, hnew, -, heq⟩
      | ⟨request, ledger, control, hissue, hcontrol, heq⟩
    · rw [heq] at hstep
      exact ⟨_, _, .early hs hr, (Option.some.inj hstep).symm⟩
    · rw [heq] at hstep
      exact ⟨_, _, .claimCancelled hs hc hnew, (Option.some.inj hstep).symm⟩
    · rw [heq] at hstep
      exact ⟨_, _, .asked hs hissue hcontrol, (Option.some.inj hstep).symm⟩
  next => cases hstep

theorem stepDecide_move {env : DecideEnv} (ha : a = .decide i env)
    (hstep : stepDecide i env c s = some s') :
    ∃ c' sh ts, Move h a s i c c' sh ts
      ∧ s' = { s.put i c' sh with tasks := s.tasks ++ ts } := by
  unfold stepDecide at hstep
  split at hstep
  next f request hs =>
    rcases decided_cases f env s.tasks.length (s.shared c) with ⟨e, heq⟩
      | ⟨ledger, rc, haccept, hc, -, heq⟩
      | ⟨ledger, rc, haccept, hc, hcancel, hroom, ⟨-, heq⟩ | ⟨hctx, heq⟩⟩
      | ⟨ledger, haccept, hc, heq | heq⟩
    · rw [heq] at hstep
      exact ⟨_, _, _, .refused env hs, (Option.some.inj hstep).symm⟩
    · rw [heq] at hstep
      exact ⟨_, _, _, .cancelledBefore hs haccept hc, (Option.some.inj hstep).symm⟩
    · rw [heq] at hstep
      exact ⟨_, _, _, .begun ha hs haccept hc hroom, (Option.some.inj hstep).symm⟩
    · rw [heq] at hstep
      exact ⟨_, _, _, .leaked ha hs hc hcancel hroom hctx haccept, (Option.some.inj hstep).symm⟩
    · rw [heq] at hstep
      exact ⟨_, _, _, .begunDirect ha hs haccept hc, (Option.some.inj hstep).symm⟩
    · rw [heq] at hstep
      exact ⟨_, _, _, .brokenDirect hs haccept hc, (Option.some.inj hstep).symm⟩
  next => cases hstep

theorem stepWake_move {now : Nat} (hcoh : c.Coherent) (hstep : stepWake h i now c s = some s') :
    ∃ c' sh, Move h a s i c c' sh [] ∧ s' = s.put i c' sh := by
  unfold stepWake at hstep
  split at hstep
  next f t reservation hs =>
    split at hstep
    next => cases hstep
    next task htask =>
      split_ifs at hstep
      have hsome : c.control.isSome = true := by
        rw [Call.Coherent, hs] at hcoh
        exact hcoh.2.2.1
      obtain ⟨k, hk⟩ := Option.isSome_iff_exists.1 hsome
      have hc : (s.shared c).control = some (s.controls k) := by simp [Sys.shared, hk]
      rcases woken_cases h f t reservation task.ending task.checkPassed now hc with
        ⟨hending, r, hexec, hout, -, hstatus, heq⟩ | ⟨e, out, hending, hout, heq⟩
      · rw [heq] at hstep
        exact ⟨_, _, .abandoned hs htask hending hc hexec hout hstatus,
          (Option.some.inj hstep).symm⟩
      · rw [heq] at hstep
        exact ⟨_, _, .finished hs htask hending hc hout, (Option.some.inj hstep).symm⟩
  next f t hs =>
    split at hstep
    next => cases hstep
    next task htask =>
      split at hstep
      next => cases hstep
      next ending hending =>
        obtain ⟨state, hstate, heq⟩ := directDone_eq h f ending task.checkPassed (s.shared c)
        rw [heq] at hstep
        exact ⟨_, _, .doneDirect hs htask hending hstate, (Option.some.inj hstep).symm⟩
  next => cases hstep

theorem stepCancelApproval_move (hstep : stepCancelApproval i c s = some s') :
    ∃ c' sh, Move h a s i c c' sh [] ∧ s' = s.put i c' sh := by
  unfold stepCancelApproval at hstep
  split at hstep
  next f request hs => exact ⟨_, _, .unasked hs, (Option.some.inj hstep).symm⟩
  next => cases hstep

theorem stepCancelWait_move (hcoh : c.Coherent) (hstep : stepCancelWait i c s = some s') :
    ∃ c' sh, Move h a s i c c' sh [] ∧ s' = s.put i c' sh := by
  unfold stepCancelWait at hstep
  split at hstep
  next f t reservation hs =>
    split at hstep
    next => cases hstep
    next task htask =>
      have hsome : c.control.isSome = true := by
        rw [Call.Coherent, hs] at hcoh
        exact hcoh.2.2.1
      obtain ⟨k, hk⟩ := Option.isSome_iff_exists.1 hsome
      have hc : (s.shared c).control = some (s.controls k) := by simp [Sys.shared, hk]
      obtain ⟨r, hexec, hout, heq⟩ := cancelWait_eq f t reservation task.ending hc
      rw [heq] at hstep
      exact ⟨_, _, .unawaited hs htask hc hexec hout, (Option.some.inj hstep).symm⟩
  next => cases hstep

def Sys.after (s : Sys) (i : Nat) (c : Call) (sh : Shared) (ts : List ToolTask) : Sys :=
  { s.put i c sh with tasks := s.tasks ++ ts }

/-- Every action makes a call, moves a call, moves a running task, or
moves a run control. -/
theorem step_cases (hcoh : ∀ (i : Nat) (c : Call), s.calls[i]? = some c → c.Coherent)
    (hstep : step h a s = some s') :
    (∃ executor control args,
        s' = { s with calls := s.calls ++
          [{ executor := executor, control := control, args := args }] })
      ∨ (∃ i c c' sh ts, s.calls[i]? = some c ∧ Move h a s i c c' sh ts
          ∧ s' = s.after i c' sh ts)
      ∨ (∃ t task task', s.tasks[t]? = some task ∧ task.ending = none ∧ TaskMove task task'
          ∧ s' = { s with tasks := s.tasks.set t task' })
      ∨ (∃ k control, Aside a s k control
          ∧ s' = { s with controls := Function.update s.controls k control }) := by
  have hcall : ∀ {i : Nat} {f : Call → Sys → Option Sys}, stepCall i f s = some s' →
      ∃ c, s.calls[i]? = some c ∧ f c s = some s' := by
    intro i f hf
    unfold stepCall at hf
    split at hf
    next => cases hf
    next c hc => exact ⟨c, hc, hf⟩
  have hafter : ∀ {i : Nat} {c c' : Call} {sh : Shared}, s.calls[i]? = some c →
      Move h a s i c c' sh [] → s' = s.put i c' sh →
      ∃ i c c' sh ts, s.calls[i]? = some c ∧ Move h a s i c c' sh ts
        ∧ s' = s.after i c' sh ts := by
    intro i c c' sh hc hm heq
    refine ⟨i, c, c', sh, [], hc, hm, ?_⟩
    rw [heq, Sys.after, List.append_nil]
    rfl
  have htask : ∀ {t : Nat} {allowed : ToolTask → Bool} {f : ToolTask → ToolTask},
      stepTask t allowed f s = some s' →
      (∀ task, task.ending = none → allowed task = true → TaskMove task (f task)) →
      ∃ t task task', s.tasks[t]? = some task ∧ task.ending = none ∧ TaskMove task task'
        ∧ s' = { s with tasks := s.tasks.set t task' } := by
    intro t allowed f hf hmove
    unfold stepTask at hf
    split at hf
    next => cases hf
    next task ht =>
      split_ifs at hf with hok
      rw [Bool.and_eq_true, Option.isNone_iff_eq_none] at hok
      refine ⟨t, task, f task, ht, hok.1, hmove task hok.1 hok.2, ?_⟩
      have hmod : s.tasks.modify t f = s.tasks.set t (f task) := by
        rw [List.modify_eq_set_getElem?, ht]
        rfl
      rw [← Option.some.inj hf, Sys.onTask, hmod]
  cases a with
  | invoke executor control args => exact Or.inl ⟨_, _, _, (Option.some.inj hstep).symm⟩
  | start i env =>
      obtain ⟨c, hc, hf⟩ := hcall hstep
      obtain ⟨c', sh, hm, heq⟩ := stepStart_move hf
      exact Or.inr (Or.inl (hafter hc hm heq))
  | decide i env =>
      obtain ⟨c, hc, hf⟩ := hcall hstep
      obtain ⟨c', sh, ts, hm, heq⟩ := stepDecide_move rfl hf
      exact Or.inr (Or.inl ⟨i, c, c', sh, ts, hc, hm, heq⟩)
  | cancelApproval i =>
      obtain ⟨c, hc, hf⟩ := hcall hstep
      obtain ⟨c', sh, hm, heq⟩ := stepCancelApproval_move hf
      exact Or.inr (Or.inl (hafter hc hm heq))
  | wake i now =>
      obtain ⟨c, hc, hf⟩ := hcall hstep
      obtain ⟨c', sh, hm, heq⟩ := stepWake_move (hcoh i c hc) hf
      exact Or.inr (Or.inl (hafter hc hm heq))
  | cancelWait i =>
      obtain ⟨c, hc, hf⟩ := hcall hstep
      obtain ⟨c', sh, hm, heq⟩ := stepCancelWait_move (hcoh i c hc) hf
      exact Or.inr (Or.inl (hafter hc hm heq))
  | passGate t => exact Or.inr (Or.inr (Or.inl (htask hstep fun _ _ _ => .passed)))
  | enterBody t =>
      refine Or.inr (Or.inr (Or.inl (htask hstep fun task _ hok => ?_)))
      rw [Bool.and_eq_true, Bool.not_eq_true'] at hok
      exact .entered hok.1 hok.2
  | endTask t ending => exact Or.inr (Or.inr (Or.inl (htask hstep fun _ _ _ => .ended ending)))
  | callbacks k task reservation =>
      have hcb : stepCallbacks k task reservation s = some s' := hstep
      unfold stepCallbacks at hcb
      split at hcb
      next => cases hcb
      next t ht =>
        split_ifs at hcb with hok
        exact Or.inr (Or.inr (Or.inr ⟨k, _, .callbacks ht hok.1 hok.2,
          (Option.some.inj hcb).symm⟩))
  | cancelToken k =>
      exact Or.inr (Or.inr (Or.inr ⟨k, _, .token, (Option.some.inj hstep).symm⟩))
  | modelCall k now =>
      exact Or.inr (Or.inr (Or.inr ⟨k, _, .modelCall now, (Option.some.inj hstep).symm⟩))
  | providerAttempt k =>
      exact Or.inr (Or.inr (Or.inr ⟨k, _, .providerAttempt, (Option.some.inj hstep).symm⟩))
  | noteAttempts k attempts =>
      exact Or.inr (Or.inr (Or.inr ⟨k, _, .noteAttempts attempts rfl,
        (Option.some.inj hstep).symm⟩))

end Velune.Engine
