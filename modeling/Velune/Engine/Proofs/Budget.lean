/-
The budget holds at every moment of every interleaving, and what comes
out of a call fits it.

The result bound is the delicate one: the allowance is read, the text
cut and the size settled in one stretch, so no other call comes between
(`BudgetMove.accounted`), and what is cut never encodes to more than the
allowance it was cut to (`clipBytes_spec`).
-/
import Velune.Engine.Proofs.Slots

namespace Velune.Engine

open Lib

variable {h : Host} {a : Action} {s s' : Sys} {i k : Nat} {c c' : Call} {sh : Shared}
  {ts : List ToolTask}

-- ===== clipping

theorem clipBytes_spec (text : PyStr) (limit : Nat) :
    (clipBytes text limit).1 <+: text
      ∧ (Utf8.encode (clipBytes text limit).1).length ≤ limit := by
  unfold clipBytes
  split_ifs with hfits
  · exact ⟨List.prefix_refl _, hfits⟩
  · rw [Utf8.decodeIgnore_take_encode]
    exact ⟨Utf8.clip_initial _ _, Utf8.encode_clip_le _ _⟩

theorem raw_initial {s t : PyStr} (h : s <+: t) : PyStr.raw s <+: PyStr.raw t := by
  obtain ⟨rest, rfl⟩ := h
  exact ⟨PyStr.raw rest, by simp [PyStr.raw]⟩

-- ===== bounds

/-- The bounds of a ledger on its tool calls and its model calls. -/
structure BudgetLedger.Within (l : BudgetLedger) : Prop where
  calls : l.calls ≤ l.budget.maxToolCalls
  argumentBytes : l.argumentBytes ≤ l.budget.maxArgumentBytes
  resultBytes : l.resultBytes ≤ l.budget.maxResultBytes
  inFlight : l.inFlight ≤ l.budget.maxConcurrent
  modelCalls : l.modelCalls ≤ l.budget.maxModelCalls

/-- The limits are the same, and no counter but the slots in flight is
smaller. -/
structure BudgetLedger.Grows (l l' : BudgetLedger) : Prop where
  budget : l'.budget = l.budget
  calls : l.calls ≤ l'.calls
  argumentBytes : l.argumentBytes ≤ l'.argumentBytes
  resultBytes : l.resultBytes ≤ l'.resultBytes
  modelCalls : l.modelCalls ≤ l'.modelCalls
  providerAttempts : l.providerAttempts ≤ l'.providerAttempts

namespace BudgetLedger

variable {l l' l'' : BudgetLedger} {r n bytes now : Nat}

theorem Grows.refl (l : BudgetLedger) : l.Grows l :=
  ⟨rfl, Nat.le_refl _, Nat.le_refl _, Nat.le_refl _, Nat.le_refl _, Nat.le_refl _⟩

theorem Grows.trans (h : l.Grows l') (h' : l'.Grows l'') : l.Grows l'' :=
  ⟨h'.budget.trans h.budget, Nat.le_trans h.calls h'.calls,
    Nat.le_trans h.argumentBytes h'.argumentBytes, Nat.le_trans h.resultBytes h'.resultBytes,
    Nat.le_trans h.modelCalls h'.modelCalls,
    Nat.le_trans h.providerAttempts h'.providerAttempts⟩

theorem problem_none (hp : l.problem bytes now = none) :
    l.calls + 1 ≤ l.budget.maxToolCalls
      ∧ l.argumentBytes + bytes ≤ l.budget.maxArgumentBytes
      ∧ l.inFlight < l.budget.maxConcurrent := by
  unfold problem at hp
  split_ifs at hp with hdeadline hcalls hbytes hresult hflight
  omega

theorem Within.started (hl : l.Within) (hroom : l.problem bytes now = none) :
    (l.started bytes).Within ∧ l.Grows (l.started bytes) := by
  obtain ⟨hcalls, hbytes, hflight⟩ := problem_none hroom
  exact ⟨⟨hcalls, hbytes, hl.resultBytes, hflight, hl.modelCalls⟩,
    ⟨rfl, Nat.le_succ _, Nat.le_add_right _ _, Nat.le_refl _, Nat.le_refl _, Nat.le_refl _⟩⟩

theorem Within.settle (hl : l.Within) (r : Nat) (hn : n ≤ l.resultAllowance) :
    (l.settle r n).Within ∧ l.Grows (l.settle r n) := by
  rcases settle_cases l r n with ⟨heq, -⟩ | ⟨-, heq⟩
  · rw [heq]
    exact ⟨hl, .refl l⟩
  · have hresult := hl.resultBytes
    have hflight := hl.inFlight
    unfold resultAllowance at hn
    rw [heq]
    refine ⟨⟨hl.calls, hl.argumentBytes, ?_, ?_, hl.modelCalls⟩,
      ⟨rfl, Nat.le_refl _, Nat.le_refl _, Nat.le_add_right _ _, Nat.le_refl _, Nat.le_refl _⟩⟩
    · show l.resultBytes + n ≤ l.budget.maxResultBytes
      omega
    · show l.inFlight - 1 ≤ l.budget.maxConcurrent
      omega

theorem Within.release (hl : l.Within) (r : Nat) :
    (l.release r).Within ∧ l.Grows (l.release r) := hl.settle r (Nat.zero_le _)

theorem Within.modelCall (hl : l.Within) (now : Nat) :
    (l.reserveModelCall now).2.Within ∧ l.Grows (l.reserveModelCall now).2 := by
  unfold reserveModelCall
  split_ifs with hdeadline hcalls hattempts
  · exact ⟨hl, .refl l⟩
  · exact ⟨hl, .refl l⟩
  · exact ⟨hl, .refl l⟩
  · exact ⟨⟨hl.calls, hl.argumentBytes, hl.resultBytes, hl.inFlight, Nat.le_of_not_lt hcalls⟩,
      ⟨rfl, Nat.le_refl _, Nat.le_refl _, Nat.le_refl _, Nat.le_succ _, Nat.le_refl _⟩⟩

theorem Within.providerAttempt (hl : l.Within) :
    l.reserveProviderAttempt.2.Within ∧ l.Grows l.reserveProviderAttempt.2 := by
  unfold reserveProviderAttempt
  split_ifs
  · exact ⟨hl, .refl l⟩
  · exact ⟨⟨hl.calls, hl.argumentBytes, hl.resultBytes, hl.inFlight, hl.modelCalls⟩,
      ⟨rfl, Nat.le_refl _, Nat.le_refl _, Nat.le_refl _, Nat.le_refl _, Nat.le_succ _⟩⟩

theorem Within.noteAttempts (hl : l.Within) (attempts : Int) :
    (l.noteProviderAttempts attempts).Within ∧ l.Grows (l.noteProviderAttempts attempts) :=
  ⟨⟨hl.calls, hl.argumentBytes, hl.resultBytes, hl.inFlight, hl.modelCalls⟩,
    ⟨rfl, Nat.le_refl _, Nat.le_refl _, Nat.le_refl _, Nat.le_refl _, Nat.le_add_right _ _⟩⟩

end BudgetLedger

theorem BudgetMove.within {rc : RunControl ToolExecutionResult} {l : BudgetLedger}
    {background : List (Nat × Nat)} (hm : BudgetMove h a s i c c' rc l background)
    (hl : rc.budget.Within) :
    l.Within ∧ rc.budget.Grows l ∧ l.providerAttempts = rc.budget.providerAttempts := by
  have hsettle : ∀ (l : BudgetLedger) (r n : Nat),
      (l.settle r n).providerAttempts = l.providerAttempts := by
    intro l r n
    rcases BudgetLedger.settle_cases l r n with ⟨heq, -⟩ | ⟨-, heq⟩
    · rw [heq]
    · rw [heq]
      rfl
  cases hm with
  | same | tracked => exact ⟨hl, .refl _, rfl⟩
  | reserved bytes now hnone hroom hheld =>
      exact ⟨(hl.started hroom).1, (hl.started hroom).2, rfl⟩
  | leaked env f request bytes ha hs hbytes haccept hcancel hroom =>
      exact ⟨(hl.started hroom).1, (hl.started hroom).2, rfl⟩
  | released r hheld => exact ⟨(hl.release r).1, (hl.release r).2, hsettle _ _ _⟩
  | accounted r text hheld =>
      have hfit := (clipBytes_spec text rc.budget.resultAllowance).2
      obtain ⟨hw, hg⟩ := hl.settle r hfit
      obtain ⟨hw', hg'⟩ := hw.release r
      exact ⟨hw', hg.trans hg', (hsettle _ _ _).trans (hsettle _ _ _)⟩

theorem Aside.within {rc : RunControl ToolExecutionResult} (ha : Aside a s k rc)
    (hl : (s.controls k).budget.Within) :
    rc.budget.Within ∧ (s.controls k).budget.Grows rc.budget := by
  cases ha with
  | callbacks => exact hl.release _
  | token => exact ⟨hl, .refl _⟩
  | modelCall now => exact hl.modelCall now
  | providerAttempt => exact hl.providerAttempt
  | noteAttempts attempts => exact hl.noteAttempts attempts

/-- Provider attempts that are only reserved stay under their limit. -/
theorem Aside.attempts {rc : RunControl ToolExecutionResult} (ha : Aside a s k rc)
    (hreserved : ∀ attempts, a ≠ .noteAttempts k attempts)
    (hl : (s.controls k).budget.providerAttempts
      ≤ (s.controls k).budget.budget.maxProviderAttempts) :
    rc.budget.providerAttempts ≤ rc.budget.budget.maxProviderAttempts := by
  cases ha with
  | callbacks =>
      dsimp only [RunControl.finishBackground, BudgetLedger.release]
      rcases BudgetLedger.settle_cases (s.controls k).budget ‹_› 0 with ⟨heq, -⟩ | ⟨-, heq⟩ <;>
        rw [heq] <;> exact hl
  | token => exact hl
  | modelCall now =>
      dsimp only [BudgetLedger.reserveModelCall]
      split_ifs <;> exact hl
  | providerAttempt =>
      dsimp only [BudgetLedger.reserveProviderAttempt]
      split_ifs with hfull
      · exact hl
      · exact Nat.lt_of_not_le hfull
  | noteAttempts attempts ha => exact absurd ha (hreserved attempts)

/-- Every step moves the budget of a run within its bounds, upwards, and
moves its provider attempts only by an aside. -/
theorem step_budget (hw : ∀ k, (s.controls k).budget.Within) (hbase : s.Base)
    (hstep : Engine.step h a s = some s') (k : Nat) :
    (s'.controls k).budget.Within ∧ (s.controls k).budget.Grows (s'.controls k).budget
      ∧ ((s'.controls k).budget.providerAttempts = (s.controls k).budget.providerAttempts
        ∨ Aside a s k (s'.controls k)) := by
  have hsame : ∀ {s' : Sys}, s'.controls k = s.controls k →
      (s'.controls k).budget.Within ∧ (s.controls k).budget.Grows (s'.controls k).budget
        ∧ ((s'.controls k).budget.providerAttempts = (s.controls k).budget.providerAttempts
          ∨ Aside a s k (s'.controls k)) := by
    intro s' heq
    rw [heq]
    exact ⟨hw k, .refl _, Or.inl rfl⟩
  rcases step_cases hbase.coherent hstep with ⟨executor, control, args, rfl⟩
    | ⟨i, c, c', sh, ts, hc, hm, rfl⟩ | ⟨t, task, task', -, -, -, rfl⟩ | ⟨k', rc, ha, rfl⟩
  · exact hsame rfl
  · obtain ⟨-, hctl, -⟩ := hm.fixed
    cases hk : c.control with
    | none => exact hsame (by rw [after_controls_none (hctl.trans hk)])
    | some k₀ =>
        obtain ⟨rc, hrc, -, hmove⟩ := hm.budget hk (hbase.coherent i c hc)
        by_cases hkk : k = k₀
        · subst hkk
          obtain ⟨hw', hg, hattempts⟩ := hmove.within (hw k)
          rw [after_controls (hctl.trans hk) hrc, if_pos rfl]
          exact ⟨hw', hg, Or.inl hattempts⟩
        · exact hsame (by rw [after_controls (hctl.trans hk) hrc, if_neg hkk])
  · exact hsame rfl
  · by_cases hkk : k = k'
    · subst hkk
      have hrc : ({ s with controls := Function.update s.controls k rc } : Sys).controls k = rc :=
        Function.update_self ..
      rw [hrc]
      exact ⟨(ha.within (hw k)).1, (ha.within (hw k)).2, Or.inr ha⟩
    · exact hsame (Function.update_of_ne hkk _ _)

-- ===== output

/-- An output that belongs to request id `q` of run `k`: it encodes, to
no more than one result may carry, and is empty or a prefix of what a
task of the id returned, sanitized and bounded. -/
def Sys.Output (h : Host) (s : Sys) (k : Nat) (q : PyStr) (out : RawStr) : Prop :=
  (∃ text, out = PyStr.raw text
    ∧ (Utf8.encode text).length ≤ (s.controls k).budget.budget.maxSingleResultBytes)
  ∧ (out = [] ∨ ∃ (t : Nat) (task : ToolTask) (raw : RawStr), s.tasks[t]? = some task
    ∧ task.scope = some (k, q) ∧ task.ending = some (.returned raw)
    ∧ out <+: boundText (sanitize h raw))

structure Sys.Outputs (h : Host) (s : Sys) : Prop where
  returned : ∀ (i k : Nat) (c : Call) (r : ToolExecutionResult), s.calls[i]? = some c →
    c.control = some k → c.state = .returned r → s.Output h k c.args.key r.output
  recorded : ∀ (k : Nat) (q : PyStr) (e : Entry ToolExecutionResult) (r : ToolExecutionResult),
    s.entry k q = some e → e.result = some r → s.Output h k q r.output

theorem Sys.Output.empty {q : PyStr} : s.Output h k q [] :=
  ⟨⟨[], rfl, Nat.zero_le _⟩, Or.inl rfl⟩

/-- Outputs stay outputs: limits do not change, nor does a task that
ended. -/
theorem Sys.Output.mono {q : PyStr} {out : RawStr} (ho : s.Output h k q out)
    (hbudget : (s'.controls k).budget.budget = (s.controls k).budget.budget)
    (htasks : ∀ (t : Nat) (task : ToolTask), s.tasks[t]? = some task →
      task.ending.isSome = true → s'.tasks[t]? = some task) : s'.Output h k q out := by
  obtain ⟨⟨text, htext, hlen⟩, hfrom⟩ := ho
  refine ⟨⟨text, htext, by rw [hbudget]; exact hlen⟩, ?_⟩
  rcases hfrom with hnil | ⟨t, task, raw, ht, hsc, hending, hinitial⟩
  · exact Or.inl hnil
  · exact Or.inr ⟨t, task, raw, htasks t task ht (by rw [hending]; rfl), hsc, hending, hinitial⟩

theorem Again.output {call : ValidatedToolCall} {key : PyStr} {e : Entry ToolExecutionResult}
    {r : ToolExecutionResult} (hr : Again call key e r) :
    r.output = [] ∨ ∃ r', e.result = some r' ∧ r.output = r'.output := by
  cases hr with
  | conflict | pending | unrecorded => exact Or.inl rfl
  | recorded r' hsettled hr => exact Or.inr ⟨r', hr, rfl⟩

/-- What a move of a controlled call returns is an output of its id. -/
theorem Move.output (hm : Move h a s i c c' sh ts) (ho : s.Outputs h) (hbase : s.Base)
    (hc : s.calls[i]? = some c) (hk : c.control = some k) {r : ToolExecutionResult}
    (hr : c'.state = .returned r) : s.Output h k c.args.key r.output := by
  have hshared : (s.shared c).control = some (s.controls k) := by simp [Sys.shared, hk]
  have hnil : ∀ {r' : ToolExecutionResult}, CallState.returned r' = .returned r →
      r'.output = [] → s.Output h k c.args.key r.output := by
    intro r' heq hout
    cases heq
    rw [hout]
    exact .empty
  cases hm with
  | early hs hearly =>
      cases hr
      cases hearly with
      | refused | broken | early | unminted => exact .empty
      | again rc entry r hrc hentry hdup =>
          rw [hshared] at hrc
          cases hrc
          rcases (duplicate_again hentry hdup).output with hout | ⟨r', hr', hout⟩
          · rw [hout]
            exact .empty
          · rw [hout]
            exact ho.recorded k _ entry r' hentry hr'
  | claimCancelled | refused | cancelledBefore | leaked | brokenDirect => exact hnil hr rfl
  | asked | begun | begunDirect | unasked | unawaited => cases hr
  | abandoned hs htask hending hrc hexec hout => exact hnil hr hout
  | finished hs htask hending hrc hfin =>
      rw [hshared] at hrc
      cases hrc
      cases hfin with
      | recorded state r' hstate hexec hout => exact hnil hr hout
      | broken | denied => exact hnil hr rfl
      | completed raw text r' hraw hclean hexec hplain hout =>
          cases hr
          obtain ⟨hinitial, hfit⟩ := clipBytes_spec text (s.controls k).budget.resultAllowance
          obtain ⟨task', ht', howner⟩ := hbase.awaited i c _ hc ⟨_, Or.inl ⟨_, hs⟩⟩
          rw [htask] at ht'
          cases ht'
          obtain ⟨d, hd, -, hscope⟩ := hbase.owned _ _ htask
          rw [howner, hc] at hd
          cases hd
          rw [hk] at hscope
          rw [Option.getD_some, hout]
          refine ⟨⟨_, rfl, Nat.le_trans hfit (Nat.min_le_left _ _)⟩,
            Or.inr ⟨_, _, raw, htask, hscope, hraw ▸ hending, ?_⟩⟩
          rw [RawStr.clean?_eq_some hclean]
          exact raw_initial hinitial
  | doneDirect hs =>
      have hcoh := hbase.coherent i c hc
      rw [Call.Coherent, hs] at hcoh
      rw [hcoh.2.2.1] at hk
      cases hk

/-- A record after a move was there, or was just returned, or has no
output. -/
theorem StoreMove.records {d d' : Dict PyStr (Entry ToolExecutionResult)} {q : PyStr}
    {e : Entry ToolExecutionResult} {r : ToolExecutionResult}
    (hmove : StoreMove d s i c c' ts d') (he : d' q = some e) (hr : e.result = some r) :
    d q = some e ∨ (q = c.args.key ∧ (c'.state = .returned r ∨ r.output = [])) := by
  by_cases hq : q = c.args.key
  · subst hq
    cases hmove with
    | quiet | begun => exact Or.inl he
    | claimed =>
        rw [Dict.insert_self] at he
        cases he
        cases hr
    | stillborn r' hs hnew hs' =>
        rw [Dict.insert_self] at he
        cases he
        cases hr
        exact Or.inr ⟨rfl, Or.inl hs'⟩
    | settled e' state result hlive he' hpending hstate hover hrec hret hsame =>
        rw [Dict.insert_self] at he
        cases he
        exact Or.inr ⟨rfl, hsame r hr⟩
    | released =>
        rw [Dict.erase_self] at he
        cases he
  · rw [hmove.other hq] at he
    exact Or.inl he

theorem Sys.Outputs.step (ho : s.Outputs h) (hw : ∀ k, (s.controls k).budget.Within)
    (hcl : ∀ k q, s.Claim k q) (hbase : s.Base)
    (hstep : Engine.step h a s = some s') : s'.Outputs h := by
  have hbudget : ∀ k, (s'.controls k).budget.budget = (s.controls k).budget.budget := fun k =>
    (step_budget hw hbase hstep k).2.1.budget
  rcases step_cases hbase.coherent hstep with ⟨executor, control, args, rfl⟩
    | ⟨i, c, c', sh, ts, hc, hm, rfl⟩ | ⟨t, task, task', ht, hrun, hm, rfl⟩
    | ⟨k', rc, ha, rfl⟩
  · refine ⟨fun j k d r hd hk hr => ?_, ho.recorded⟩
    rcases concat_calls hd with ⟨-, rfl⟩ | hd
    · cases hr
    · exact ho.returned j k d r hd hk hr
  · obtain ⟨-, hctl, hargs⟩ := hm.fixed
    have hmono : ∀ {k : Nat} {q : PyStr} {out : RawStr}, s.Output h k q out →
        (s.after i c' sh ts).Output h k q out := fun hout =>
      hout.mono (hbudget _) fun t task ht _ => after_tasks_old ht
    have hreturned : ∀ (j k : Nat) (d : Call) (r : ToolExecutionResult),
        (s.after i c' sh ts).calls[j]? = some d → d.control = some k →
        d.state = .returned r → s.Output h k d.args.key r.output := by
      intro j k d r hd hk hr
      rcases after_calls hd with ⟨-, rfl⟩ | ⟨-, hd⟩
      · rw [hargs]
        exact hm.output ho hbase hc (hctl ▸ hk) hr
      · exact ho.returned j k d r hd hk hr
    refine ⟨fun j k d r hd hk hr => hmono (hreturned j k d r hd hk hr), ?_⟩
    intro k q e r he hr
    unfold Sys.entry at he
    cases hk : c.control with
    | none =>
        rw [after_controls_none (hctl.trans hk)] at he
        exact hmono (ho.recorded k q e r he hr)
    | some k₀ =>
        obtain ⟨rc, hrc, hmove⟩ := hm.store (hbase.coherent i c hc) hk fun hlive =>
          (hcl k₀ c.args.key).holder i c hc ⟨hlive, hk, rfl⟩
        rw [after_controls (hctl.trans hk) hrc] at he
        split_ifs at he with hkk
        · subst hkk
          rcases hmove.records he hr with he | ⟨rfl, hs | hout⟩
          · exact hmono (ho.recorded k q e r he hr)
          · have hown := hreturned i k c' r (after_self hc) (hctl.trans hk) hs
            rw [hargs] at hown
            exact hmono hown
          · rw [hout]
            exact .empty
        · exact hmono (ho.recorded k q e r he hr)
  · have hmono : ∀ {k : Nat} {q : PyStr} {out : RawStr}, s.Output h k q out →
        ({ s with tasks := s.tasks.set t task' } : Sys).Output h k q out := by
      intro k q out hout
      refine hout.mono rfl fun u task₁ hu hended => ?_
      have hut : u ≠ t := by
        rintro rfl
        rw [ht] at hu
        cases hu
        rw [hrun] at hended
        cases hended
      show (s.tasks.set t task')[u]? = _
      rw [List.getElem?_set, if_neg (fun htu => hut htu.symm), hu]
    exact ⟨fun j k d r hd hk hr => hmono (ho.returned j k d r hd hk hr),
      fun k q e r he hr => hmono (ho.recorded k q e r he hr)⟩
  · have hmono : ∀ {k : Nat} {q : PyStr} {out : RawStr}, s.Output h k q out →
        ({ s with controls := Function.update s.controls k' rc } : Sys).Output h k q out :=
      fun hout => hout.mono (hbudget _) fun t task ht _ => ht
    refine ⟨fun j k d r hd hk hr => hmono (ho.returned j k d r hd hk hr), ?_⟩
    intro k q e r he hr
    have hentry : s.entry k q = some e := by
      have he : (Function.update s.controls k' rc k).store.entries q = some e := he
      rw [Function.update_apply] at he
      split_ifs at he with hkk
      · rw [ha.store, ← hkk] at he
        exact he
      · exact he
    exact hmono (ho.recorded k q e r hentry hr)

-- ===== refusals

/-- A stretch of call `i` from before its tool starts. -/
inductive BeforeTool (i : Nat) : Action → Prop
  | start (env : StartEnv) : BeforeTool i (.start i env)
  | decide (env : DecideEnv) : BeforeTool i (.decide i env)
  | cancelApproval : BeforeTool i (.cancelApproval i)

/-- A call that has not started its tool: it waits for the port, was
cancelled, or returned a refusal or a result that says so. -/
def Call.Unstarted (c : Call) : Prop :=
  c.Asking ∨ c.state = .raised
    ∨ ∃ r, c.state = .returned r ∧ (r.status = .refused ∨ r.executed = false)

/-- Such a stretch is a move of that call, which reserves nothing yet. -/
theorem BeforeTool.move (hb : BeforeTool i a) (hstep : Engine.step h a s = some s') :
    ∃ c c' sh ts, s.calls[i]? = some c ∧ (∀ r, ¬ c.Reserves r) ∧ Move h a s i c c' sh ts
      ∧ s' = s.after i c' sh ts := by
  have hput : ∀ {c c' : Call} {sh : Shared}, s.calls[i]? = some c → (∀ r, ¬ c.Reserves r) →
      Move h a s i c c' sh [] → s' = s.put i c' sh →
      ∃ c c' sh ts, s.calls[i]? = some c ∧ (∀ r, ¬ c.Reserves r) ∧ Move h a s i c c' sh ts
        ∧ s' = s.after i c' sh ts := by
    intro c c' sh hc hnone hm heq
    refine ⟨c, c', sh, [], hc, hnone, hm, ?_⟩
    rw [heq, Sys.after, List.append_nil]
    rfl
  have hcall : ∀ {f : Call → Sys → Option Sys}, stepCall i f s = some s' →
      ∃ c, s.calls[i]? = some c ∧ f c s = some s' := by
    intro f hf
    unfold stepCall at hf
    split at hf
    next => cases hf
    next c hc => exact ⟨c, hc, hf⟩
  cases hb with
  | start env =>
      obtain ⟨c, hc, hf⟩ := hcall hstep
      obtain ⟨c', sh, hm, heq⟩ := stepStart_move hf
      refine hput hc (fun r => ?_) hm heq
      rintro ⟨f, t, hs⟩
      rw [stepStart, hs] at hf
      cases hf
  | decide env =>
      obtain ⟨c, hc, hf⟩ := hcall hstep
      obtain ⟨c', sh, ts, hm, heq⟩ := stepDecide_move rfl hf
      refine ⟨c, c', sh, ts, hc, fun r => ?_, hm, heq⟩
      rintro ⟨f, t, hs⟩
      rw [stepDecide, hs] at hf
      cases hf
  | cancelApproval =>
      obtain ⟨c, hc, hf⟩ := hcall hstep
      obtain ⟨c', sh, hm, heq⟩ := stepCancelApproval_move hf
      refine hput hc (fun r => ?_) hm heq
      rintro ⟨f, t, hs⟩
      rw [stepCancelApproval, hs] at hf
      cases hf

/-- A call that is refused before it starts changes no counter, in any
stretch of it. -/
theorem BeforeTool.free (hb : BeforeTool i a) (hbase : s.Base)
    (hstep : Engine.step h a s = some s') {c' : Call} (hc' : s'.calls[i]? = some c')
    (hrefused : c'.Unstarted) (k : Nat) : (s'.controls k).budget = (s.controls k).budget := by
  obtain ⟨c, d, sh, ts, hc, hnone, hm, rfl⟩ := hb.move hstep
  rw [after_self hc] at hc'
  cases hc'
  obtain ⟨-, hctl, -⟩ := hm.fixed
  cases hk : c.control with
  | none => rw [after_controls_none (hctl.trans hk)]
  | some k₀ =>
      obtain ⟨rc, hrc, -, hmove⟩ := hm.budget hk (hbase.coherent i c hc)
      rw [after_controls (hctl.trans hk) hrc]
      split_ifs with hkk
      · subst hkk
        generalize rc.budget = budget at hmove
        generalize rc.background = background at hmove
        cases hmove with
        | same => rfl
        | reserved bytes now hnone hroom hheld =>
            obtain ⟨f, t, hs⟩ := (hheld _).2 rfl
            rcases hrefused with ⟨g, request, hst⟩ | hst | ⟨r, hst, -⟩ <;> rw [hs] at hst <;>
              cases hst
        | leaked env f request bytes ha hs hbytes haccept hcancel hroom hctx hnone' hs' =>
            obtain ⟨r, hs', hstatus, hexec⟩ := hs'
            rcases hrefused with ⟨g, request, hst⟩ | hst | ⟨r', hst, hr'⟩ <;> rw [hs'] at hst <;>
              cases hst
            rw [hstatus, hexec] at hr'
            rcases hr' with hr' | hr' <;> cases hr'
        | tracked t r hheld | released r hheld | accounted r text hheld =>
            exact absurd ((hheld r).2 rfl) (hnone r)
      · rfl

-- ===== runs

/-- The budget holds at every moment: the bounds; the bound on provider
attempts of a run that only reserves them; no counter but the slots in
flight ever falls; every output returned fits and is a prefix of the
bounded text; and a call refused before it starts costs nothing. -/
theorem budget_bounded {s₀ : Sys} {as : List Action} (hfresh : s₀.Fresh)
    (hrun : run (Engine.step h) as s₀ = some s) :
    (∀ k, (s.controls k).budget.Within)
      ∧ (∀ k, (∀ a ∈ as, ∀ attempts, a ≠ .noteAttempts k attempts) →
          (s.controls k).budget.providerAttempts
            ≤ (s.controls k).budget.budget.maxProviderAttempts)
      ∧ (∀ bs s', run (Engine.step h) bs s = some s' →
          ∀ k, (s.controls k).budget.Grows (s'.controls k).budget)
      ∧ (∀ (i k : Nat) (c : Call) (r : ToolExecutionResult), s.calls[i]? = some c →
          c.control = some k → c.state = .returned r → s.Output h k c.args.key r.output)
      ∧ (∀ (i : Nat) (a : Action) (s' : Sys) (c' : Call), BeforeTool i a →
          Engine.step h a s = some s' → s'.calls[i]? = some c' → c'.Unstarted →
          ∀ k, (s'.controls k).budget = (s.controls k).budget) := by
  have hinv : ∀ a s s', (s.Base ∧ (∀ k q, s.Claim k q)
        ∧ (∀ k, (s.controls k).budget.Within) ∧ s.Outputs h) →
      Engine.step h a s = some s' → s'.Base ∧ (∀ k q, s'.Claim k q)
        ∧ (∀ k, (s'.controls k).budget.Within) ∧ s'.Outputs h :=
    fun _ _ _ ⟨hb, hcl, hw, ho⟩ hstep =>
      ⟨hb.step hstep, fun k q => Sys.Claim.step hcl hb hstep k q,
        fun k => (step_budget hw hb hstep k).1, ho.step hw hcl hb hstep⟩
  have hstart : s₀.Base ∧ (∀ k q, s₀.Claim k q) ∧ (∀ k, (s₀.controls k).budget.Within)
      ∧ s₀.Outputs h := by
    refine ⟨hfresh.base, hfresh.claim, fun k => ?_, ?_, ?_⟩
    · obtain ⟨runId, budget, now, hk⟩ := hfresh.controls k
      rw [hk]
      exact ⟨Nat.zero_le _, Nat.zero_le _, Nat.zero_le _, Nat.zero_le _, Nat.zero_le _⟩
    · intro i k c r hc
      simp [hfresh.calls] at hc
    · intro k q e r he
      obtain ⟨runId, budget, now, hk⟩ := hfresh.controls k
      unfold Sys.entry at he
      rw [hk] at he
      cases he
  obtain ⟨hbase, hcl, hw, ho⟩ := run_preserves (P := fun s : Sys => s.Base
    ∧ (∀ k q, s.Claim k q) ∧ (∀ k, (s.controls k).budget.Within) ∧ s.Outputs h) hinv hstart hrun
  refine ⟨hw, fun k hreserved => ?_, fun bs s' hbs k => ?_, ho.returned, ?_⟩
  · refine (run_preserves_of (C := fun a _ => ∀ attempts, a ≠ .noteAttempts k attempts)
      (P := fun s : Sys => (s.Base ∧ ∀ k, (s.controls k).budget.Within)
        ∧ (s.controls k).budget.providerAttempts
          ≤ (s.controls k).budget.budget.maxProviderAttempts)
      (fun a s s' hres hp hstep => ?_)
      (meets_of_forall s₀ fun a ha _ => hreserved a ha) ⟨⟨hfresh.base, hstart.2.2.1⟩, ?_⟩
      hrun).2
    · have hb := fun k => step_budget hp.1.2 hp.1.1 hstep k
      refine ⟨⟨hp.1.1.step hstep, fun k => (hb k).1⟩, ?_⟩
      rcases (hb k).2.2 with heq | ha
      · rw [heq, (hb k).2.1.budget]
        exact hp.2
      · exact ha.attempts hres hp.2
    · obtain ⟨runId, budget, now, hk⟩ := hfresh.controls k
      rw [hk]
      exact Nat.zero_le _
  · exact run_relates (P := fun s : Sys => s.Base ∧ ∀ k, (s.controls k).budget.Within)
      (R := fun s s' => (s.controls k).budget.Grows (s'.controls k).budget)
      (fun s => .refl _) (fun s t u hst htu => hst.trans htu)
      (fun _ _ _ hp hstep => ⟨hp.1.step hstep, fun k => (step_budget hp.2 hp.1 hstep k).1⟩)
      (fun _ _ _ hp hstep => (step_budget hp.2 hp.1 hstep k).2.1) ⟨hbase, hw⟩ hbs
  · exact fun i a s' c' hb hstep hc' hrefused k => hb.free hbase hstep hc' hrefused k

/-- The books after a run that executes one call. -/
theorem budget_bounded_status :
    ∃ s, run (Engine.step statusHost) oneQuietStatus quietSys = some s
      ∧ (s.controls 0).budget.resultBytes = 5
      ∧ (∀ k, (s.controls k).budget.Within)
      ∧ (s.controls 0).budget.providerAttempts
          ≤ (s.controls 0).budget.budget.maxProviderAttempts
      ∧ (∀ (i k : Nat) (c : Call) (r : ToolExecutionResult), s.calls[i]? = some c →
          c.control = some k → c.state = .returned r →
          s.Output statusHost k c.args.key r.output) := by
  have hdone : (run (Engine.step statusHost) oneQuietStatus quietSys).map
      (fun s => (s.controls 0).budget.resultBytes) = some 5 := by
    decide +kernel
  obtain ⟨s, hs, hbytes⟩ := Option.map_eq_some_iff.1 hdone
  obtain ⟨hw, hattempts, -, ho, -⟩ := budget_bounded quietSys_fresh hs
  refine ⟨s, hs, hbytes, hw, hattempts 0 fun a ha attempts heq => ?_, ho⟩
  subst heq
  simp [oneQuietStatus, oneStatus, answerFirst] at ha

-- ===== the marker

/-- An output that fits the allowance is returned as it was bounded. -/
theorem woken_fits (f : Frame) (t r now : Nat) (p : Bool) {raw : RawStr} {text : PyStr}
    {rc : RunControl ToolExecutionResult} (hc : sh.control = some rc)
    (htext : boundText (sanitize h raw) = PyStr.raw text)
    (hfits : (Utf8.encode text).length ≤ rc.budget.resultAllowance) :
    ∃ res sh', woken h f t r (some (.returned raw)) p now sh = (.returned res, sh')
      ∧ res.output = boundText (sanitize h raw) := by
  have hclean : RawStr.clean? (boundText (sanitize h raw)) = some text := by
    rw [htext, RawStr.clean?_raw]
  unfold woken finish
  rw [hc]
  simp only [boundOutput, hclean, clipBytes, if_pos hfits]
  exact ⟨_, _, rfl, htext.symm⟩

def longOutput : RawStr := List.replicate (MAX_OUTPUT_CHARS + 1) (some 'a')

def longText : PyStr :=
  List.replicate (MAX_OUTPUT_CHARS - TRUNCATION_MARKER.length) 'a'
    ++ "\n[output truncated by the engine]".toList

theorem boundText_long : boundText (sanitize statusHost longOutput) = PyStr.raw longText := by
  show boundText longOutput = _
  have hlen : longOutput.length = MAX_OUTPUT_CHARS + 1 := List.length_replicate
  have htake : longOutput.take (MAX_OUTPUT_CHARS - TRUNCATION_MARKER.length)
      = List.replicate (MAX_OUTPUT_CHARS - TRUNCATION_MARKER.length) (some 'a') := by
    rw [longOutput, List.take_replicate]
    congr 1
  rw [boundText, if_neg (by omega), htake, longText, PyStr.raw, List.map_append,
    List.map_replicate]
  rfl

/-- Limits that let one result carry more than the engine passes on. -/
def wideBudget : ExecutionBudget :=
  { (quietSys.controls 0).budget.budget with
    maxSingleResultBytes := 100000, singleResult_ok := by decide, single_fits := by decide }

def wideSys : Sys where
  ledgers := quietSys.ledgers
  controls := fun _ => RunControl.create "run-1".toList wideBudget 0

theorem wideSys_fresh : wideSys.Fresh :=
  ⟨fun _ => rfl, fun _ => ⟨"run-1".toList, wideBudget, 0, rfl⟩, rfl, rfl⟩

def CallState.taskOf : CallState → Option Nat
  | .tool _ t _ => some t
  | .ready | .approval .. | .direct .. | .returned _ | .raised => none

theorem taskOf_eq_some {st : CallState} {t : Nat} (h : st.taskOf = some t) :
    ∃ f r, st = .tool f t r := by
  cases st with
  | tool f u r =>
      cases h
      exact ⟨f, r, rfl⟩
  | ready | approval | direct | returned | raised => cases h

/-- An output too long for the engine comes back with its marker, so it
is no prefix of what was sanitized. -/
theorem output_marked :
    ¬ ∀ (h : Host) (s₀ s : Sys) (as : List Action) (i k : Nat) (c : Call)
        (r : ToolExecutionResult), s₀.Fresh → run (Engine.step h) as s₀ = some s →
        s.calls[i]? = some c → c.control = some k → c.state = .returned r →
        r.output = [] ∨ ∃ (t : Nat) (task : ToolTask) (raw : RawStr), s.tasks[t]? = some task
          ∧ task.scope = some (k, c.args.key) ∧ task.ending = some (.returned raw)
          ∧ r.output <+: sanitize h raw := by
  intro hclaim
  -- up to the entered tool body the run is evaluated
  have hentered : ((run (Engine.step statusHost) (oneStatus.take 5) wideSys).bind fun s =>
      s.calls[0]?.bind fun c => s.tasks[0]?.map fun task =>
        (c.control, c.state.taskOf, task.ending, s.tasks.length,
          (s.controls 0).budget.resultAllowance)) = some (some 0, some 0, none, 1, 100000) := by
    decide +kernel
  obtain ⟨s, hs, hentered⟩ := Option.bind_eq_some_iff.1 hentered
  obtain ⟨c, hc, hentered⟩ := Option.bind_eq_some_iff.1 hentered
  obtain ⟨task, htask, hentered⟩ := Option.map_eq_some_iff.1 hentered
  simp only [Prod.mk.injEq] at hentered
  obtain ⟨hk, ht, hrunning, hlen, hallow⟩ := hentered
  obtain ⟨f, r₀, hstate⟩ := taskOf_eq_some ht
  -- then its tool returns the long output, and the call is woken
  let ended : ToolTask := { task with ending := some (.returned longOutput) }
  let s₁ : Sys := { s with tasks := s.tasks.set 0 ended }
  have hend : Engine.step statusHost (.endTask 0 (.returned longOutput)) s = some s₁ := by
    show stepTask 0 _ _ s = _
    unfold stepTask
    rw [htask]
    simp only [hrunning, Option.isNone_none, Bool.and_self, if_true, Sys.onTask, s₁]
    rw [List.modify_eq_set_getElem?, htask]
    rfl
  have hfits : (Utf8.encode longText).length
      ≤ (s₁.controls 0).budget.resultAllowance := by
    have hbytes := Utf8.encode_length_le longText
    have hchars : longText.length = MAX_OUTPUT_CHARS := by
      rw [longText, List.length_append, List.length_replicate]
      decide
    rw [show (s₁.controls 0).budget.resultAllowance = 100000 from hallow]
    rw [hchars] at hbytes
    exact Nat.le_trans hbytes (by decide)
  have hshared : (s₁.shared c).control = some (s₁.controls 0) := by simp [Sys.shared, hk]
  obtain ⟨res, sh, hwoken, hout⟩ := woken_fits f 0 r₀ 2 task.checkPassed
    hshared boundText_long hfits
  have htask₁ : s₁.tasks[0]? = some ended := by
    show (s.tasks.set 0 ended)[0]? = _
    rw [List.getElem?_set, if_pos rfl, if_pos (by omega)]
  have hwake : Engine.step statusHost (.wake 0 2) s₁
      = some (s₁.put 0 { c with state := .returned res } sh) := by
    show stepCall 0 _ s₁ = _
    unfold stepCall
    rw [show s₁.calls[0]? = some c from hc]
    show stepWake statusHost 0 2 c s₁ = _
    unfold stepWake
    rw [hstate]
    dsimp only
    rw [htask₁]
    simp only [ended, Option.isSome_some, true_or, if_true, hwoken]
  have htail : run (Engine.step statusHost) [.endTask 0 (.returned longOutput), .wake 0 2] s
      = some (s₁.put 0 { c with state := .returned res } sh) := by
    simp only [run, hend, hwake]
  have hrun := run_append hs htail
  have hlt : 0 < s₁.calls.length := (List.getElem?_eq_some_iff.1 hc).1
  have hcall : (s₁.put 0 { c with state := .returned res } sh).calls[0]?
      = some { c with state := .returned res } := by
    show (s₁.calls.set 0 _)[0]? = _
    rw [List.getElem?_set, if_pos rfl, if_pos hlt]
  rcases hclaim _ _ _ _ 0 0 _ res wideSys_fresh hrun hcall hk rfl with hnil
    | ⟨t, task', raw, ht', -, hending, hinitial⟩
  · rw [hout, boundText_long, longText] at hnil
    simp [PyStr.raw] at hnil
  · -- the only task returned the long output, in which there is no bracket
    have htasks : (s₁.put 0 { c with state := .returned res } sh).tasks = s.tasks.set 0 ended :=
      rfl
    rw [htasks] at ht'
    have ht0 : t = 0 := by
      have := (List.getElem?_eq_some_iff.1 ht').1
      rw [List.length_set] at this
      omega
    subst ht0
    rw [show (s.tasks.set 0 ended)[0]? = some ended from htask₁] at ht'
    cases ht'
    cases hending
    rw [hout, boundText_long] at hinitial
    have hmem : some ']' ∈ longOutput := by
      refine hinitial.subset (List.mem_map.2 ⟨']', ?_, rfl⟩)
      exact List.mem_append_right _ (by decide)
    have heq := List.eq_of_mem_replicate hmem
    cases heq

end Velune.Engine
