/-
What each segment of `execute` can do, once and in full: the claims
about interleavings split on these cases and never unfold a segment.

A segment's effect on its run control is at most one operation on the
store and one on the budget, always in the order of the source; the
cases name the operation and leave it applied. The `finally` clause is
resolved by `leave_*`: it never touches the budget, the background or
the token, and it changes the store only of a call whose claim is still
pending.
-/
import Velune.Engine.Execute

namespace Velune.Engine

open Lib

-- ===== store

namespace IdempotencyStore

variable {α : Type} {st : IdempotencyStore α} {key : PyStr} {e : Entry α}

theorem claim_none {tool digest : PyStr} (h : st.entries key = none) :
    st.claim key tool digest
      = (.new, { st with
          entries := st.entries.insert key { tool := tool, callDigest := digest } }) := by
  simp [claim, h]

theorem claim_some (tool digest : PyStr) (h : st.entries key = some e) :
    (st.claim key tool digest).2 = st ∧ (st.claim key tool digest).1 ≠ .new := by
  unfold claim
  rw [h]
  dsimp only
  split_ifs <;> exact ⟨rfl, fun h => by cases h⟩

theorem settle_some {state : InvocationState} {result : Option α}
    (h : st.entries key = some e) (hs : state ≠ .pending) :
    st.settle key state result
      = { st with
          entries := st.entries.insert key { e with state := state, result := result } } := by
  simp [settle, h, hs]

theorem release_pending (h : st.entries key = some e) (hs : e.state = .pending) :
    st.release key = { st with entries := st.entries.erase key } := by
  simp [release, h, hs]

theorem stateOf_some (h : st.entries key = some e) : st.stateOf key = some e.state := by
  simp [stateOf, h]

end IdempotencyStore

-- ===== leave

section Leave

variable {f : Frame} {sh : Shared} {c : RunControl ToolExecutionResult}

/-- Before the claim and before the minting, `finally` has nothing to
do. -/
theorem leave_unclaimed (hclaimed : f.claimed = false) (hid : f.invocationId = []) :
    f.leave sh = sh := by
  have hc : f.leaveControl = id := by
    funext c
    simp [Frame.leaveControl, hclaimed]
  simp [Frame.leave, hid, hc]

theorem leave_ledger :
    (f.leave sh).ledger
      = if f.invocationId = [] then sh.ledger else sh.ledger.discard f.invocationId := rfl

theorem leave_control (h : sh.control = some c) :
    (f.leave sh).control = some (f.leaveControl c) := by
  simp [Frame.leave, h]

/-- `finally` touches nothing of the control but its store. -/
theorem leaveControl_eq :
    f.leaveControl c = { c with store := (f.leaveControl c).store } := by
  unfold Frame.leaveControl
  split_ifs <;> rfl

@[simp] theorem leaveControl_budget : (f.leaveControl c).budget = c.budget := by
  rw [leaveControl_eq]

@[simp] theorem leaveControl_background : (f.leaveControl c).background = c.background := by
  rw [leaveControl_eq]

/-- `finally` leaves a settled claim alone. -/
theorem leaveControl_settled {e : Entry ToolExecutionResult}
    (h : c.store.entries f.key = some e) (hs : e.state ≠ .pending) : f.leaveControl c = c := by
  unfold Frame.leaveControl
  rw [IdempotencyStore.stateOf_some h, if_neg]
  rintro ⟨-, hp⟩
  exact hs (Option.some.inj hp)

/-- `finally` leaves an absent claim alone. -/
theorem leaveControl_absent (h : c.store.entries f.key = none) : f.leaveControl c = c := by
  unfold Frame.leaveControl IdempotencyStore.stateOf
  rw [h, if_neg]
  rintro ⟨-, hp⟩
  cases hp

theorem leaveControl_release {e : Entry ToolExecutionResult} (hclaimed : f.claimed = true)
    (h : c.store.entries f.key = some e) (hs : e.state = .pending)
    (hexec : f.executed = false) :
    f.leaveControl c
      = { c with store := { c.store with entries := c.store.entries.erase f.key } } := by
  unfold Frame.leaveControl
  rw [IdempotencyStore.stateOf_some h, hs, if_pos ⟨hclaimed, rfl⟩, if_neg (by simp [hexec]),
    IdempotencyStore.release_pending h hs]

/-- A pending claim of a call that may have started is settled as
unknown. -/
theorem leaveControl_unknown {e : Entry ToolExecutionResult} (hclaimed : f.claimed = true)
    (h : c.store.entries f.key = some e) (hs : e.state = .pending)
    (hexec : f.executed = true) :
    f.leaveControl c
      = { c with store := { c.store with
            entries := c.store.entries.insert f.key
              { e with state := .unknown, result := none } } } := by
  unfold Frame.leaveControl
  rw [IdempotencyStore.stateOf_some h, hs, if_pos ⟨hclaimed, rfl⟩, if_pos hexec,
    IdempotencyStore.settle_some h (by decide)]

end Leave

-- ===== start

def preStore : List ToolErrorCategory := [.malformed, .notAllowed, .unknownTool, .toolChanged]

/-- A result the first segment can return without changing anything. -/
inductive Early (args : Arguments) (sh : Shared) : ToolExecutionResult → Prop
  /-- One of the checks in front of the store refused. -/
  | refused (key : PyStr) (e : ToolErrorCategory) (he : e ∈ preStore) :
      Early args sh (refusal args.call [] key e)
  /-- The registry lookup raised. -/
  | broken : Early args sh (internalError args.call [] args.key false)
  /-- The request id is known. -/
  | again (c : RunControl ToolExecutionResult) (entry : Entry ToolExecutionResult)
      (r : ToolExecutionResult) (hc : sh.control = some c)
      (hentry : c.store.entries args.key = some entry)
      (hr : duplicate args.call args.key
        (c.store.claim args.key args.call.name args.call.callDigest).1 = some r) :
      Early args sh r
  /-- A new request id, and the budget would not let it start. -/
  | early (c : RunControl ToolExecutionResult) (e : BudgetRefusal) (hc : sh.control = some c)
      (hnew : c.store.entries args.key = none) :
      Early args sh (refusal args.call [] args.key (budgetCategory e))
  /-- No invocation could be minted. -/
  | unminted (hnew : ∀ c, sh.control = some c → c.store.entries args.key = none) :
      Early args sh (internalError args.call [] args.key false)

def claimedControl (args : Arguments) (c : RunControl ToolExecutionResult)
    (state : InvocationState) (result : Option ToolExecutionResult) :
    RunControl ToolExecutionResult :=
  { c with store := { c.store with
      entries := c.store.entries.insert args.key
        { tool := args.call.name, callDigest := args.call.callDigest
          state := state, result := result } } }

variable {c : RunControl ToolExecutionResult}

theorem leave_claimed {args : Arguments} {f : Frame} {sh : Shared} (hc : sh.control = some c)
    (hnew : c.store.entries args.key = none) (hkey : f.key = args.key)
    (hclaimed : f.claimed = true) (hexec : f.executed = false) (hid : f.invocationId = []) :
    f.leave { sh with control := some (claimedControl args c .pending none) } = sh := by
  have hentry : (claimedControl args c .pending none).store.entries f.key
      = some { tool := args.call.name, callDigest := args.call.callDigest } := by
    rw [hkey]
    exact Dict.insert_self _ _ _
  have hctl : f.leaveControl (claimedControl args c .pending none) = c := by
    rw [leaveControl_release hclaimed hentry rfl hexec, hkey]
    simp only [claimedControl, Dict.erase_insert, Dict.erase_of_none hnew]
  simp [Frame.leave, hid, hctl, ← hc]

/-- A fresh claim that finds the token set is settled as cancelled, and
`finally` leaves it so. -/
theorem exit_cancelledBefore {args : Arguments} {f : Frame} {sh : Shared}
    (hcall : f.call = args.call) (hkey : f.key = args.key) (hid : f.invocationId = []) :
    f.exit { sh with control := some (f.cancelledBefore (claimedControl args c .pending none)).2 }
        (f.cancelledBefore (claimedControl args c .pending none)).1
      = (.returned (cancelledResult args.call [] args.key),
        { sh with control := some (claimedControl args c .cancelled
            (some (cancelledResult args.call [] args.key))) }) := by
  have hset : f.cancelledBefore (claimedControl args c .pending none)
      = (cancelledResult args.call [] args.key,
        claimedControl args c .cancelled (some (cancelledResult args.call [] args.key))) := by
    unfold Frame.cancelledBefore
    dsimp only
    rw [hkey, hcall, hid, IdempotencyStore.settle_some (Dict.insert_self _ _ _) (by decide)]
    simp [claimedControl]
  have hentry : (claimedControl args c .cancelled
      (some (cancelledResult args.call [] args.key))).store.entries f.key
        = some { tool := args.call.name, callDigest := args.call.callDigest
                 state := .cancelled
                 result := some (cancelledResult args.call [] args.key) } := by
    rw [hkey]
    exact Dict.insert_self _ _ _
  rw [hset, Frame.exit, Frame.leave, if_pos hid]
  simp only [Option.map_some]
  rw [leaveControl_settled hentry (by simp)]

/-- A check of the call itself refuses with one of the early errors. -/
theorem precheck_preStore {h : Host} {call : ValidatedToolCall} {allowed : List PyStr}
    {e : ToolErrorCategory} (he : precheck h call allowed = some e) : e ∈ preStore := by
  unfold precheck at he
  split_ifs at he <;> cases he <;> decide

theorem toolProblem_changed {report : ToolReport} {call : ValidatedToolCall}
    {e : ToolErrorCategory} (he : toolProblem report call = some e) : e = .toolChanged := by
  unfold toolProblem at he
  split at he
  next => exact (Option.some.inj he).symm
  next =>
    split at he
    next => exact (Option.some.inj he).symm
    next =>
      split_ifs at he <;> exact (Option.some.inj he).symm

theorem duplicate_some (call : ValidatedToolCall) {key : PyStr} (tool digest : PyStr)
    {st : IdempotencyStore ToolExecutionResult} {entry : Entry ToolExecutionResult}
    (h : st.entries key = some entry) :
    ∃ r, duplicate call key (st.claim key tool digest).1 = some r := by
  obtain ⟨-, hnew⟩ := IdempotencyStore.claim_some tool digest h
  cases hcl : (st.claim key tool digest).1 with
  | new => exact absurd hcl hnew
  | pending => exact ⟨_, rfl⟩
  | conflict => exact ⟨_, rfl⟩
  | settled state result =>
      cases result with
      | none => exact ⟨_, rfl⟩
      | some r => exact ⟨_, rfl⟩

/-- The first segment: it returns with nothing changed, or finds a new
request id already cancelled, or waits for approval with its invocation
minted and (under a control) its request id claimed. -/
theorem start_cases (h : Host) (args : Arguments) (env : StartEnv) (mintedFor : Nat)
    (sh : Shared) :
    (∃ r, Early args sh r ∧ start h args env mintedFor sh = (.returned r, sh))
      ∨ (∃ c, sh.control = some c ∧ c.store.entries args.key = none ∧ c.cancelled = true
          ∧ start h args env mintedFor sh
              = (.returned (cancelledResult args.call [] args.key),
                { sh with control := some (claimedControl args c .cancelled
                    (some (cancelledResult args.call [] args.key))) }))
      ∨ (∃ request ledger control,
          sh.ledger.issue args.call.name args.call.callDigest env.newId env.approvalNow mintedFor
              = some (request, ledger)
          ∧ (sh.control = none ∧ control = none
            ∨ ∃ c, sh.control = some c ∧ c.store.entries args.key = none
                ∧ control = some (claimedControl args c .pending none))
          ∧ start h args env mintedFor sh
              = (.approval { call := args.call, key := args.key
                             invocationId := request.invocationId
                             claimed := sh.control.isSome } request,
                ⟨ledger, control⟩)) := by
  have hquiet : ∀ r, Frame.exit { call := args.call, key := args.key } sh r = (.returned r, sh) := by
    intro r
    rw [Frame.exit, leave_unclaimed rfl rfl]
  unfold start
  dsimp only
  split_ifs with hmal
  · exact Or.inl ⟨_, .refused [] _ (by decide), rfl⟩
  split
  next e he => exact Or.inl ⟨_, .refused _ e (precheck_preStore he), hquiet _⟩
  split
  next => exact Or.inl ⟨_, .broken, hquiet _⟩
  next => exact Or.inl ⟨_, .refused _ _ (by decide), hquiet _⟩
  split
  next e he =>
    exact Or.inl ⟨_, .refused _ e (toolProblem_changed he ▸ by decide), hquiet _⟩
  split
  next hc =>
    -- without a control the invocation is minted at once
    unfold askApproval
    dsimp only
    split
    next => exact Or.inl ⟨_, .unminted (fun c hc' => by simp [hc] at hc'), hquiet _⟩
    next request ledger hissue =>
      refine Or.inr (Or.inr ⟨request, ledger, none, hissue, Or.inl ⟨hc, rfl⟩, ?_⟩)
      simp [hc]
  next c hc =>
    cases hentry : c.store.entries args.key with
    | some entry =>
        obtain ⟨r, hr⟩ := duplicate_some args.call args.call.name args.call.callDigest
          hentry
        simp only [hr]
        exact Or.inl ⟨r, .again c entry r hc hentry hr, hquiet r⟩
    | none =>
        rw [IdempotencyStore.claim_none hentry]
        simp only [duplicate]
        split_ifs with hcancel
        · -- the token was set before anything happened
          refine Or.inr (Or.inl ⟨c, hc, hentry, hcancel, ?_⟩)
          exact exit_cancelledBefore rfl rfl rfl
        have hclaim : ∀ r, Frame.exit { call := args.call, key := args.key, claimed := true }
            { sh with control := some (claimedControl args c .pending none) } r
              = (.returned r, sh) := by
          intro r
          rw [Frame.exit, leave_claimed hc hentry rfl rfl rfl rfl]
        split
        next e he => exact Or.inl ⟨_, .early c e hc hentry, hclaim _⟩
        unfold askApproval
        dsimp only
        split
        next =>
          refine Or.inl ⟨_, .unminted fun c' hc' => ?_, hclaim _⟩
          rw [hc] at hc'
          exact Option.some.inj hc' ▸ hentry
        next request ledger hissue =>
          refine Or.inr (Or.inr ⟨request, ledger, _, hissue, Or.inr ⟨c, hc, hentry, rfl⟩, ?_⟩)
          simp [hc, claimedControl]

-- ===== decided

/-- The answer let the call through: the executor holds an accepted,
now spent, approval. -/
def Accepted (sh : Shared) (env : DecideEnv) (ledger : ApprovalLedger) : Prop :=
  sh.ledger.consume env.answer env.approvalNow = (none, ledger)

def Frame.begun (f : Frame) : Frame := { f with executed := true }

/-- The segment after the port's answer. In the first case nothing was
accepted, or the budget refused; in the last two the call has begun. -/
theorem decided_cases (f : Frame) (env : DecideEnv) (task : Nat) (sh : Shared) :
    (∃ e, decided f env task sh
        = f.exit ⟨(sh.ledger.consume env.answer env.approvalNow).2, sh.control⟩
            (refusal f.call f.invocationId f.key e))
      ∨ (∃ ledger c, Accepted sh env ledger ∧ sh.control = some c ∧ c.cancelled = true
          ∧ decided f env task sh
              = f.exit ⟨ledger, some (f.cancelledBefore c).2⟩ (f.cancelledBefore c).1)
      ∨ (∃ ledger c, Accepted sh env ledger ∧ sh.control = some c ∧ c.cancelled = false
          ∧ c.budget.problem f.call.argumentBytes env.budgetNow = none
          ∧ (contextBuilds env.permissions = true
              ∧ decided f env task sh
                  = (.tool f.begun task c.budget.reservations.length,
                    ⟨ledger, some { c with budget := c.budget.started f.call.argumentBytes }⟩)
            ∨ contextBuilds env.permissions = false
              ∧ decided f env task sh
                  = f.begun.exit
                      ⟨ledger, some { c with budget := c.budget.started f.call.argumentBytes }⟩
                      (internalError f.call f.invocationId f.key true)))
      ∨ (∃ ledger, Accepted sh env ledger ∧ sh.control = none
          ∧ (decided f env task sh = (.direct f.begun task, ⟨ledger, none⟩)
            ∨ decided f env task sh
                = f.begun.exit ⟨ledger, none⟩
                    (internalError f.call f.invocationId f.key true))) := by
  unfold decided
  cases hconsume : sh.ledger.consume env.answer env.approvalNow with
  | mk failure ledger =>
      cases failure with
      | some e => exact Or.inl ⟨_, rfl⟩
      | none =>
          cases hc : sh.control with
          | none =>
              refine Or.inr (Or.inr (Or.inr ⟨ledger, hconsume, rfl, ?_⟩))
              dsimp only
              split_ifs
              · exact Or.inl rfl
              · exact Or.inr rfl
          | some c =>
              cases hcancel : c.cancelled with
              | true => exact Or.inr (Or.inl ⟨ledger, c, hconsume, rfl, hcancel, by simp [hcancel]⟩)
              | false =>
                  cases hp : c.budget.problem f.call.argumentBytes env.budgetNow with
                  | some e =>
                      exact Or.inl ⟨budgetCategory e, by simp [hcancel, BudgetLedger.reserve, hp]⟩
                  | none =>
                      refine Or.inr (Or.inr (Or.inl ⟨ledger, c, hconsume, rfl, hcancel, hp, ?_⟩))
                      cases hctx : contextBuilds env.permissions with
                      | true =>
                          exact Or.inl ⟨rfl, by
                            simp [hcancel, BudgetLedger.reserve, hp, Frame.begun]⟩
                      | false =>
                          exact Or.inr ⟨rfl, by
                            simp [hcancel, BudgetLedger.reserve, hp, Frame.begun]⟩

-- ===== woken

/-- What `_finish` does to the store, and with which result. -/
inductive Finished (h : Host) (f : Frame) (ending : Ending) (checkPassed : Bool)
    (reservation now : Nat) (c : RunControl ToolExecutionResult) :
    Option ToolExecutionResult × RunControl ToolExecutionResult → Prop
  /-- The outcome is recorded, with no output. -/
  | recorded (state : InvocationState) (r : ToolExecutionResult) (hs : state ≠ .pending)
      (hexec : r.executed = true) (hout : r.output = []) (hok : r.status = .failed)
      (hplain : r.replayed = false) (hdenied : deniedBeforeEntry ending checkPassed = false) :
      Finished h f ending checkPassed reservation now c
        (some r, { c with store := c.store.settle f.key state (some r) })
  /-- The output, clipped to what the budget allows, is recorded and
  accounted. -/
  | completed (raw : RawStr) (text : PyStr) (r : ToolExecutionResult)
      (hending : ending = .returned raw)
      (hclean : RawStr.clean? (boundText (sanitize h raw)) = some text)
      (hexec : r.executed = true) (hplain : r.replayed = false)
      (hout : r.output = PyStr.raw (clipBytes text c.budget.resultAllowance).1) :
      Finished h f ending checkPassed reservation now c
        (some r, { c with
          budget := c.budget.settle reservation
            (Utf8.encode (clipBytes text c.budget.resultAllowance).1).length
          store := c.store.settle f.key .completed (some r) })
  /-- The output does not encode. -/
  | broken (raw : RawStr) (hending : ending = .returned raw)
      (hclean : RawStr.clean? (boundText (sanitize h raw)) = none) :
      Finished h f ending checkPassed reservation now c (none, c)
  /-- A denial from before the gate passed. -/
  | denied (hdenied : ending = .denied) (hgate : checkPassed = false) :
      Finished h f ending checkPassed reservation now c
        (some (refusal f.call f.invocationId f.key .authorizationDenied),
          { c with store := c.store.release f.key })

theorem finish_cases (h : Host) (f : Frame) (ending : Ending) (checkPassed : Bool)
    (reservation now : Nat) (c : RunControl ToolExecutionResult) :
    Finished h f ending checkPassed reservation now c
      (finish h f ending checkPassed reservation now c) := by
  unfold finish
  cases ending with
  | cancelled => exact .recorded .unknown _ (by simp) rfl rfl rfl rfl rfl
  | raised => exact .recorded .failed _ (by simp) rfl rfl rfl rfl rfl
  | denied =>
      dsimp only
      cases hgate : checkPassed with
      | true => exact .recorded .failed _ (by simp) rfl rfl rfl rfl rfl
      | false => exact .denied rfl rfl
  | returned raw =>
      dsimp only [boundOutput]
      split
      next hclean => exact .broken raw rfl hclean
      next text hclean => exact .completed raw text _ rfl hclean rfl rfl rfl

theorem woken_cases (h : Host) (f : Frame) (task reservation : Nat) (ending : Option Ending)
    (checkPassed : Bool) (now : Nat) {sh : Shared} (hc : sh.control = some c) :
    (ending = none ∧ ∃ r, r.executed = true ∧ r.output = [] ∧ r.replayed = false
        ∧ r.status = .failed
        ∧ woken h f task reservation ending checkPassed now sh
            = f.exit ⟨sh.ledger, some (settleSlot true task reservation
                { c with store := c.store.settle f.key .unknown (some r) })⟩ r)
      ∨ (∃ e out, ending = some e ∧ Finished h f e checkPassed reservation now c out
          ∧ woken h f task reservation ending checkPassed now sh
              = f.exit ⟨sh.ledger, some (settleSlot false task reservation out.2)⟩
                  (out.1.getD (internalError f.call f.invocationId f.key true))) := by
  unfold woken
  rw [hc]
  cases ending with
  | none => exact Or.inl ⟨rfl, _, rfl, rfl, rfl, rfl, rfl⟩
  | some e => exact Or.inr ⟨e, _, rfl, finish_cases h f e checkPassed reservation now c, rfl⟩

/-- `CancelledError` while the tool is awaited. -/
theorem cancelWait_eq (f : Frame) (task reservation : Nat) (ending : Option Ending)
    {sh : Shared} (hc : sh.control = some c) :
    ∃ r, r.executed = true ∧ r.output = []
      ∧ cancelWait f task reservation ending sh
          = (.raised, f.leave ⟨sh.ledger, some (settleSlot ending.isNone task reservation
              { c with store := c.store.settle f.key .unknown (some r) })⟩) := by
  unfold cancelWait
  rw [hc]
  exact ⟨unknownResult f.call f.invocationId f.key .outcomeUnknown true, rfl, rfl, rfl⟩

theorem directDone_eq (h : Host) (f : Frame) (ending : Ending) (checkPassed : Bool)
    (sh : Shared) :
    ∃ state, (state = .raised ∨ ∃ r, state = .returned r)
      ∧ directDone h f ending checkPassed sh = (state, f.leave sh) := by
  unfold directDone
  cases ending with
  | cancelled => exact ⟨_, Or.inl rfl, rfl⟩
  | returned raw => exact ⟨_, Or.inr ⟨_, rfl⟩, rfl⟩
  | raised => exact ⟨_, Or.inr ⟨_, rfl⟩, rfl⟩
  | denied =>
      dsimp only
      split_ifs
      · exact ⟨_, Or.inr ⟨_, rfl⟩, rfl⟩
      · exact ⟨_, Or.inr ⟨_, rfl⟩, rfl⟩

end Velune.Engine
