/-
At most one execution per request id, over every interleaving.

The argument is about who holds a claim, one request id at a time
(`Sys.Claim`). A live controlled call holds its id: the entry is pending
and no other live call has the id (`holder`, `sole`). A tool task that
may still run, or did, is *alive*; an id has at most one alive task, and
while its entry is pending the task is the one its holder waits for
(`alive`, `alone`). So an entry that is settled, or an id nobody holds,
can start nothing; and an entry is only ever forgotten by a holder whose
task is not alive.

`StoreMove` lists what a move does to the store of its run, once; the
invariants split on it.
-/
import Velune.Engine.Proofs.Binding

namespace Velune.Engine

open Lib

variable {h : Host} {a : Action} {s s' : Sys} {i k : Nat} {c c' : Call} {sh : Shared}
  {ts : List ToolTask}

-- ===== claims

/-- The entry of request id `q` in run `k`. -/
def Sys.entry (s : Sys) (k : Nat) (q : PyStr) : Option (Entry ToolExecutionResult) :=
  (s.controls k).store.entries q

def Call.Live (c : Call) : Prop :=
  ∃ f, (∃ request, c.state = .approval f request) ∨ ∃ t r, c.state = .tool f t r

def ToolTask.Alive (task : ToolTask) : Prop := task.ending = none ∨ task.entered = true

def Call.Asking (c : Call) : Prop := ∃ f request, c.state = .approval f request

/-- What a move of a controlled call does to the entries of its run. -/
inductive StoreMove (d : Dict PyStr (Entry ToolExecutionResult)) (s : Sys) (i : Nat) (c c' : Call)
    (ts : List ToolTask) : Dict PyStr (Entry ToolExecutionResult) → Prop
  /-- Nothing: the call was answered at once. -/
  | quiet (r : ToolExecutionResult) (hs : c.state = .ready) (hs' : c'.state = .returned r)
      (hts : ts = []) : StoreMove d s i c c' ts d
  /-- A new claim. -/
  | claimed (hs : c.state = .ready) (hnew : d c.args.key = none) (hs' : c'.Asking)
      (hts : ts = []) :
      StoreMove d s i c c' ts
        (d.insert c.args.key { tool := c.args.call.name, callDigest := c.args.call.callDigest })
  /-- A new claim, settled as cancelled. -/
  | stillborn (r : ToolExecutionResult) (hs : c.state = .ready) (hnew : d c.args.key = none)
      (hs' : c'.state = .returned r) (hts : ts = []) :
      StoreMove d s i c c' ts
        (d.insert c.args.key
          { tool := c.args.call.name, callDigest := c.args.call.callDigest
            state := .cancelled, result := some r })
  /-- Nothing: the tool is started. -/
  | begun (f : Frame) (r : Nat) (hs : c.Asking) (hs' : c'.state = .tool f s.tasks.length r)
      (hts : ts = [{ owner := i, scope := c.control.map fun k => (k, c.args.key) }]) :
      StoreMove d s i c c' ts d
  /-- The call's claim is settled, and the call is over. Only a call
  that never started its tool is settled as not executed; what is
  recorded is what is returned, or has no output. -/
  | settled (e : Entry ToolExecutionResult) (state : InvocationState)
      (result : Option ToolExecutionResult) (hlive : c.Live) (he : d c.args.key = some e)
      (hpending : e.state = .pending) (hstate : state ≠ .pending) (hover : ¬ c'.Live)
      (hrec : ∀ r, result = some r → r.executed = false → c.Asking)
      (hret : ∀ r, c'.state = .returned r → r.executed = false → c.Asking)
      (hsame : ∀ r, result = some r → c'.state = .returned r ∨ r.output = []) (hts : ts = []) :
      StoreMove d s i c c' ts (d.insert c.args.key { e with state := state, result := result })
  /-- The call's claim is forgotten, and the call is over: it never
  started its tool, or its tool was denied before its gate passed. -/
  | released (e : Entry ToolExecutionResult) (hlive : c.Live) (he : d c.args.key = some e)
      (hpending : e.state = .pending) (hover : ¬ c'.Live)
      (hnever : c.Asking ∨ ∃ f t r task, c.state = .tool f t r ∧ s.tasks[t]? = some task
        ∧ task.ending = some .denied ∧ task.checkPassed = false) (hts : ts = []) :
      StoreMove d s i c c' ts (d.erase c.args.key)

-- ===== leave

section Leave

variable {f : Frame} {rc rc' : RunControl ToolExecutionResult} {e : Entry ToolExecutionResult}

/-- Settling a pending claim, and then `finally`: the claim is settled. -/
theorem leave_settled (state : InvocationState) {result : Option ToolExecutionResult}
    (he : rc.store.entries f.key = some e) (hstate : state ≠ .pending)
    (hrc' : rc'.store = rc.store.settle f.key state result) :
    (f.leaveControl rc').store.entries
      = rc.store.entries.insert f.key { e with state := state, result := result } := by
  rw [IdempotencyStore.settle_some he hstate] at hrc'
  have hentry : rc'.store.entries f.key = some { e with state := state, result := result } := by
    rw [hrc']
    exact Dict.insert_self _ _ _
  rw [leaveControl_settled hentry hstate, hrc']

/-- A pending claim at the `finally` of a call that did not start. -/
theorem leave_released (he : rc.store.entries f.key = some e) (hpending : e.state = .pending)
    (hclaimed : f.claimed = true) (hexec : f.executed = false) :
    (f.leaveControl rc).store.entries = rc.store.entries.erase f.key := by
  rw [leaveControl_release hclaimed he hpending hexec]

/-- A pending claim at the `finally` of a call that may have started. -/
theorem leave_unknown (he : rc.store.entries f.key = some e) (hpending : e.state = .pending)
    (hclaimed : f.claimed = true) (hexec : f.executed = true) :
    (f.leaveControl rc).store.entries
      = rc.store.entries.insert f.key { e with state := .unknown, result := none } := by
  rw [leaveControl_unknown hclaimed he hpending hexec]

@[simp] theorem settleSlot_store (abandoned : Bool) (t r : Nat) :
    (settleSlot abandoned t r rc).store = rc.store := by
  unfold settleSlot
  split_ifs <;> rfl

end Leave

theorem not_live_of_over {st : CallState} (hst : c.state = st)
    (hover : st = .raised ∨ ∃ r, st = .returned r) : ¬ c.Live := by
  rintro ⟨f, ⟨request, hs⟩ | ⟨t, r, hs⟩⟩ <;> rcases hover with rfl | ⟨r', rfl⟩ <;>
    rw [hst] at hs <;> cases hs

-- ===== store moves

theorem Move.store (hm : Move h a s i c c' sh ts) (hcoh : c.Coherent)
    (hk : c.control = some k)
    (hhold : c.Live → ∃ e, s.entry k c.args.key = some e ∧ e.state = .pending) :
    ∃ rc, sh.control = some rc
      ∧ StoreMove (s.controls k).store.entries s i c c' ts rc.store.entries := by
  have hshared : (s.shared c).control = some (s.controls k) := by simp [Sys.shared, hk]
  have hran : ∀ {r r' : ToolExecutionResult}, r.executed = true → r = r' →
      r'.executed = false → c.Asking := by
    intro r r' hexec heq hfalse
    rw [← heq, hexec] at hfalse
    cases hfalse
  cases hm with
  | early hs hr => exact ⟨_, hshared, .quiet _ hs rfl rfl⟩
  | claimCancelled hs hc hnew =>
      rw [hshared] at hc
      cases hc
      exact ⟨_, rfl, .stillborn _ hs hnew rfl rfl⟩
  | asked hs hissue hcontrol =>
      rcases hcontrol with ⟨hnone, -⟩ | ⟨rc, hc, hnew, rfl⟩
      · rw [hshared] at hnone
        cases hnone
      · rw [hshared] at hc
        cases hc
        exact ⟨_, rfl, .claimed hs hnew ⟨_, _, rfl⟩ rfl⟩
  | refused env hs =>
      obtain ⟨e, he, hpending⟩ := hhold ⟨_, Or.inl ⟨_, hs⟩⟩
      rw [Call.Coherent, hs] at hcoh
      obtain ⟨hof, -, hexec, -⟩ := hcoh
      refine ⟨_, leave_control hshared, ?_⟩
      rw [leave_released (hof.key ▸ he) hpending (by rw [hof.claimed, hk]; rfl) hexec, hof.key]
      exact .released e ⟨_, Or.inl ⟨_, hs⟩⟩ he hpending
        (not_live_of_over rfl (Or.inr ⟨_, rfl⟩)) (Or.inl ⟨_, _, hs⟩) rfl
  | cancelledBefore hs haccept hc =>
      rw [hshared] at hc
      cases hc
      obtain ⟨e, he, hpending⟩ := hhold ⟨_, Or.inl ⟨_, hs⟩⟩
      rw [Call.Coherent, hs] at hcoh
      have hof := hcoh.1
      refine ⟨_, leave_control rfl, ?_⟩
      rw [leave_settled .cancelled (hof.key ▸ he) (by decide) rfl, hof.key]
      exact .settled e _ _ ⟨_, Or.inl ⟨_, hs⟩⟩ he hpending (by decide)
        (not_live_of_over rfl (Or.inr ⟨_, rfl⟩)) (fun _ _ _ => ⟨_, _, hs⟩)
        (fun _ _ _ => ⟨_, _, hs⟩) (fun r hr => Or.inr (by cases hr; rfl)) rfl
  | begun ha hs haccept hc hroom =>
      rw [hshared] at hc
      cases hc
      rw [Call.Coherent, hs] at hcoh
      exact ⟨_, rfl, .begun _ _ ⟨_, _, hs⟩ rfl (by rw [hcoh.1.key])⟩
  | leaked ha hs hc hcancel hroom hctx haccept =>
      rw [hshared] at hc
      cases hc
      obtain ⟨e, he, hpending⟩ := hhold ⟨_, Or.inl ⟨_, hs⟩⟩
      rw [Call.Coherent, hs] at hcoh
      have hof := hcoh.1.begun
      refine ⟨_, leave_control rfl, ?_⟩
      rw [leave_unknown (hof.key ▸ he) hpending (by rw [hof.claimed, hk]; rfl) rfl, hof.key]
      exact .settled e _ _ ⟨_, Or.inl ⟨_, hs⟩⟩ he hpending (by decide)
        (not_live_of_over rfl (Or.inr ⟨_, rfl⟩)) (fun _ _ _ => ⟨_, _, hs⟩)
        (fun _ _ _ => ⟨_, _, hs⟩) (fun r hr => by cases hr) rfl
  | begunDirect ha hs haccept hc | brokenDirect hs haccept hc =>
      rw [hshared] at hc
      cases hc
  | unasked hs =>
      obtain ⟨e, he, hpending⟩ := hhold ⟨_, Or.inl ⟨_, hs⟩⟩
      rw [Call.Coherent, hs] at hcoh
      obtain ⟨hof, -, hexec, -⟩ := hcoh
      refine ⟨_, leave_control hshared, ?_⟩
      rw [leave_released (hof.key ▸ he) hpending (by rw [hof.claimed, hk]; rfl) hexec, hof.key]
      exact .released e ⟨_, Or.inl ⟨_, hs⟩⟩ he hpending (not_live_of_over rfl (Or.inl rfl))
        (Or.inl ⟨_, _, hs⟩) rfl
  | abandoned hs htask hending hc hexec hout =>
      rw [hshared] at hc
      cases hc
      obtain ⟨e, he, hpending⟩ := hhold ⟨_, Or.inr ⟨_, _, hs⟩⟩
      rw [Call.Coherent, hs] at hcoh
      have hof := hcoh.1
      refine ⟨_, leave_control rfl, ?_⟩
      rw [leave_settled .unknown (hof.key ▸ he) (by decide) (settleSlot_store _ _ _),
        hof.key]
      exact .settled e _ _ ⟨_, Or.inr ⟨_, _, hs⟩⟩ he hpending (by decide)
        (not_live_of_over rfl (Or.inr ⟨_, rfl⟩)) (fun _ hr => hran hexec (Option.some.inj hr))
        (fun _ hr => hran hexec (CallState.returned.inj hr))
        (fun r hr => Or.inl (by cases hr; rfl)) rfl
  | finished hs htask hending hc hout =>
      rw [hshared] at hc
      cases hc
      obtain ⟨e, he, hpending⟩ := hhold ⟨_, Or.inr ⟨_, _, hs⟩⟩
      rw [Call.Coherent, hs] at hcoh
      obtain ⟨hof, hbegun, -, -⟩ := hcoh
      have hclaimed : ∀ {f : Frame}, f.Of c → f.claimed = true := by
        intro f hf
        rw [hf.claimed, hk]
        rfl
      refine ⟨_, leave_control rfl, ?_⟩
      cases hout with
      | recorded state r hstate hexec =>
          rw [leave_settled state (hof.key ▸ he) hstate (settleSlot_store _ _ _), hof.key]
          exact .settled e _ _ ⟨_, Or.inr ⟨_, _, hs⟩⟩ he hpending hstate
            (not_live_of_over rfl (Or.inr ⟨_, rfl⟩)) (fun _ hr => hran hexec (Option.some.inj hr))
            (fun _ hr => hran hexec (CallState.returned.inj hr))
            (fun r hr => Or.inl (by cases hr; rfl)) rfl
      | completed raw text r _ _ hexec =>
          rw [leave_settled .completed (hof.key ▸ he) (by decide)
            (settleSlot_store _ _ _), hof.key]
          exact .settled e _ _ ⟨_, Or.inr ⟨_, _, hs⟩⟩ he hpending (by decide)
            (not_live_of_over rfl (Or.inr ⟨_, rfl⟩)) (fun _ hr => hran hexec (Option.some.inj hr))
            (fun _ hr => hran hexec (CallState.returned.inj hr))
            (fun r hr => Or.inl (by cases hr; rfl)) rfl
      | broken raw =>
          rw [leave_unknown (by rw [settleSlot_store]; exact hof.key ▸ he) hpending
            (hclaimed hof) hbegun, settleSlot_store, hof.key]
          exact .settled e _ _ ⟨_, Or.inr ⟨_, _, hs⟩⟩ he hpending (by decide)
            (not_live_of_over rfl (Or.inr ⟨_, rfl⟩)) (fun r' hr => by cases hr)
            (fun _ hr => hran rfl (CallState.returned.inj hr)) (fun r' hr => by cases hr) rfl
      | denied hdenied hgate =>
          have hrel := IdempotencyStore.release_pending (hof.key ▸ he) hpending
          rw [leaveControl_absent (by rw [settleSlot_store, hrel]; exact Dict.erase_self _ _),
            settleSlot_store, hrel, hof.key]
          exact .released e ⟨_, Or.inr ⟨_, _, hs⟩⟩ he hpending
            (not_live_of_over rfl (Or.inr ⟨_, rfl⟩))
            (Or.inr ⟨_, _, _, _, hs, htask, hdenied ▸ hending, hgate⟩) rfl
  | unawaited hs htask hc hexec hout =>
      rw [hshared] at hc
      cases hc
      obtain ⟨e, he, hpending⟩ := hhold ⟨_, Or.inr ⟨_, _, hs⟩⟩
      rw [Call.Coherent, hs] at hcoh
      have hof := hcoh.1
      refine ⟨_, leave_control rfl, ?_⟩
      rw [leave_settled .unknown (hof.key ▸ he) (by decide) (settleSlot_store _ _ _),
        hof.key]
      exact .settled e _ _ ⟨_, Or.inr ⟨_, _, hs⟩⟩ he hpending (by decide)
        (not_live_of_over rfl (Or.inl rfl)) (fun _ hr => hran hexec (Option.some.inj hr))
        (fun r hr => by cases hr) (fun r hr => Or.inr (by cases hr; exact hout)) rfl
  | doneDirect hs =>
      rw [Call.Coherent, hs] at hcoh
      rw [hcoh.2.2.1] at hk
      cases hk

-- ===== invariant

/-- A live call whose claim is on request id `q` of run `k`. -/
structure Call.Holds (c : Call) (k : Nat) (q : PyStr) : Prop where
  live : c.Live
  control : c.control = some k
  key : c.args.key = q

structure Sys.Claim (s : Sys) (k : Nat) (q : PyStr) : Prop where
  holder : ∀ (i : Nat) (c : Call), s.calls[i]? = some c → c.Holds k q →
    ∃ e, s.entry k q = some e ∧ e.state = .pending
  sole : ∀ (i j : Nat) (c d : Call), s.calls[i]? = some c → s.calls[j]? = some d →
    c.Holds k q → d.Holds k q → i = j
  alive : ∀ (t : Nat) (task : ToolTask), s.tasks[t]? = some task → task.scope = some (k, q) →
    task.Alive → ∃ e, s.entry k q = some e
      ∧ (e.state = .pending → ∃ c f r, s.calls[task.owner]? = some c ∧ c.Holds k q
          ∧ c.state = .tool f t r)
  alone : ∀ (t u : Nat) (task task' : ToolTask), s.tasks[t]? = some task →
    s.tasks[u]? = some task' → task.scope = some (k, q) → task'.scope = some (k, q) →
    task.Alive → task'.Alive → t = u
  record : ∀ (e : Entry ToolExecutionResult) (r : ToolExecutionResult), s.entry k q = some e →
    e.result = some r → r.executed = false → ∀ (t : Nat) (task : ToolTask),
    s.tasks[t]? = some task → task.scope = some (k, q) → ¬ task.Alive
  plain : ∀ (e : Entry ToolExecutionResult), s.entry k q = some e → e.state = .pending →
    e.result = none

variable {q : PyStr} {rc : RunControl ToolExecutionResult}

/-- A step that leaves the entry of an id and its live calls alone, and
wakes no task of it, keeps the state of the id. -/
theorem Sys.Claim.frame (hcl : s.Claim k q) (hentry : s'.entry k q = s.entry k q)
    (hcalls : ∀ (i : Nat) (c : Call), c.Holds k q →
      (s'.calls[i]? = some c ↔ s.calls[i]? = some c))
    (htasks : ∀ (t : Nat) (task' : ToolTask), s'.tasks[t]? = some task' →
      task'.scope = some (k, q) → task'.Alive →
      ∃ task, s.tasks[t]? = some task ∧ task.scope = some (k, q) ∧ task.Alive
        ∧ task.owner = task'.owner) : s'.Claim k q := by
  constructor
  · intro i c hc hh
    rw [hentry]
    exact hcl.holder i c ((hcalls i c hh).1 hc) hh
  · intro i j c d hc hd hhc hhd
    exact hcl.sole i j c d ((hcalls i c hhc).1 hc) ((hcalls j d hhd).1 hd) hhc hhd
  · intro t task' ht hsc halive
    obtain ⟨task, ht, hsc, halive, ho⟩ := htasks t task' ht hsc halive
    obtain ⟨e, he, hpend⟩ := hcl.alive t task ht hsc halive
    refine ⟨e, by rw [hentry, he], fun hp => ?_⟩
    obtain ⟨c, f, r, hc, hh, hs⟩ := hpend hp
    exact ⟨c, f, r, ho ▸ (hcalls _ c hh).2 hc, hh, hs⟩
  · intro t u task₁ task₂ ht hu hsc₁ hsc₂ ha₁ ha₂
    obtain ⟨task, ht, hsc, ha, -⟩ := htasks t task₁ ht hsc₁ ha₁
    obtain ⟨task', hu, hsc', ha', -⟩ := htasks u task₂ hu hsc₂ ha₂
    exact hcl.alone t u task task' ht hu hsc hsc' ha ha'
  · intro e r he hr hexec t task' ht hsc ha
    obtain ⟨task, ht, hsc, ha, -⟩ := htasks t task' ht hsc ha
    exact hcl.record e r (hentry ▸ he) hr hexec t task ht hsc ha
  · intro e he hp
    exact hcl.plain e (hentry ▸ he) hp

section Alive

variable {q : PyStr} {t : Nat} {task : ToolTask}

theorem Sys.Claim.dead_of_absent (hcl : s.Claim k q) (hnone : s.entry k q = none)
    (ht : s.tasks[t]? = some task) (hsc : task.scope = some (k, q)) : ¬ task.Alive := by
  intro ha
  obtain ⟨e, he, -⟩ := hcl.alive t task ht hsc ha
  rw [hnone] at he
  cases he

/-- The one task that may be alive under a held claim is the holder's
own. -/
theorem Sys.Claim.alive_own (hcl : s.Claim k q) (hc : s.calls[i]? = some c) (hh : c.Holds k q)
    (ht : s.tasks[t]? = some task) (hsc : task.scope = some (k, q)) (ha : task.Alive) :
    ∃ f r, c.state = .tool f t r := by
  obtain ⟨e, he, hpending⟩ := hcl.holder i c hc hh
  obtain ⟨e', he', hown⟩ := hcl.alive t task ht hsc ha
  rw [he] at he'
  cases he'
  obtain ⟨d, f, r, hd, hhd, hs⟩ := hown hpending
  have hij := hcl.sole i task.owner c d hc hd hh hhd
  subst hij
  rw [hc] at hd
  cases hd
  exact ⟨f, r, hs⟩

/-- A claim whose holder still waits for the port has no task alive. -/
theorem Sys.Claim.dead_of_asking (hcl : s.Claim k q) (hc : s.calls[i]? = some c)
    (hh : c.Holds k q) (hask : c.Asking) (ht : s.tasks[t]? = some task)
    (hsc : task.scope = some (k, q)) : ¬ task.Alive := by
  intro ha
  obtain ⟨f, r, hs⟩ := hcl.alive_own hc hh ht hsc ha
  obtain ⟨f', request, hs'⟩ := hask
  rw [hs] at hs'
  cases hs'

theorem Sys.Base.dead_of_denied (hb : s.Base) (ht : s.tasks[t]? = some task)
    (hending : task.ending = some .denied) (hgate : task.checkPassed = false) :
    ¬ task.Alive := by
  rintro (hnone | hentered)
  · rw [hending] at hnone
    cases hnone
  · rw [hb.gated t task ht hentered] at hgate
    cases hgate

end Alive

theorem after_controls_none (hk : c'.control = none) :
    (s.after i c' sh ts).controls = s.controls := by
  unfold Sys.after Sys.put
  rw [hk]

theorem after_controls (hk : c'.control = some k) (hrc : sh.control = some rc) (k' : Nat) :
    (s.after i c' sh ts).controls k' = if k' = k then rc else s.controls k' := by
  have heq : (s.after i c' sh ts).controls = Function.update s.controls k rc := by
    unfold Sys.after Sys.put
    rw [hk, hrc]
  rw [heq, Function.update_apply]

/-- The tasks of an id after a move that started none are the old
ones. -/
theorem tasks_of_nil (hts : ts = []) {t : Nat} {task : ToolTask}
    (ht : (s.after i c' sh ts).tasks[t]? = some task) : s.tasks[t]? = some task := by
  subst hts
  exact after_tasks_nil ht

theorem Sys.Claim.nobody_else {j : Nat} {d : Call} (hcl : s.Claim k q)
    (hc : s.calls[i]? = some c) (hj : j ≠ i) (hd : s.calls[j]? = some d)
    (hfree : c.Holds k q ∨ s.entry k q = none) : ¬ d.Holds k q := by
  intro hh
  rcases hfree with hhc | hnone
  · exact hj (hcl.sole j i d c hd hc hh hhc)
  · obtain ⟨e, he, -⟩ := hcl.holder j d hd hh
    rw [hnone] at he
    cases he

/-- After its holder is over, or was answered at once, a claim has no
holder. -/
theorem no_holder (hcl : s.Claim k q) (hc : s.calls[i]? = some c)
    (hover : ¬ c'.Live) (hfree : c.Holds k q ∨ s.entry k q = none) {j : Nat} {d : Call}
    (hd : (s.after i c' sh ts).calls[j]? = some d) : ¬ d.Holds k q := by
  rcases after_calls hd with ⟨-, rfl⟩ | ⟨hj, hd⟩
  · exact fun hh => hover hh.live
  · exact hcl.nobody_else hc hj hd hfree

/-- A claim without holders whose tasks that are alive are settled, and
whose settled record that denies execution has no task alive, is in
order. -/
theorem Sys.Claim.of_unheld (hnone : ∀ (i : Nat) (c : Call),
      s.calls[i]? = some c → ¬ c.Holds k q)
    (hsettled : ∀ (t : Nat) (task : ToolTask), s.tasks[t]? = some task →
      task.scope = some (k, q) → task.Alive → ∃ e, s.entry k q = some e ∧ e.state ≠ .pending
        ∧ ∀ r, e.result = some r → r.executed = true)
    (halone : ∀ (t u : Nat) (task task' : ToolTask), s.tasks[t]? = some task →
      s.tasks[u]? = some task' → task.scope = some (k, q) → task'.scope = some (k, q) →
      task.Alive → task'.Alive → t = u)
    (hplain : ∀ e, s.entry k q = some e → e.state = .pending → e.result = none) : s.Claim k q := by
  constructor
  · exact fun i c hc hh => absurd hh (hnone i c hc)
  · exact fun i _ c _ hc _ hh => absurd hh (hnone i c hc)
  · intro t task ht hsc ha
    obtain ⟨e, he, hstate, -⟩ := hsettled t task ht hsc ha
    exact ⟨e, he, fun hp => absurd hp hstate⟩
  · exact halone
  · intro e r he hr hexec t task ht hsc ha
    obtain ⟨e', he', -, htrue⟩ := hsettled t task ht hsc ha
    rw [he] at he'
    cases he'
    rw [htrue r hr] at hexec
    cases hexec
  · exact hplain

theorem Sys.Claim.own (hcl : s.Claim k c.args.key)
    (hbase : s.Base) (hc : s.calls[i]? = some c) (hk : c.control = some k)
    (hk' : c'.control = some k) (hargs : c'.args = c.args) (hrc : sh.control = some rc)
    (hmove : StoreMove (s.controls k).store.entries s i c c' ts rc.store.entries) :
    (s.after i c' sh ts).Claim k c.args.key := by
  have hentry : (s.after i c' sh ts).entry k c.args.key = rc.store.entries c.args.key := by
    unfold Sys.entry
    rw [after_controls hk' hrc, if_pos rfl]
  have halone_old : ts = [] → ∀ (t u : Nat) (task task' : ToolTask),
      (s.after i c' sh ts).tasks[t]? = some task → (s.after i c' sh ts).tasks[u]? = some task' →
      task.scope = some (k, c.args.key) → task'.scope = some (k, c.args.key) →
      task.Alive → task'.Alive → t = u := by
    intro hts t u task task' ht hu
    exact hcl.alone t u task task' (tasks_of_nil hts ht) (tasks_of_nil hts hu)
  generalize rc.store.entries = d at hmove hentry
  cases hmove with
  | quiet r hs hs' hts =>
      -- the call held nothing before and holds nothing now
      have hdead : ∀ d : Call, d.Holds k c.args.key → d ≠ c ∧ d ≠ c' := by
        rintro d ⟨⟨f, ⟨_, hd⟩ | ⟨_, _, hd⟩⟩, -, -⟩ <;> constructor <;> rintro rfl
        · rw [hs] at hd
          cases hd
        · rw [hs'] at hd
          cases hd
        · rw [hs] at hd
          cases hd
        · rw [hs'] at hd
          cases hd
      refine hcl.frame hentry (fun j d hh => ?_) fun t task ht hsc ha =>
        ⟨task, tasks_of_nil hts ht, hsc, ha, rfl⟩
      constructor
      · intro hd
        rcases after_calls hd with ⟨-, rfl⟩ | ⟨-, hd⟩
        · exact absurd rfl (hdead _ hh).2
        · exact hd
      · intro hd
        have hj : j ≠ i := by
          rintro rfl
          rw [hc] at hd
          cases hd
          exact absurd rfl (hdead _ hh).1
        rw [after_other hj]
        exact hd
  | claimed hs hnew hs' hts =>
      have hdead : ∀ {t : Nat} {task : ToolTask}, (s.after i c' sh ts).tasks[t]? = some task →
          task.scope = some (k, c.args.key) → ¬ task.Alive := fun ht hsc =>
        hcl.dead_of_absent hnew (tasks_of_nil hts ht) hsc
      have hself : ∀ {j : Nat} {d : Call}, (s.after i c' sh ts).calls[j]? = some d →
          d.Holds k c.args.key → j = i := by
        intro j d hd hh
        rcases after_calls hd with ⟨hj, -⟩ | ⟨hj, hd⟩
        · exact hj
        · exact absurd hh (hcl.nobody_else hc hj hd (Or.inr hnew))
      rw [Dict.insert_self] at hentry
      constructor
      · exact fun j d hd hh => ⟨_, hentry, rfl⟩
      · intro j l d e hd he hhd hhe
        rw [hself hd hhd, hself he hhe]
      · exact fun t task ht hsc ha => absurd ha (hdead ht hsc)
      · exact fun t u task task' ht _ hsc _ ha => absurd ha (hdead ht hsc)
      · exact fun e r _ _ _ t task ht hsc => hdead ht hsc
      · intro e he _
        rw [hentry] at he
        cases he
        rfl
  | stillborn r hs hnew hs' hts =>
      rw [Dict.insert_self] at hentry
      refine .of_unheld (fun j d hd => ?_) (fun t task ht hsc ha => ?_) (halone_old hts)
        fun e he hp => ?_
      · exact no_holder hcl hc (not_live_of_over hs' (Or.inr ⟨_, rfl⟩)) (Or.inr hnew) hd
      · exact absurd ha (hcl.dead_of_absent hnew (tasks_of_nil hts ht) hsc)
      · rw [hentry] at he
        cases he
        cases hp
  | begun f r hs hs' hts =>
      obtain ⟨g, request, hg⟩ := hs
      have hh : c.Holds k c.args.key := ⟨⟨g, Or.inl ⟨_, hg⟩⟩, hk, rfl⟩
      have hh' : c'.Holds k c.args.key := ⟨⟨f, Or.inr ⟨_, _, hs'⟩⟩, hk', by rw [hargs]⟩
      obtain ⟨e, he, hpending⟩ := hcl.holder i c hc hh
      have hself : ∀ {j : Nat} {d : Call}, (s.after i c' sh ts).calls[j]? = some d →
          d.Holds k c.args.key → j = i := by
        intro j d hd hhd
        rcases after_calls hd with ⟨hj, -⟩ | ⟨hj, hd⟩
        · exact hj
        · exact absurd hhd (hcl.nobody_else hc hj hd (Or.inl hh))
      -- the only task alive is the new one
      have hnew : ∀ {t : Nat} {task : ToolTask}, (s.after i c' sh ts).tasks[t]? = some task →
          task.scope = some (k, c.args.key) → task.Alive →
          t = s.tasks.length ∧ task.owner = i := by
        intro t task ht hsc ha
        subst hts
        rcases after_tasks ht with ht | ⟨htl, rfl⟩
        · exact absurd ha (hcl.dead_of_asking hc hh ⟨_, _, hg⟩ ht hsc)
        · exact ⟨htl, rfl⟩
      constructor
      · exact fun j d hd hhd => ⟨e, hentry.trans he, hpending⟩
      · intro j l d d' hd hd' hhd hhd'
        rw [hself hd hhd, hself hd' hhd']
      · intro t task ht hsc ha
        obtain ⟨rfl, ho⟩ := hnew ht hsc ha
        exact ⟨e, hentry.trans he, fun _ => ⟨c', f, r, by rw [ho]; exact after_self hc, hh', hs'⟩⟩
      · intro t u task task' ht hu hsc hsc' ha ha'
        rw [(hnew ht hsc ha).1, (hnew hu hsc' ha').1]
      · intro e' r' he' hr'
        rw [hentry] at he'
        have heq : e = e' := Option.some.inj (he.symm.trans he')
        rw [← heq, hcl.plain e he hpending] at hr'
        cases hr'
      · exact fun e' he' hp => hcl.plain e' (hentry.symm.trans he') hp
  | settled e state result hlive he hpending hstate hover hrec hret hsame hts =>
      have hh : c.Holds k c.args.key := ⟨hlive, hk, rfl⟩
      rw [Dict.insert_self] at hentry
      refine .of_unheld (fun j d hd => no_holder hcl hc hover (Or.inl hh) hd)
        (fun t task ht hsc ha => ⟨_, hentry, hstate, fun r hr => ?_⟩) (halone_old hts)
        fun e' he' hp => ?_
      · -- a record that denies execution is of a call that never started its tool
        by_contra hexec
        exact hcl.dead_of_asking hc hh (hrec r hr (by simpa using hexec)) (tasks_of_nil hts ht)
          hsc ha
      · rw [hentry] at he'
        cases he'
        exact absurd hp hstate
  | released e hlive he hpending hover hnever hts =>
      have hh : c.Holds k c.args.key := ⟨hlive, hk, rfl⟩
      rw [Dict.erase_self] at hentry
      refine .of_unheld (fun j d hd => no_holder hcl hc hover (Or.inl hh) hd)
        (fun t task ht hsc ha => ?_) (halone_old hts) fun e' he' hp => ?_
      · have ht := tasks_of_nil hts ht
        rcases hnever with hask | ⟨f, u, r, task', hs, hu, hdenied, hgate⟩
        · exact absurd ha (hcl.dead_of_asking hc hh hask ht hsc)
        · -- the task alive would be the denied one
          obtain ⟨f', r', hs'⟩ := hcl.alive_own hc hh ht hsc ha
          rw [hs] at hs'
          cases hs'
          rw [ht] at hu
          cases hu
          exact absurd ha (hbase.dead_of_denied ht hdenied hgate)
      · rw [hentry] at he'
        cases he'

theorem StoreMove.other {d d' : Dict PyStr (Entry ToolExecutionResult)}
    (hmove : StoreMove d s i c c' ts d') (hq : q ≠ c.args.key) : d' q = d q := by
  cases hmove with
  | quiet | begun => rfl
  | claimed | stillborn | settled => exact Dict.insert_of_ne _ _ hq
  | released => exact Dict.erase_of_ne _ hq

theorem Sys.Claim.call_after (hcl : ∀ k q, s.Claim k q) (hbase : s.Base)
    (hc : s.calls[i]? = some c) (hm : Move h a s i c c' sh ts) :
    (s.after i c' sh ts).Claim k q := by
  have hcoh := hbase.coherent i c hc
  obtain ⟨-, hctl, hargs⟩ := hm.fixed
  -- off the call's own id, nothing is seen of the move
  have hoff : (s.after i c' sh ts).entry k q = s.entry k q →
      (c.control = some k → c.args.key ≠ q) → (s.after i c' sh ts).Claim k q := by
    intro hentry hne
    have hnot : ∀ d : Call, d.Holds k q → d ≠ c ∧ d ≠ c' := by
      rintro d ⟨-, hdk, hdq⟩
      constructor <;> rintro rfl
      · exact hne hdk hdq
      · rw [hctl] at hdk
        rw [hargs] at hdq
        exact hne hdk hdq
    refine (hcl k q).frame hentry (fun j d hh => ?_) fun t task ht hsc ha => ?_
    · constructor
      · intro hd
        rcases after_calls hd with ⟨-, rfl⟩ | ⟨-, hd⟩
        · exact absurd rfl (hnot _ hh).2
        · exact hd
      · intro hd
        have hj : j ≠ i := by
          rintro rfl
          rw [hc] at hd
          cases hd
          exact absurd rfl (hnot _ hh).1
        rw [after_other hj]
        exact hd
    · rcases hm.tasks hcoh with ⟨rfl, -⟩ | ⟨rfl, -⟩
      · exact ⟨task, after_tasks_nil ht, hsc, ha, rfl⟩
      · rcases after_tasks ht with ht | ⟨-, rfl⟩
        · exact ⟨task, ht, hsc, ha, rfl⟩
        · simp only [Option.map_eq_some_iff, Prod.mk.injEq] at hsc
          obtain ⟨k', hk', rfl, hq⟩ := hsc
          exact absurd hq (hne hk')
  cases hk : c.control with
  | none =>
      refine hoff ?_ fun hk' => by rw [hk] at hk'; cases hk'
      unfold Sys.entry
      rw [after_controls_none (hctl.trans hk)]
  | some k₀ =>
      obtain ⟨rc, hrc, hmove⟩ := hm.store hcoh hk fun hlive =>
        (hcl k₀ c.args.key).holder i c hc ⟨hlive, hk, rfl⟩
      by_cases hown : k = k₀ ∧ q = c.args.key
      · obtain ⟨rfl, rfl⟩ := hown
        exact (hcl k c.args.key).own hbase hc hk (hctl.trans hk) hargs hrc hmove
      · refine hoff ?_ fun hk' hq => ?_
        · unfold Sys.entry
          rw [after_controls (hctl.trans hk) hrc]
          split_ifs with hkk
          · subst hkk
            exact hmove.other fun hq => hown ⟨rfl, hq⟩
          · rfl
        · rw [hk] at hk'
          exact hown ⟨(Option.some.inj hk').symm, hq.symm⟩

theorem Aside.store (ha : Aside a s k rc) : rc.store = (s.controls k).store := by
  cases ha <;> rfl

theorem Sys.Claim.step (hcl : ∀ k q, s.Claim k q) (hbase : s.Base)
    (hstep : Engine.step h a s = some s') (k : Nat) (q : PyStr) : s'.Claim k q := by
  rcases step_cases hbase.coherent hstep with ⟨executor, control, args, rfl⟩
    | ⟨i, c, c', sh, ts, hc, hm, rfl⟩ | ⟨t, task, task', ht, hrun, hm, rfl⟩
    | ⟨k', rc, ha, rfl⟩
  · refine (hcl k q).frame rfl (fun j d hh => ⟨fun hd => ?_, concat_old⟩)
      fun t task ht hsc ha => ⟨task, ht, hsc, ha, rfl⟩
    rcases concat_calls hd with ⟨-, rfl⟩ | hd
    · obtain ⟨⟨f, ⟨_, hs⟩ | ⟨_, _, hs⟩⟩, -, -⟩ := hh <;> cases hs
    · exact hd
  · exact Sys.Claim.call_after hcl hbase hc hm
  · refine (hcl k q).frame rfl (fun j d _ => Iff.rfl) fun u task₁ hu hsc ha => ?_
    rcases set_tasks hu with ⟨rfl, rfl⟩ | ⟨-, hu⟩
    · obtain ⟨ho, hsc', -⟩ := hm.fixed
      exact ⟨task, ht, hsc' ▸ hsc, Or.inl hrun, ho.symm⟩
    · exact ⟨task₁, hu, hsc, ha, rfl⟩
  · refine (hcl k q).frame ?_ (fun j d _ => Iff.rfl) fun u task hu hsc ha' =>
      ⟨task, hu, hsc, ha', rfl⟩
    unfold Sys.entry
    show (Function.update s.controls k' rc k).store.entries q = _
    rw [Function.update_apply]
    split_ifs with hkk
    · rw [ha.store, hkk]
    · rfl

theorem Sys.Fresh.claim (hs : s.Fresh) (k : Nat) (q : PyStr) : s.Claim k q := by
  have hentry : s.entry k q = none := by
    obtain ⟨runId, budget, now, hk⟩ := hs.controls k
    unfold Sys.entry
    rw [hk]
    rfl
  constructor <;> simp [hs.calls, hs.tasks, hentry]

-- ===== not executed

/-- A controlled call that reports that its tool did not run has no task
alive. -/
def Sys.Clean (s : Sys) : Prop :=
  ∀ (i : Nat) (c : Call) (r : ToolExecutionResult) (t : Nat) (task : ToolTask),
    s.calls[i]? = some c → c.control.isSome = true → c.state = .returned r →
    r.executed = false → s.tasks[t]? = some task → task.owner = i → ¬ task.Alive

theorem Sys.Base.no_task (hbase : s.Base) (hc : s.calls[i]? = some c) (hspent : c.spent = none)
    {t : Nat} {task : ToolTask} (ht : s.tasks[t]? = some task) : task.owner ≠ i := by
  intro ho
  obtain ⟨d, hd, hsome, -⟩ := hbase.owned t task ht
  rw [ho, hc] at hd
  cases hd
  rw [hspent] at hsome
  cases hsome

theorem Call.Asking.unspent (hask : c.Asking) (hcoh : c.Coherent) : c.spent = none := by
  obtain ⟨f, request, hs⟩ := hask
  rw [Call.Coherent, hs] at hcoh
  exact hcoh.2.2.2

theorem Sys.Clean.step (hclean : s.Clean) (hcl : ∀ k q, s.Claim k q) (hbase : s.Base)
    (hstep : Engine.step h a s = some s') : s'.Clean := by
  rcases step_cases hbase.coherent hstep with ⟨executor, control, args, rfl⟩
    | ⟨i, c, c', sh, ts, hc, hm, rfl⟩ | ⟨t, task, task', ht, hrun, hm, rfl⟩
    | ⟨k', rc, ha, rfl⟩
  · intro j d r t task hd hk hs hexec ht ho
    rcases concat_calls hd with ⟨-, rfl⟩ | hd
    · cases hs
    · exact hclean j d r t task hd hk hs hexec ht ho
  · have hcoh := hbase.coherent i c hc
    obtain ⟨-, hctl, hargs⟩ := hm.fixed
    intro j d r t task hd hk hs hexec ht ho
    rcases after_calls hd with ⟨rfl, rfl⟩ | ⟨hj, hd₀⟩
    · -- the mover itself has just returned
      rw [hctl] at hk
      obtain ⟨k, hk⟩ := Option.isSome_iff_exists.1 hk
      obtain ⟨rc, -, hmove⟩ := hm.store hcoh hk fun hlive =>
        (hcl k c.args.key).holder _ c hc ⟨hlive, hk, rfl⟩
      have hready : c.state = .ready → c.spent = none := by
        intro hs
        rw [Call.Coherent, hs] at hcoh
        exact hcoh.2
      generalize rc.store.entries = d' at hmove
      cases hmove with
      | quiet r' hs₀ hs' hts | stillborn r' hs₀ hnew hs' hts =>
          exact absurd ho (hbase.no_task hc (hready hs₀) (tasks_of_nil hts ht))
      | claimed hs₀ hnew hs' hts =>
          obtain ⟨f, request, hs'⟩ := hs'
          rw [hs] at hs'
          cases hs'
      | begun f r' hs₀ hs' hts =>
          rw [hs] at hs'
          cases hs'
      | settled e state result hlive he hpending hstate hover hrec hret hsame hts =>
          exact absurd ho (hbase.no_task hc ((hret r hs hexec).unspent hcoh)
            (tasks_of_nil hts ht))
      | released e hlive he hpending hover hnever hts =>
          have ht := tasks_of_nil hts ht
          rcases hnever with hask | ⟨f, u, r', _, hs₀, hu, hdenied, hgate⟩
          · exact absurd ho (hbase.no_task hc (hask.unspent hcoh) ht)
          · obtain ⟨task₂, hu₂, ho₂⟩ := hbase.awaited _ c u hc ⟨f, Or.inl ⟨r', hs₀⟩⟩
            rw [hu] at hu₂
            cases hu₂
            have htu := hbase.once t u task _ ht hu (ho.trans ho₂.symm)
            subst htu
            rw [ht] at hu
            cases hu
            exact hbase.dead_of_denied ht hdenied hgate
    · rcases hm.tasks hcoh with ⟨rfl, -⟩ | ⟨rfl, -⟩
      · exact hclean j d r t task hd₀ hk hs hexec (after_tasks_nil ht) ho
      · rcases after_tasks ht with ht | ⟨-, rfl⟩
        · exact hclean j d r t task hd₀ hk hs hexec ht ho
        · exact absurd ho.symm hj
  · intro j d r u task₁ hd hk hs hexec hu ho
    rcases set_tasks hu with ⟨rfl, rfl⟩ | ⟨-, hu⟩
    · exact absurd (Or.inl hrun) (hclean j d r u task hd hk hs hexec ht (hm.fixed.1 ▸ ho))
    · exact hclean j d r u task₁ hd hk hs hexec hu ho
  · exact hclean

-- ===== settled

/-- What is settled in `s` is, unchanged, in `s'`. -/
def Sys.KeepsSettled (s s' : Sys) : Prop :=
  ∀ (k : Nat) (q : PyStr) (e : Entry ToolExecutionResult), s.entry k q = some e →
    e.state ≠ .pending → s'.entry k q = some e

theorem StoreMove.keeps {d d' : Dict PyStr (Entry ToolExecutionResult)}
    {e : Entry ToolExecutionResult} (hmove : StoreMove d s i c c' ts d') (he : d q = some e)
    (hsettled : e.state ≠ .pending) : d' q = some e := by
  by_cases hq : q = c.args.key
  · subst hq
    cases hmove with
    | quiet | begun => exact he
    | claimed _ hnew | stillborn _ _ hnew =>
        rw [hnew] at he
        cases he
    | settled e₀ _ _ _ he₀ hpending | released e₀ _ he₀ hpending =>
        rw [he₀] at he
        cases he
        exact absurd hpending hsettled
  · rw [hmove.other hq, he]

theorem Sys.KeepsSettled.step (hcl : ∀ k q, s.Claim k q) (hbase : s.Base)
    (hstep : Engine.step h a s = some s') : s.KeepsSettled s' := by
  rcases step_cases hbase.coherent hstep with ⟨executor, control, args, rfl⟩
    | ⟨i, c, c', sh, ts, hc, hm, rfl⟩ | ⟨t, task, task', -, -, -, rfl⟩ | ⟨k', rc, ha, rfl⟩
  · exact fun k q e he _ => he
  · intro k q e he hsettled
    obtain ⟨-, hctl, -⟩ := hm.fixed
    unfold Sys.entry
    cases hk : c.control with
    | none =>
        rw [after_controls_none (hctl.trans hk)]
        exact he
    | some k₀ =>
        obtain ⟨rc, hrc, hmove⟩ := hm.store (hbase.coherent i c hc) hk fun hlive =>
          (hcl k₀ c.args.key).holder i c hc ⟨hlive, hk, rfl⟩
        rw [after_controls (hctl.trans hk) hrc]
        split_ifs with hkk
        · subst hkk
          exact hmove.keeps he hsettled
        · exact he
  · exact fun k q e he _ => he
  · intro k q e he _
    show (Function.update s.controls k' rc k).store.entries q = _
    rw [Function.update_apply]
    split_ifs with hkk
    · rw [ha.store, ← hkk]
      exact he
    · exact he

-- ===== duplicates

/-- The answer to an `execute` whose request id has entry `e`. -/
inductive Again (call : ValidatedToolCall) (key : PyStr) (e : Entry ToolExecutionResult) :
    ToolExecutionResult → Prop
  | conflict (hdiff : e.tool ≠ call.name ∨ e.callDigest ≠ call.callDigest) :
      Again call key e (refusal call [] key .idempotencyConflict)
  | pending (hpending : e.state = .pending) :
      Again call key e (refusal call [] key .duplicatePending)
  | recorded (r : ToolExecutionResult) (hsettled : e.state ≠ .pending)
      (hr : e.result = some r) : Again call key e r.replay
  /-- Settled as unknown by `finally`, which records no result. -/
  | unrecorded (hsettled : e.state ≠ .pending) (hr : e.result = none) :
      Again call key e (unrecordedResult call key)

theorem duplicate_again {call : ValidatedToolCall} {key : PyStr}
    {st : IdempotencyStore ToolExecutionResult} {e : Entry ToolExecutionResult}
    {r : ToolExecutionResult} (he : st.entries key = some e)
    (hr : duplicate call key (st.claim key call.name call.callDigest).1 = some r) :
    Again call key e r := by
  unfold IdempotencyStore.claim at hr
  rw [he] at hr
  dsimp only at hr
  split_ifs at hr with hdiff hpending
  · cases hr
    exact .conflict hdiff
  · cases hr
    exact .pending hpending
  · cases hres : e.result with
    | none =>
        rw [hres] at hr
        cases hr
        exact .unrecorded hpending hres
    | some r' =>
        rw [hres] at hr
        cases hr
        exact .recorded r' hpending hres

def RefusedEarly (r : ToolExecutionResult) : Prop :=
  r.executed = false ∧ r.status ≠ .ok ∧ ∃ e ∈ .internal :: preStore, r.error = some e

/-- The first segment of a call whose request id is known returns, and
changes nothing. -/
theorem start_known {args : Arguments} (env : StartEnv) (mintedFor : Nat) {sh : Shared}
    {e : Entry ToolExecutionResult}
    (hc : sh.control = some rc) (he : rc.store.entries args.key = some e) :
    ∃ r, start h args env mintedFor sh = (.returned r, sh)
      ∧ (Again args.call args.key e r ∨ RefusedEarly r) := by
  rcases start_cases h args env mintedFor sh with ⟨r, hr, heq⟩ | ⟨c, hc', hnew, -⟩
    | ⟨request, ledger, control, -, ⟨hnone, -⟩ | ⟨c, hc', hnew, -⟩, -⟩
  · refine ⟨r, heq, ?_⟩
    cases hr with
    | refused key err herr =>
        have hnot : (refusal args.call [] key err).status ≠ .ok := by simp [refusal, mkResult]
        exact Or.inr ⟨rfl, hnot, err, List.mem_cons_of_mem _ herr, rfl⟩
    | broken =>
        have hnot : (internalError args.call [] args.key false).status ≠ .ok := by
          simp [internalError, mkResult]
        exact Or.inr ⟨rfl, hnot, _, List.mem_cons_self .., rfl⟩
    | again c entry r hc' hentry hr =>
        rw [hc] at hc'
        cases hc'
        rw [he] at hentry
        cases hentry
        exact Or.inl (duplicate_again he hr)
    | early c err hc' hnew =>
        rw [hc] at hc'
        cases hc'
        rw [he] at hnew
        cases hnew
    | unminted hnew =>
        have habsent := hnew rc hc
        rw [he] at habsent
        cases habsent
  · rw [hc] at hc'
    cases hc'
    rw [he] at hnew
    cases hnew
  · rw [hc] at hnone
    cases hnone
  · rw [hc] at hc'
    cases hc'
    rw [he] at hnew
    cases hnew

-- ===== runs

/-- The tool body of a request id is entered by one task at most. -/
def Sys.EnteredOnce (s : Sys) : Prop :=
  ∀ (k : Nat) (q : PyStr) (t u : Nat) (task task' : ToolTask), s.tasks[t]? = some task →
    s.tasks[u]? = some task' → task.scope = some (k, q) → task'.scope = some (k, q) →
    task.entered = true → task'.entered = true → t = u

/-- How `execute` is answered, under `A`, for a request id with an
entry. -/
def Sys.AnswersAgain (h : Host) (s : Sys)
    (A : ValidatedToolCall → PyStr → Entry ToolExecutionResult → ToolExecutionResult → Prop) :
    Prop :=
  ∀ (i k : Nat) (c : Call) (e : Entry ToolExecutionResult) (env : StartEnv) (s' : Sys),
    s.calls[i]? = some c → c.control = some k → s.entry k c.args.key = some e →
    step h (.start i env) s = some s' →
    ∃ c' r, s'.calls[i]? = some c' ∧ c'.state = .returned r ∧ A c.args.call c.args.key e r

/-- A controlled call that returns `executed = False` did not enter its
tool body, and never will: its task, if any, is over. -/
def Sys.NotExecuted (s : Sys) : Prop :=
  ∀ (i : Nat) (c : Call) (r : ToolExecutionResult) (t : Nat) (task : ToolTask),
    s.calls[i]? = some c → c.control.isSome = true → c.state = .returned r →
    r.executed = false → s.tasks[t]? = some task → task.owner = i →
    task.entered = false ∧ task.ending.isSome = true

/-- One call that runs `git_status` under request id `r1`, to its
recorded result. -/
def oneStatus : List Action :=
  [.invoke 0 (some 0) (statusArgs (some "r1".toList)),
    .start 0 ⟨statusLookup, "invoke-0".toList, 0, 0⟩,
    answerFirst "invoke-0".toList, .passGate 0, .enterBody 0,
    .endTask 0 (.returned (PyStr.raw "clean".toList)), .wake 0 2,
    .invoke 0 (some 0) (statusArgs (some "r1".toList))]

/-- The answer as a strict reading has it: the recorded outcome marked
as replayed, or one of the two refusals of a duplicate. -/
def AnsweredFromStore (r : ToolExecutionResult) : Prop :=
  (r.replayed = true ∧ r.safeToRetry = false)
    ∨ r.error = some .duplicatePending ∨ r.error = some .idempotencyConflict

instance (r : ToolExecutionResult) : Decidable (AnsweredFromStore r) :=
  inferInstanceAs (Decidable (_ ∨ _))

end Velune.Engine
