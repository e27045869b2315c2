/-
Which answer starts which call.

The ledger is shared by all the calls of an executor and is looked up by
the id in the port's answer, so what holds of every interleaving is
about pending invocations: each one lets at most one call start
(`Sys.SpentOnce`). That it is the call's *own* invocation is not checked
anywhere: a port that answers one call with an approval meant for
another live one starts the wrong call. `Sys.ApprovalBound`, the binding
itself, holds of the runs in which the port does not do that (`Honest`).
-/
import Velune.Engine.Proofs.Coherence

namespace Velune.Engine

open Lib

variable {h : Host} {a : Action} {s s' : Sys} {i : Nat} {c c' : Call} {sh : Shared}
  {ts : List ToolTask}

-- ===== properties

/-- Every started call was answered about its own invocation: approved,
with the id, the tool and the digest minted for it, which are the
call's. -/
def Sys.ApprovalBound (s : Sys) : Prop :=
  ∀ (t : Nat) (task : ToolTask), s.tasks[t]? = some task →
    ∃ c d request, s.calls[task.owner]? = some c ∧ c.answer = some d
      ∧ c.minted = some request ∧ d.approved = true
      ∧ d.invocationId = request.invocationId ∧ d.tool = request.tool
      ∧ d.callDigest = request.callDigest
      ∧ request.tool = c.args.call.name ∧ request.callDigest = c.args.call.callDigest

/-- Started calls spent pending invocations of different calls: none was
used twice. -/
def Sys.SpentOnce (s : Sys) : Prop :=
  ∀ (t u : Nat) (task task' : ToolTask) (c d : Call), s.tasks[t]? = some task →
    s.tasks[u]? = some task' → s.calls[task.owner]? = some c → s.calls[task'.owner]? = some d →
    task.owner ≠ task'.owner → c.spent ≠ d.spent

/-- The port does not answer call `i` with an approval that is good for
another call's live invocation: one it names by id, with its tool and
its digest, before it expires. -/
def Honest : Action → Sys → Prop
  | .decide i env, s =>
      ∀ (c : Call) (d : ApprovalDecision) (entry : Pending), s.calls[i]? = some c → env.answer = some d →
        (s.ledgers c.executor).pending d.invocationId = some entry →
        env.approvalNow - entry.issuedAt ≤ (s.ledgers c.executor).ttl →
        d.tool = entry.request.tool → d.callDigest = entry.request.callDigest →
        d.approved = true → entry.mintedFor = i
  | _, _ => True

-- ===== ledger

/-- `finally` adds no pending invocation. -/
theorem leave_pending {f : Frame} {sh : Shared} {id : PyStr} {p : Pending}
    (hp : (f.leave sh).ledger.pending id = some p) : sh.ledger.pending id = some p := by
  rw [leave_ledger] at hp
  split_ifs at hp
  · exact hp
  · exact (Dict.erase_eq_some hp).2

/-- What a move does to its ledger: it adds nothing and spends nothing,
or mints the call's own invocation, or spends a pending one. -/
theorem Move.ledger (hm : Move h a s i c c' sh ts) (hcoh : c.Coherent) :
    ((∀ (id : PyStr) (p : Pending), sh.ledger.pending id = some p →
          (s.ledgers c.executor).pending id = some p)
        ∧ c'.spent = c.spent ∧ c'.minted = c.minted)
      ∨ (∃ request now, c.minted = none ∧ c'.minted = some request ∧ c'.spent = none
          ∧ request.tool = c.args.call.name ∧ request.callDigest = c.args.call.callDigest
          ∧ sh.ledger.pending = (s.ledgers c.executor).pending.insert request.invocationId
              ⟨request, now, i⟩)
      ∨ (∃ env d entry, a = .decide i env ∧ env.answer = some d
          ∧ (s.ledgers c.executor).pending d.invocationId = some entry
          ∧ env.approvalNow - entry.issuedAt ≤ (s.ledgers c.executor).ttl
          ∧ d.tool = entry.request.tool ∧ d.callDigest = entry.request.callDigest
          ∧ d.approved = true ∧ c'.minted = c.minted ∧ c'.answer = some d
          ∧ c'.spent = some entry.mintedFor
          ∧ sh.ledger.pending = (s.ledgers c.executor).pending.erase d.invocationId) := by
  have hbegun : ∀ {env : DecideEnv} {ledger : ApprovalLedger},
      (s.ledgers c.executor).consume env.answer env.approvalNow = (none, ledger) →
      ∃ d entry, env.answer = some d
        ∧ (s.ledgers c.executor).pending d.invocationId = some entry
        ∧ env.approvalNow - entry.issuedAt ≤ (s.ledgers c.executor).ttl
        ∧ d.tool = entry.request.tool ∧ d.callDigest = entry.request.callDigest
        ∧ d.approved = true
        ∧ spentBy (s.ledgers c.executor) env.answer = some entry.mintedFor
        ∧ ledger.pending = (s.ledgers c.executor).pending.erase d.invocationId := by
    intro env ledger haccept
    obtain ⟨d, entry, hd, hentry, hfresh, htool, hdigest, happroved, hpending⟩ :=
      ApprovalLedger.consume_eq_none haccept
    exact ⟨d, entry, hd, hentry, hfresh, htool, hdigest, happroved,
      by simp [spentBy, hd, hentry], hpending⟩
  have hconsumed : ∀ {env : DecideEnv} {ledger : ApprovalLedger} {id : PyStr} {p : Pending},
      (s.ledgers c.executor).consume env.answer env.approvalNow = (none, ledger) →
      ledger.pending id = some p → (s.ledgers c.executor).pending id = some p := by
    intro env ledger id p haccept hp
    refine ApprovalLedger.consume_pending (s.ledgers c.executor) env.answer env.approvalNow ?_
    rw [haccept]
    exact hp
  cases hm with
  | early hs | claimCancelled hs =>
      rw [Call.Coherent, hs] at hcoh
      exact Or.inl ⟨fun id p hp => hp, rfl, hcoh.1.symm⟩
  | asked hs hissue =>
      rw [Call.Coherent, hs] at hcoh
      obtain ⟨-, hid, htool, hdigest, hpending⟩ := ApprovalLedger.issue_eq_some hissue
      exact Or.inr (Or.inl ⟨_, _, hcoh.1, rfl, hcoh.2, htool, hdigest, hid ▸ hpending⟩)
  | refused env hs =>
      rw [Call.Coherent, hs] at hcoh
      refine Or.inl ⟨fun id p hp => ?_, hcoh.2.2.2.symm, rfl⟩
      exact ApprovalLedger.consume_pending _ _ _ (leave_pending hp)
  | cancelledBefore hs haccept | leaked _ hs _ _ _ _ haccept | brokenDirect hs haccept =>
      rw [Call.Coherent, hs] at hcoh
      exact Or.inl ⟨fun id p hp => hconsumed haccept (leave_pending hp), hcoh.2.2.2.symm, rfl⟩
  | begun ha hs haccept | begunDirect ha hs haccept =>
      obtain ⟨d, entry, hd, hentry, hfresh, htool, hdigest, happroved, hspent, hpending⟩ :=
        hbegun haccept
      exact Or.inr (Or.inr ⟨_, d, entry, ha, hd, hentry, hfresh, htool, hdigest, happroved,
        rfl, hd, hspent, hpending⟩)
  | unasked hs | abandoned hs | finished hs | unawaited hs | doneDirect hs =>
      exact Or.inl ⟨fun id p hp => leave_pending hp, rfl, rfl⟩

-- ===== invariant

structure Sys.Booked (s : Sys) : Prop where
  /-- A pending invocation is filed under its id, in the ledger of the
  call it was minted for. -/
  filed : ∀ (e : Nat) (id : PyStr) (p : Pending), (s.ledgers e).pending id = some p →
    p.request.invocationId = id
      ∧ ∃ c, s.calls[p.mintedFor]? = some c ∧ c.executor = e ∧ c.minted = some p.request
  /-- What was minted for a call is the call's. -/
  own : ∀ (i : Nat) (c : Call) (request : InvocationRequest), s.calls[i]? = some c →
    c.minted = some request →
    request.tool = c.args.call.name ∧ request.callDigest = c.args.call.callDigest
  /-- Only what was minted is spent. -/
  minted : ∀ (i : Nat) (c : Call) (o : Nat), s.calls[i]? = some c → c.spent = some o →
    ∃ d, s.calls[o]? = some d ∧ d.minted.isSome = true
  /-- Nothing is spent twice. -/
  once : ∀ (i j : Nat) (c d : Call) (o : Nat), s.calls[i]? = some c → s.calls[j]? = some d →
    c.spent = some o → d.spent = some o → i = j
  /-- What is spent is pending no more. -/
  gone : ∀ (i : Nat) (c : Call) (e : Nat) (id : PyStr) (p : Pending), s.calls[i]? = some c →
    (s.ledgers e).pending id = some p → c.spent ≠ some p.mintedFor

theorem Sys.Fresh.booked (hs : s.Fresh) : s.Booked := by
  constructor <;> simp [hs.calls, hs.ledgers]

theorem Sys.Booked.filed_once (hb : s.Booked) {e e' : Nat} {id id' : PyStr} {p p' : Pending}
    (hp : (s.ledgers e).pending id = some p) (hp' : (s.ledgers e').pending id' = some p')
    (ho : p.mintedFor = p'.mintedFor) : e = e' ∧ id = id' := by
  obtain ⟨hid, c, hc, hexec, hminted⟩ := hb.filed e id p hp
  obtain ⟨hid', c', hc', hexec', hminted'⟩ := hb.filed e' id' p' hp'
  rw [ho, hc'] at hc
  cases hc
  rw [hminted'] at hminted
  have hreq : p'.request = p.request := Option.some.inj hminted
  exact ⟨hexec.symm.trans hexec', by rw [← hid, ← hid', hreq]⟩

theorem after_ledgers (e : Nat) :
    (s.after i c' sh ts).ledgers e = if e = c'.executor then sh.ledger else s.ledgers e := by
  show Function.update s.ledgers c'.executor sh.ledger e = _
  rw [Function.update_apply]

theorem Sys.Booked.call_after (hb : s.Booked) (hbase : s.Base) (hc : s.calls[i]? = some c)
    (hm : Move h a s i c c' sh ts) : (s.after i c' sh ts).Booked := by
  have hcoh := hbase.coherent i c hc
  obtain ⟨hexec, -, hargs⟩ := hm.fixed
  obtain ⟨hkeepspent, hkeepminted⟩ := hm.keeps hcoh
  -- a call that had something minted still has
  have hminted : ∀ (o : Nat) (d : Call), s.calls[o]? = some d → d.minted.isSome = true →
      ∃ d', (s.after i c' sh ts).calls[o]? = some d' ∧ d'.executor = d.executor
        ∧ d'.minted = d.minted := by
    intro o d hd hsome
    by_cases ho : o = i
    · rw [ho, hc] at hd
      cases hd
      obtain ⟨request, hr⟩ := Option.isSome_iff_exists.1 hsome
      exact ⟨c', by rw [ho]; exact after_self hc, hexec, by rw [hkeepminted request hr, hr]⟩
    · exact ⟨d, by rw [after_other ho]; exact hd, rfl, rfl⟩
  have hfiled : ∀ (e : Nat) (id : PyStr) (p : Pending), (s.ledgers e).pending id = some p →
      p.request.invocationId = id ∧ ∃ d, (s.after i c' sh ts).calls[p.mintedFor]? = some d
        ∧ d.executor = e ∧ d.minted = some p.request := by
    intro e id p hp
    obtain ⟨hid, d, hd, hde, hdm⟩ := hb.filed e id p hp
    obtain ⟨d', hd', hde', hdm'⟩ := hminted _ d hd (by rw [hdm]; rfl)
    exact ⟨hid, d', hd', hde'.trans hde, hdm'.trans hdm⟩
  rcases hm.ledger hcoh with ⟨hsub, hspent, hsame⟩
    | ⟨request, now, hnone, hreq, hnospent, htool, hdigest, hpending⟩
    | ⟨env, d₀, entry, -, -, hentry, -, -, -, -, hsame, -, hspent, hpending⟩
  · -- nothing is added to the ledger, nothing is spent
    have hold : ∀ {e : Nat} {id : PyStr} {p : Pending},
        ((s.after i c' sh ts).ledgers e).pending id = some p →
        (s.ledgers e).pending id = some p := by
      intro e id p hp
      rw [after_ledgers] at hp
      split_ifs at hp with he
      · rw [he, hexec]
        exact hsub id p hp
      · exact hp
    constructor
    · exact fun e id p hp => hfiled e id p (hold hp)
    · intro j d request hd hr
      rcases after_calls hd with ⟨-, rfl⟩ | ⟨-, hd⟩
      · rw [hargs]
        exact hb.own i c request hc (hsame ▸ hr)
      · exact hb.own j d request hd hr
    · intro j d o hd ho
      rcases after_calls hd with ⟨-, rfl⟩ | ⟨-, hd⟩
      · obtain ⟨e, he, hsome⟩ := hb.minted i c o hc (hspent ▸ ho)
        obtain ⟨e', he', -, hm'⟩ := hminted o e he hsome
        exact ⟨e', he', hm' ▸ hsome⟩
      · obtain ⟨e, he, hsome⟩ := hb.minted j d o hd ho
        obtain ⟨e', he', -, hm'⟩ := hminted o e he hsome
        exact ⟨e', he', hm' ▸ hsome⟩
    · intro j k d e o hd he ho ho'
      rcases after_calls hd with ⟨rfl, rfl⟩ | ⟨-, hd₀⟩ <;>
        rcases after_calls he with ⟨rfl, rfl⟩ | ⟨-, he₀⟩
      · rfl
      · exact hb.once _ _ c e o hc he₀ (hspent ▸ ho) ho'
      · exact hb.once _ _ d c o hd₀ hc ho (hspent ▸ ho')
      · exact hb.once j k d e o hd₀ he₀ ho ho'
    · intro j d e id p hd hp
      rcases after_calls hd with ⟨-, rfl⟩ | ⟨-, hd⟩
      · rw [hspent]
        exact hb.gone i c e id p hc (hold hp)
      · exact hb.gone j d e id p hd (hold hp)
  · -- an invocation is minted for a call nobody had minted for
    have hold : ∀ {e : Nat} {id : PyStr} {p : Pending},
        ((s.after i c' sh ts).ledgers e).pending id = some p →
        (s.ledgers e).pending id = some p
          ∨ (e = c'.executor ∧ id = request.invocationId ∧ p = ⟨request, now, i⟩) := by
      intro e id p hp
      rw [after_ledgers] at hp
      split_ifs at hp with he
      · rw [hpending] at hp
        rcases Dict.insert_eq_some hp with ⟨hid, hpe⟩ | ⟨-, hp⟩
        · exact Or.inr ⟨he, hid, hpe⟩
        · rw [he, hexec]
          exact Or.inl hp
      · exact Or.inl hp
    have hunspent : ∀ (j : Nat) (d : Call), s.calls[j]? = some d → d.spent ≠ some i := by
      intro j d hd ho
      obtain ⟨e, he, hsome⟩ := hb.minted j d i hd ho
      rw [hc] at he
      cases he
      rw [hnone] at hsome
      cases hsome
    constructor
    · intro e id p hp
      rcases hold hp with hp | ⟨he, hid, rfl⟩
      · exact hfiled e id p hp
      · exact ⟨hid.symm, c', after_self hc, he.symm, hreq⟩
    · intro j d r hd hr
      rcases after_calls hd with ⟨-, rfl⟩ | ⟨-, hd⟩
      · rw [hreq] at hr
        cases hr
        rw [hargs]
        exact ⟨htool, hdigest⟩
      · exact hb.own j d r hd hr
    · intro j d o hd ho
      rcases after_calls hd with ⟨-, rfl⟩ | ⟨-, hd⟩
      · rw [hnospent] at ho
        cases ho
      · obtain ⟨e, he, hsome⟩ := hb.minted j d o hd ho
        obtain ⟨e', he', -, hm'⟩ := hminted o e he hsome
        exact ⟨e', he', hm' ▸ hsome⟩
    · intro j k d e o hd he ho ho'
      rcases after_calls hd with ⟨rfl, rfl⟩ | ⟨-, hd⟩
      · rw [hnospent] at ho
        cases ho
      · rcases after_calls he with ⟨rfl, rfl⟩ | ⟨-, he⟩
        · rw [hnospent] at ho'
          cases ho'
        · exact hb.once j k d e o hd he ho ho'
    · intro j d e id p hd hp
      rcases after_calls hd with ⟨-, rfl⟩ | ⟨-, hd⟩
      · rw [hnospent]
        exact fun h => by cases h
      · rcases hold hp with hp | ⟨-, -, rfl⟩
        · exact hb.gone j d e id p hd hp
        · exact hunspent j d hd
  · -- a pending invocation is spent, and is pending no more
    have hold : ∀ {e : Nat} {id : PyStr} {p : Pending},
        ((s.after i c' sh ts).ledgers e).pending id = some p →
        (s.ledgers e).pending id = some p ∧ p.mintedFor ≠ entry.mintedFor := by
      intro e id p hp
      rw [after_ledgers] at hp
      split_ifs at hp with he
      · rw [hpending] at hp
        obtain ⟨hne, hp⟩ := Dict.erase_eq_some hp
        rw [he, hexec]
        refine ⟨hp, fun ho => hne ?_⟩
        exact (hb.filed_once hp hentry ho).2
      · refine ⟨hp, fun ho => he ?_⟩
        rw [hexec]
        exact (hb.filed_once hp hentry ho).1
    constructor
    · exact fun e id p hp => hfiled e id p (hold hp).1
    · intro j d request hd hr
      rcases after_calls hd with ⟨-, rfl⟩ | ⟨-, hd⟩
      · rw [hargs]
        exact hb.own i c request hc (hsame ▸ hr)
      · exact hb.own j d request hd hr
    · have hsome : ∃ e', (s.after i c' sh ts).calls[entry.mintedFor]? = some e'
          ∧ e'.minted.isSome = true := by
        obtain ⟨-, e, he, -, hme⟩ := hfiled _ _ _ hentry
        exact ⟨e, he, by rw [hme]; rfl⟩
      intro j d o hd ho
      rcases after_calls hd with ⟨-, rfl⟩ | ⟨-, hd⟩
      · rw [hspent] at ho
        cases ho
        exact hsome
      · obtain ⟨e, he, hesome⟩ := hb.minted j d o hd ho
        obtain ⟨e', he', -, hm'⟩ := hminted o e he hesome
        exact ⟨e', he', hm' ▸ hesome⟩
    · intro j k d e o hd he ho ho'
      rcases after_calls hd with ⟨rfl, rfl⟩ | ⟨-, hd₀⟩ <;>
        rcases after_calls he with ⟨rfl, rfl⟩ | ⟨-, he₀⟩
      · rfl
      · rw [hspent] at ho
        cases ho
        exact absurd ho' (hb.gone _ e _ _ _ he₀ hentry)
      · rw [hspent] at ho'
        cases ho'
        exact absurd ho (hb.gone _ d _ _ _ hd₀ hentry)
      · exact hb.once j k d e o hd₀ he₀ ho ho'
    · intro j d e id p hd hp
      obtain ⟨hp, hne⟩ := hold hp
      rcases after_calls hd with ⟨-, rfl⟩ | ⟨-, hd⟩
      · rw [hspent]
        exact fun ho => hne (Option.some.inj ho).symm
      · exact hb.gone j d e id p hd hp

theorem Sys.Booked.step (hb : s.Booked) (hbase : s.Base)
    (hstep : Engine.step h a s = some s') : s'.Booked := by
  rcases step_cases hbase.coherent hstep with ⟨executor, control, args, rfl⟩
    | ⟨i, c, c', sh, ts, hc, hm, rfl⟩ | ⟨t, task, task', -, -, -, rfl⟩ | ⟨k, rc, -, rfl⟩
  · -- a new call has nothing minted and has spent nothing
    constructor
    · intro e id p hp
      obtain ⟨hid, d, hd, hrest⟩ := hb.filed e id p hp
      exact ⟨hid, d, concat_old hd, hrest⟩
    · intro j d request hd hr
      rcases concat_calls hd with ⟨-, rfl⟩ | hd
      · cases hr
      · exact hb.own j d request hd hr
    · intro j d o hd ho
      rcases concat_calls hd with ⟨-, rfl⟩ | hd
      · cases ho
      · obtain ⟨e, he, hsome⟩ := hb.minted j d o hd ho
        exact ⟨e, concat_old he, hsome⟩
    · intro j k d e o hd he ho ho'
      rcases concat_calls hd with ⟨-, rfl⟩ | hd
      · cases ho
      · rcases concat_calls he with ⟨-, rfl⟩ | he
        · cases ho'
        · exact hb.once j k d e o hd he ho ho'
    · intro j d e id p hd hp
      rcases concat_calls hd with ⟨-, rfl⟩ | hd
      · exact fun ho => by cases ho
      · exact hb.gone j d e id p hd hp
  · exact hb.call_after hbase hc hm
  · exact ⟨hb.filed, hb.own, hb.minted, hb.once, hb.gone⟩
  · exact ⟨hb.filed, hb.own, hb.minted, hb.once, hb.gone⟩

-- ===== binding

/-- A call that spent an approval was answered about its own
invocation. -/
def Sys.Bound (s : Sys) : Prop :=
  ∀ (i : Nat) (c : Call) (o : Nat), s.calls[i]? = some c → c.spent = some o →
    ∃ d request, c.answer = some d ∧ c.minted = some request ∧ d.approved = true
      ∧ d.invocationId = request.invocationId ∧ d.tool = request.tool
      ∧ d.callDigest = request.callDigest

theorem Sys.Bound.step (hbound : s.Bound) (hb : s.Booked) (hbase : s.Base)
    (hhonest : Honest a s) (hstep : Engine.step h a s = some s') : s'.Bound := by
  rcases step_cases hbase.coherent hstep with ⟨executor, control, args, rfl⟩
    | ⟨i, c, c', sh, ts, hc, hm, rfl⟩ | ⟨t, task, task', -, -, -, rfl⟩ | ⟨k, rc, -, rfl⟩
  · intro j d o hd ho
    rcases concat_calls hd with ⟨-, rfl⟩ | hd
    · cases ho
    · exact hbound j d o hd ho
  · intro j d o hd ho
    rcases after_calls hd with ⟨-, rfl⟩ | ⟨-, hd⟩
    · have hcoh := hbase.coherent i c hc
      cases hspent : c.spent with
      | some o' =>
          obtain ⟨e, request, he, hr, hrest⟩ := hbound i c o' hc hspent
          exact ⟨e, request, by rw [((hm.keeps hcoh).1 o' hspent).2, he],
            (hm.keeps hcoh).2 request hr, hrest⟩
      | none =>
          rcases hm.ledger hcoh with ⟨-, hsame, -⟩ | ⟨request, now, -, -, hnospent, -⟩
            | ⟨env, e, entry, ha, he, hentry, hlive, htool, hdigest, happroved, hminted,
              hanswer, -, -⟩
          · rw [hsame, hspent] at ho
            cases ho
          · rw [hnospent] at ho
            cases ho
          · -- the entry the answer names is, the port being honest, the call's own
            subst ha
            have hown := hhonest c e entry hc he hentry hlive htool hdigest happroved
            obtain ⟨hid, c₀, hc₀, -, hminted₀⟩ := hb.filed _ _ _ hentry
            rw [hown, hc] at hc₀
            cases hc₀
            exact ⟨e, entry.request, hanswer, hminted.trans hminted₀, happroved, hid.symm,
              htool, hdigest⟩
    · exact hbound j d o hd ho
  · exact hbound
  · exact hbound

-- ===== runs

theorem reachable_booked {s₀ : Sys} {as : List Action} (hfresh : s₀.Fresh)
    (hrun : run (Engine.step h) as s₀ = some s) : s.Base ∧ s.Booked :=
  run_preserves (P := fun s => s.Base ∧ s.Booked)
    (fun _ _ _ hp hstep => ⟨hp.1.step hstep, hp.2.step hp.1 hstep⟩)
    ⟨hfresh.base, hfresh.booked⟩ hrun

/-- No pending invocation starts two calls; and in every run whose port
never answers one call with an approval that is good for another, the
approval a call started on is its own. -/
theorem approval_bound {s₀ : Sys} {as : List Action} (hfresh : s₀.Fresh)
    (hrun : run (Engine.step h) as s₀ = some s) :
    s.SpentOnce ∧ (Meets (Engine.step h) Honest as s₀ → s.ApprovalBound) := by
  obtain ⟨hbase, hbooked⟩ := reachable_booked hfresh hrun
  constructor
  · intro t u task task' c d ht hu hc hd hne heq
    obtain ⟨c₀, hc₀, hspent, -⟩ := hbase.owned t task ht
    rw [hc] at hc₀
    cases hc₀
    obtain ⟨o, ho⟩ := Option.isSome_iff_exists.1 hspent
    exact hne (hbooked.once _ _ c d o hc hd ho (heq ▸ ho))
  · intro hhonest
    obtain ⟨-, -, hbound⟩ :=
      run_preserves_of (P := fun s => s.Base ∧ s.Booked ∧ s.Bound)
        (fun _ _ _ hc hp hstep =>
          ⟨hp.1.step hstep, hp.2.1.step hp.1 hstep, hp.2.2.step hp.2.1 hp.1 hc hstep⟩)
        hhonest ⟨hfresh.base, hfresh.booked, by intro i c o hc; simp [hfresh.calls] at hc⟩ hrun
    intro t task ht
    obtain ⟨c, hc, hspent, -⟩ := hbase.owned t task ht
    obtain ⟨o, ho⟩ := Option.isSome_iff_exists.1 hspent
    obtain ⟨d, request, hd, hr, happroved, hid, htool, hdigest⟩ := hbound _ c o hc ho
    exact ⟨c, d, request, hc, hd, hr, happroved, hid, htool, hdigest, hbooked.own _ c _ hc hr⟩

-- ===== a system

/-- `git_status` on no arguments, with its digests. -/
def statusCall : ValidatedToolCall where
  callId := "call-1".toList
  name := "git_status".toList
  argumentsJson := "\x7b\x7d".toList
  argumentsDigest := "44136fa355b3678a1146ad16f7e8649e94fb4fc21fe77e8310c060f61caaff8a".toList
  callDigest := "4eddfa3051623f5e46ad356972d55c73bd08981b8036f3b79a9f65c1de63f7a2".toList
  declaredPermissions := {"git.read".toList}
  arguments_ok := by decide
  digest_ok := by decide

/-- A host that knows the digests of `statusCall`, whose texts hold no
secret. -/
def statusHost : Host where
  argumentDigest := fun _ => statusCall.argumentsDigest
  callDigest := fun _ _ => statusCall.callDigest
  isJsonObject := fun json => if json = statusCall.argumentsJson then some true else none
  redact := id
  scrub := none

/-- The registered `git_status`, described truthfully. -/
def statusLookup : Lookup :=
  .found { name := some statusCall.name, permissions := some {"git.read".toList}
           schemaFits := true }

def statusArgs (requestId : Option PyStr) : Arguments where
  call := statusCall
  allowed := [statusCall.name]
  runId := "run-1".toList
  requestId := requestId

def quietSys : Sys where
  ledgers := fun _ => ApprovalLedger.fresh 120 (by decide)
  controls := fun _ => RunControl.create "run-1".toList {} 0

theorem quietSys_fresh : quietSys.Fresh :=
  ⟨fun _ => rfl, fun _ => ⟨"run-1".toList, {}, 0, rfl⟩, rfl, rfl⟩

/-- An approval of the invocation `id` of `statusCall`. -/
def approve (id : PyStr) : ApprovalDecision where
  invocationId := id
  tool := statusCall.name
  callDigest := statusCall.callDigest
  approved := true

/-- Two calls ask for approval, as `invoke-0` and `invoke-1`. -/
def twoAsk : List Action :=
  [.invoke 0 none (statusArgs none), .invoke 0 none (statusArgs none),
    .start 0 ⟨statusLookup, "invoke-0".toList, 0, 0⟩,
    .start 1 ⟨statusLookup, "invoke-1".toList, 0, 0⟩]

/-- Call 0 is answered with an approval of the invocation `id`. -/
def answerFirst (id : PyStr) : Action :=
  .decide 0 ⟨some (approve id), some {"git.read".toList}, 1, 1⟩

/-- An honest port: call 0 is answered about its own invocation. -/
theorem approval_bound_own :
    ∃ s, run (Engine.step statusHost) (twoAsk ++ [answerFirst "invoke-0".toList]) quietSys
        = some s
      ∧ s.tasks.length = 1 ∧ s.SpentOnce ∧ s.ApprovalBound := by
  have hone : (run (Engine.step statusHost) (twoAsk ++ [answerFirst "invoke-0".toList])
      quietSys).map (fun s => s.tasks.length) = some 1 := by
    decide +kernel
  have hmine : ∀ t, run (Engine.step statusHost) twoAsk quietSys = some t →
      Honest (answerFirst "invoke-0".toList) t := by
    intro t ht c d entry hc hd hentry _ _ _ _
    have howner : ((run (Engine.step statusHost) twoAsk quietSys).bind fun s =>
        s.calls[0]?.bind fun c =>
          ((s.ledgers c.executor).pending "invoke-0".toList).map (·.mintedFor)) = some 0 := by
      decide +kernel
    cases hd
    have hentry : (t.ledgers c.executor).pending "invoke-0".toList = some entry := hentry
    rw [ht, Option.bind_some, hc, Option.bind_some, hentry] at howner
    exact Option.some.inj howner
  obtain ⟨s, hs, hlen⟩ := Option.map_eq_some_iff.1 hone
  obtain ⟨honce, hbound⟩ := approval_bound quietSys_fresh hs
  refine ⟨s, hs, hlen, honce, hbound (meets_append ?_ fun t ht => ⟨hmine t ht, fun _ _ => trivial⟩)⟩
  refine meets_of_forall _ fun a ha s => ?_
  simp only [twoAsk, List.mem_cons, List.not_mem_nil, or_false] at ha
  rcases ha with rfl | rfl | rfl | rfl <;> trivial

/-- A port that answers call 0 with an approval of call 1's pending
invocation starts call 0. -/
theorem approval_unbound :
    ¬ ∀ (h : Host) (s₀ s : Sys) (as : List Action), s₀.Fresh →
        run (Engine.step h) as s₀ = some s → s.ApprovalBound ∧ s.SpentOnce := by
  intro hclaim
  have hwrong : ((run (Engine.step statusHost) (twoAsk ++ [answerFirst "invoke-1".toList])
      quietSys).bind fun s => s.tasks[0]?.bind fun task => s.calls[task.owner]?.bind fun c =>
        c.answer.bind fun d => c.minted.map fun r => (d.invocationId, r.invocationId))
          = some ("invoke-1".toList, "invoke-0".toList) := by
    decide +kernel
  obtain ⟨s, hs, hwrong⟩ := Option.bind_eq_some_iff.1 hwrong
  obtain ⟨task, htask, hwrong⟩ := Option.bind_eq_some_iff.1 hwrong
  obtain ⟨c, hc, hwrong⟩ := Option.bind_eq_some_iff.1 hwrong
  obtain ⟨d, hd, hwrong⟩ := Option.bind_eq_some_iff.1 hwrong
  obtain ⟨r, hr, hwrong⟩ := Option.map_eq_some_iff.1 hwrong
  obtain ⟨c', d', r', hc', hd', hr', -, hid, -⟩ := (hclaim _ _ _ _ quietSys_fresh hs).1 0 task htask
  rw [hc] at hc'
  cases hc'
  rw [hd] at hd'
  cases hd'
  rw [hr] at hr'
  cases hr'
  rw [hid, Prod.mk.injEq] at hwrong
  exact absurd (hwrong.1.symm.trans hwrong.2) (by decide)

end Velune.Engine
