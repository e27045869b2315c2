/-
The bookkeeping every invariant of the executor system stands on: a
call's state agrees with its other fields, a task belongs to exactly one
call that spent an approval on it, and a call that waits for a tool
waits for its own task.

The method is the one of the whole system: a lemma says what a move does
to one call (`Move.fixed`, `Move.coherent`), the lookup lemmas say what
is found in the system after it, and the invariant's step is their
combination.
-/
import Velune.Engine.Proofs.Moves

namespace Velune.Engine

open Lib

variable {h : Host} {a : Action} {s s' : Sys} {i : Nat} {c c' : Call} {sh : Shared}
  {ts : List ToolTask}

-- ===== lookups

theorem after_calls {j : Nat} {d : Call} (hd : (s.after i c' sh ts).calls[j]? = some d) :
    (j = i ∧ d = c') ∨ (j ≠ i ∧ s.calls[j]? = some d) := by
  have hset : (s.calls.set i c')[j]? = some d := hd
  rw [List.getElem?_set] at hset
  split_ifs at hset with hij hlt
  · exact Or.inl ⟨hij.symm, (Option.some.inj hset).symm⟩
  · exact Or.inr ⟨fun hji => hij hji.symm, hset⟩

theorem after_self (hc : s.calls[i]? = some c) : (s.after i c' sh ts).calls[i]? = some c' := by
  have hlt : i < s.calls.length := (List.getElem?_eq_some_iff.1 hc).1
  show (s.calls.set i c')[i]? = some c'
  rw [List.getElem?_set, if_pos rfl, if_pos hlt]

theorem after_other {j : Nat} (hj : j ≠ i) :
    (s.after i c' sh ts).calls[j]? = s.calls[j]? := by
  show (s.calls.set i c')[j]? = s.calls[j]?
  rw [List.getElem?_set, if_neg (fun hij => hj hij.symm)]

theorem concat_calls {d e : Call} {j : Nat} (hd : (s.calls ++ [e])[j]? = some d) :
    (j = s.calls.length ∧ d = e) ∨ s.calls[j]? = some d := by
  rw [List.getElem?_append] at hd
  split_ifs at hd with hlt
  · exact Or.inr hd
  · obtain ⟨hj, hd⟩ := List.getElem?_eq_some_iff.1 hd
    rw [List.length_singleton] at hj
    have hje : j = s.calls.length := by omega
    subst hje
    exact Or.inl ⟨rfl, by simpa using hd.symm⟩

theorem concat_old {d e : Call} {j : Nat} (hd : s.calls[j]? = some d) :
    (s.calls ++ [e])[j]? = some d := by
  have hlt : j < s.calls.length := (List.getElem?_eq_some_iff.1 hd).1
  rw [List.getElem?_append_left hlt]
  exact hd

theorem after_tasks_nil {t : Nat} {task : ToolTask}
    (ht : (s.after i c' sh []).tasks[t]? = some task) : s.tasks[t]? = some task := by
  have happ : (s.tasks ++ [])[t]? = some task := ht
  rwa [List.append_nil] at happ

theorem after_tasks {t : Nat} {task new : ToolTask}
    (ht : (s.after i c' sh [new]).tasks[t]? = some task) :
    s.tasks[t]? = some task ∨ (t = s.tasks.length ∧ task = new) := by
  have happ : (s.tasks ++ [new])[t]? = some task := ht
  rw [List.getElem?_append] at happ
  split_ifs at happ with hlt
  · exact Or.inl happ
  · obtain ⟨hlen, heq⟩ := List.getElem?_eq_some_iff.1 happ
    rw [List.length_singleton] at hlen
    have htl : t = s.tasks.length := by omega
    subst htl
    exact Or.inr ⟨rfl, by simpa using heq.symm⟩

theorem after_tasks_old {t : Nat} {task : ToolTask} (ht : s.tasks[t]? = some task) :
    (s.after i c' sh ts).tasks[t]? = some task := by
  have hlt : t < s.tasks.length := (List.getElem?_eq_some_iff.1 ht).1
  show (s.tasks ++ ts)[t]? = some task
  rw [List.getElem?_append_left hlt]
  exact ht

theorem set_tasks {t u : Nat} {task task' : ToolTask}
    (hu : (s.tasks.set t task')[u]? = some task) :
    (u = t ∧ task = task') ∨ (u ≠ t ∧ s.tasks[u]? = some task) := by
  rw [List.getElem?_set] at hu
  split_ifs at hu with htu hlt
  · exact Or.inl ⟨htu.symm, (Option.some.inj hu).symm⟩
  · exact Or.inr ⟨fun hut => htu hut.symm, hu⟩

-- ===== moves

theorem Move.fixed (hm : Move h a s i c c' sh ts) :
    c'.executor = c.executor ∧ c'.control = c.control ∧ c'.args = c.args := by
  cases hm <;> exact ⟨rfl, rfl, rfl⟩

theorem Frame.Of.congr {f : Frame} {d : Call} (hf : f.Of c) (hargs : d.args = c.args)
    (hcontrol : d.control = c.control) (hminted : d.minted = c.minted) : f.Of d :=
  ⟨hargs ▸ hf.call, hargs ▸ hf.key, hminted ▸ hf.minted, hcontrol ▸ hf.claimed⟩

theorem Frame.Of.begun {f : Frame} (hf : f.Of c) : f.begun.Of c :=
  ⟨hf.call, hf.key, hf.minted, hf.claimed⟩

theorem spentBy_isSome {l ledger : ApprovalLedger} {env : DecideEnv}
    (haccept : l.consume env.answer env.approvalNow = (none, ledger)) :
    ∃ d entry, env.answer = some d ∧ l.pending d.invocationId = some entry
      ∧ spentBy l env.answer = some entry.mintedFor := by
  obtain ⟨d, entry, hd, hentry, -⟩ := ApprovalLedger.consume_eq_none haccept
  exact ⟨d, entry, hd, hentry, by simp [spentBy, hd, hentry]⟩

theorem shared_control_isSome : (s.shared c).control.isSome = c.control.isSome := by
  simp [Sys.shared]

theorem shared_control {rc : RunControl ToolExecutionResult}
    (hc : (s.shared c).control = some rc) : ∃ k, c.control = some k ∧ rc = s.controls k := by
  simp only [Sys.shared, Option.map_eq_some_iff] at hc
  obtain ⟨k, hk, rfl⟩ := hc
  exact ⟨k, hk, rfl⟩

theorem Move.coherent (hm : Move h a s i c c' sh ts) (hcoh : c.Coherent) : c'.Coherent := by
  cases hm with
  | asked hs hissue hcontrol =>
      refine ⟨⟨rfl, rfl, ⟨_, rfl, rfl⟩, ?_⟩, rfl, rfl, ?_⟩
      · exact shared_control_isSome
      · rw [Call.Coherent, hs] at hcoh
        exact hcoh.2
  | begun ha hs haccept hc hroom =>
      rw [Call.Coherent, hs] at hcoh
      obtain ⟨k, hk, -⟩ := shared_control hc
      obtain ⟨d, entry, -, -, hspent⟩ := spentBy_isSome haccept
      exact ⟨hcoh.1.begun.congr rfl rfl rfl, rfl, by simp [hk], by simp [hspent]⟩
  | begunDirect ha hs haccept hc =>
      rw [Call.Coherent, hs] at hcoh
      obtain ⟨d, entry, -, -, hspent⟩ := spentBy_isSome haccept
      refine ⟨hcoh.1.begun.congr rfl rfl rfl, rfl, ?_, by simp [hspent]⟩
      have hnone := shared_control_isSome (s := s) (c := c)
      rw [hc] at hnone
      exact Option.isNone_iff_eq_none.1 (by simpa using hnone.symm)
  | doneDirect hs htask hending hstate =>
      rcases hstate with rfl | ⟨r, rfl⟩ <;> trivial
  | _ => trivial

/-- A started call keeps what it spent and the answer it spent; a call
that has asked keeps what was minted for it. -/
theorem Move.keeps (hm : Move h a s i c c' sh ts) (hcoh : c.Coherent) :
    (∀ o, c.spent = some o → c'.spent = some o ∧ c'.answer = c.answer)
      ∧ (∀ request, c.minted = some request → c'.minted = some request) := by
  cases hm with
  | early hs | claimCancelled hs | asked hs =>
      rw [Call.Coherent, hs] at hcoh
      refine ⟨fun o ho => ⟨ho, rfl⟩, fun request hr => ?_⟩
      rw [hcoh.1] at hr
      cases hr
  | refused _ hs | cancelledBefore hs | begun _ hs | leaked _ hs | begunDirect _ hs
  | brokenDirect hs =>
      rw [Call.Coherent, hs] at hcoh
      refine ⟨fun o ho => ?_, fun request hr => hr⟩
      rw [hcoh.2.2.2] at ho
      cases ho
  | _ => exact ⟨fun o ho => ⟨ho, rfl⟩, fun request hr => hr⟩

/-- The tasks a move starts: one at most, the call's own, freshly
awaited, in the call's scope. -/
theorem Move.tasks (hm : Move h a s i c c' sh ts) (hcoh : c.Coherent) :
    (ts = [] ∧ ∀ f t, (∃ r, c'.state = .tool f t r) ∨ c'.state = .direct f t → False)
      ∨ (ts = [{ owner := i, scope := c.control.map fun k => (k, c.args.key) }]
          ∧ c.spent = none ∧ c'.spent.isSome = true
          ∧ ∃ f, (∃ r, c'.state = .tool f s.tasks.length r)
              ∨ c'.state = .direct f s.tasks.length) := by
  cases hm with
  | begun ha hs haccept hc hroom =>
      rw [Call.Coherent, hs] at hcoh
      obtain ⟨d, entry, -, -, hspent⟩ := spentBy_isSome haccept
      refine Or.inr ⟨?_, hcoh.2.2.2, by simp [hspent], _, Or.inl ⟨_, rfl⟩⟩
      rw [hcoh.1.key]
  | begunDirect ha hs haccept hc =>
      rw [Call.Coherent, hs] at hcoh
      obtain ⟨d, entry, -, -, hspent⟩ := spentBy_isSome haccept
      refine Or.inr ⟨?_, hcoh.2.2.2, by simp [hspent], _, Or.inr rfl⟩
      have hnone : c.control = none := by simpa [Sys.shared] using hc
      rw [hnone]
      rfl
  | doneDirect hs htask hending hstate =>
      refine Or.inl ⟨rfl, fun f t hst => ?_⟩
      rcases hstate with rfl | ⟨r, rfl⟩ <;> rcases hst with ⟨r, hst⟩ | hst <;> cases hst
  | _ =>
      refine Or.inl ⟨rfl, fun f t hst => ?_⟩
      rcases hst with ⟨r, hst⟩ | hst <;> cases hst

-- ===== invariant

/-- A call waits for task `t`. -/
def Call.awaits (c : Call) (t : Nat) : Prop :=
  ∃ f, (∃ r, c.state = .tool f t r) ∨ c.state = .direct f t

structure Sys.Base (s : Sys) : Prop where
  coherent : ∀ (i : Nat) (c : Call), s.calls[i]? = some c → c.Coherent
  owned : ∀ (t : Nat) (task : ToolTask), s.tasks[t]? = some task →
    ∃ c, s.calls[task.owner]? = some c ∧ c.spent.isSome = true
      ∧ task.scope = c.control.map fun k => (k, c.args.key)
  awaited : ∀ (i : Nat) (c : Call) (t : Nat), s.calls[i]? = some c → c.awaits t →
    ∃ task, s.tasks[t]? = some task ∧ task.owner = i
  once : ∀ (t u : Nat) (task task' : ToolTask), s.tasks[t]? = some task →
    s.tasks[u]? = some task' → task.owner = task'.owner → t = u
  gated : ∀ (t : Nat) (task : ToolTask), s.tasks[t]? = some task → task.entered = true → task.checkPassed = true

theorem Sys.Fresh.base (hs : s.Fresh) : s.Base := by
  constructor <;> simp [hs.calls, hs.tasks]

theorem Sys.Base.call_after (hb : s.Base) (hc : s.calls[i]? = some c)
    (hm : Move h a s i c c' sh ts) : (s.after i c' sh ts).Base := by
  have hcoh := hb.coherent i c hc
  obtain ⟨hexec, hctl, hargs⟩ := hm.fixed
  constructor
  · intro j d hd
    rcases after_calls hd with ⟨-, rfl⟩ | ⟨-, hd⟩
    · exact hm.coherent hcoh
    · exact hb.coherent j d hd
  · have hold : ∀ (t : Nat) (task : ToolTask), s.tasks[t]? = some task →
        ∃ d, (s.after i c' sh ts).calls[task.owner]? = some d ∧ d.spent.isSome = true
          ∧ task.scope = d.control.map fun k => (k, d.args.key) := by
      intro t task ht
      obtain ⟨d, hd, hspent, hscope⟩ := hb.owned t task ht
      by_cases ho : task.owner = i
      · rw [ho, hc] at hd
        cases hd
        obtain ⟨o, hspent⟩ := Option.isSome_iff_exists.1 hspent
        refine ⟨c', by rw [ho]; exact after_self hc, ?_, ?_⟩
        · rw [((hm.keeps hcoh).1 o hspent).1]
          rfl
        · rw [hctl, hargs]
          exact hscope
      · exact ⟨d, by rw [after_other ho]; exact hd, hspent, hscope⟩
    intro t task ht
    rcases hm.tasks hcoh with ⟨rfl, -⟩ | ⟨rfl, -, hspent, -⟩
    · exact hold t task (after_tasks_nil ht)
    · rcases after_tasks ht with ht | ⟨-, rfl⟩
      · exact hold t task ht
      · exact ⟨c', after_self hc, hspent, by rw [hctl, hargs]⟩
  · intro j d t hd hw
    rcases after_calls hd with ⟨rfl, rfl⟩ | ⟨hji, hd⟩
    · rcases hm.tasks hcoh with ⟨-, hnone⟩ | ⟨rfl, -, -, f, hst⟩
      · obtain ⟨f, hw⟩ := hw
        exact absurd hw (fun hw => hnone f t hw)
      · have hlen : t = s.tasks.length := by
          obtain ⟨g, hw⟩ := hw
          rcases hst with ⟨r, hst⟩ | hst <;> rcases hw with ⟨r', hw⟩ | hw <;>
            rw [hst] at hw <;> cases hw <;> rfl
        subst hlen
        exact ⟨_, List.getElem?_concat_length, rfl⟩
    · obtain ⟨task, ht, ho⟩ := hb.awaited j d t hd hw
      exact ⟨task, after_tasks_old ht, ho⟩
  · -- a call that starts a task has none: it had not spent anything yet
    have hfirst : ∀ (t : Nat) (task : ToolTask), s.tasks[t]? = some task → task.owner = i →
        c.spent = none → False := by
      intro t task ht ho hnone
      obtain ⟨d, hd, hspent, -⟩ := hb.owned t task ht
      rw [ho, hc] at hd
      cases hd
      rw [hnone] at hspent
      cases hspent
    intro t u task task' ht hu ho
    rcases hm.tasks hcoh with ⟨rfl, -⟩ | ⟨rfl, hnone, -⟩
    · exact hb.once t u task task' (after_tasks_nil ht) (after_tasks_nil hu) ho
    · rcases after_tasks ht with ht | ⟨htl, rfl⟩ <;> rcases after_tasks hu with hu | ⟨hul, rfl⟩
      · exact hb.once t u task task' ht hu ho
      · exact absurd hnone (fun hn => hfirst t task ht ho hn)
      · exact absurd hnone (fun hn => hfirst u task' hu ho.symm hn)
      · rw [htl, hul]
  · intro t task ht hentered
    rcases hm.tasks hcoh with ⟨rfl, -⟩ | ⟨rfl, -⟩
    · exact hb.gated t task (after_tasks_nil ht) hentered
    · rcases after_tasks ht with ht | ⟨-, rfl⟩
      · exact hb.gated t task ht hentered
      · cases hentered

/-- A moving task keeps its owner and its scope, and enters its body
only behind its gate. -/
theorem TaskMove.fixed {task task' : ToolTask} (hm : TaskMove task task') :
    task'.owner = task.owner ∧ task'.scope = task.scope
      ∧ ((task.entered = true → task.checkPassed = true) →
          task'.entered = true → task'.checkPassed = true) := by
  cases hm with
  | passed => exact ⟨rfl, rfl, fun _ _ => rfl⟩
  | entered hgate honce => exact ⟨rfl, rfl, fun _ _ => hgate⟩
  | ended ending => exact ⟨rfl, rfl, fun hg => hg⟩

theorem Sys.Base.step (hb : s.Base) (hstep : Engine.step h a s = some s') : s'.Base := by
  rcases step_cases hb.coherent hstep with ⟨executor, control, args, rfl⟩
    | ⟨i, c, c', sh, ts, hc, hm, rfl⟩ | ⟨t, task, task', ht, -, hm, rfl⟩ | ⟨k, rc, -, rfl⟩
  · constructor
    · intro j d hd
      rcases concat_calls hd with ⟨-, rfl⟩ | hd
      · exact ⟨rfl, rfl⟩
      · exact hb.coherent j d hd
    · intro t task ht
      obtain ⟨d, hd, hrest⟩ := hb.owned t task ht
      exact ⟨d, concat_old hd, hrest⟩
    · intro j d t hd hw
      rcases concat_calls hd with ⟨-, rfl⟩ | hd
      · obtain ⟨f, ⟨r, hw⟩ | hw⟩ := hw <;> cases hw
      · exact hb.awaited j d t hd hw
    · exact hb.once
    · exact hb.gated
  · exact hb.call_after hc hm
  · obtain ⟨howner, hscope, hgate⟩ := hm.fixed
    have hold : ∀ {u : Nat} {task₁ : ToolTask}, (s.tasks.set t task')[u]? = some task₁ →
        ∃ task₀, s.tasks[u]? = some task₀ ∧ task₁.owner = task₀.owner
          ∧ task₁.scope = task₀.scope := by
      intro u task₁ hu
      rcases set_tasks hu with ⟨rfl, rfl⟩ | ⟨-, hu⟩
      · exact ⟨task, ht, howner, hscope⟩
      · exact ⟨task₁, hu, rfl, rfl⟩
    constructor
    · exact hb.coherent
    · intro u task₁ hu
      obtain ⟨task₀, hu, ho, hsc⟩ := hold hu
      obtain ⟨d, hd, hspent, hscope⟩ := hb.owned u task₀ hu
      exact ⟨d, ho ▸ hd, hspent, hsc ▸ hscope⟩
    · intro j d u hd hw
      obtain ⟨task₀, hu, ho⟩ := hb.awaited j d u hd hw
      by_cases hut : u = t
      · subst hut
        rw [ht] at hu
        cases hu
        refine ⟨task', ?_, howner.trans ho⟩
        have hlt := (List.getElem?_eq_some_iff.1 ht).1
        show (s.tasks.set u task')[u]? = _
        rw [List.getElem?_set, if_pos rfl, if_pos hlt]
      · refine ⟨task₀, ?_, ho⟩
        show (s.tasks.set t task')[u]? = _
        rw [List.getElem?_set, if_neg (fun htu => hut htu.symm), hu]
    · intro u v task₁ task₂ hu hv ho
      obtain ⟨t₁, hu, ho₁, -⟩ := hold hu
      obtain ⟨t₂, hv, ho₂, -⟩ := hold hv
      exact hb.once u v t₁ t₂ hu hv (ho₁ ▸ ho₂ ▸ ho)
    · intro u task₁ hu hentered
      rcases set_tasks hu with ⟨rfl, rfl⟩ | ⟨-, hu⟩
      · exact hgate (hb.gated u task ht) hentered
      · exact hb.gated u task₁ hu hentered
  · exact ⟨hb.coherent, hb.owned, hb.awaited, hb.once, hb.gated⟩

end Velune.Engine
