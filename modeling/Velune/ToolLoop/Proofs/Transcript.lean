/-
The transcript of a run of the tool loop.

Between turns a conversation is the request's messages and one block a
turn (`Turn.messages`): the assistant's calls, then their results, in
order. `AtTurn` says so of the state, with what goes with it: the log of
invocations is that of the turns, no failed call was executed again, the
repeats are counted, the gate holds no batch approval. `answerCalls_spec`
is the induction over the calls of one turn, `callTurn_spec` the step
from one turn to the next, `turns_spec` the induction on the turns left.

What runs between two steps of the loop is the environment's and touches
none of this but the world and the gate, which is what `Run.core` leaves
out.
-/
import Velune.ToolLoop.Runner

namespace Velune.ToolLoop

open Lib
open Lib.Eff (Triple)
open Permissions (PermissionGate)

variable {ω : Type} {env : Env ω}

-- ===== vocabulary

/-- A turn with calls: what the model said and asked for, and how each
call was answered. -/
structure Turn where
  response : InferenceResponse
  entries : List Logged
  calling : response.toolCalls ≠ []
  paired : entries.map (·.invocation.call) = response.toolCalls

/-- A turn's messages: the calls, then the results, one for each call and
in the order of the calls. -/
def Turn.messages (env : Env ω) (turn : Turn) : List Message :=
  assistantToolMessage env turn.response :: turn.entries.map fun l => resultMessage l.invocation

def transcript (env : Env ω) (request : List Json) (ts : List Turn) : List Message :=
  request.map .given ++ ts.flatMap (Turn.messages env)

def repeats (log : List Logged) : Nat := (log.filter fun l => !l.executed).length

/-- No call was executed after one of the same name and arguments had
produced an error. -/
def NoRerun (env : Env ω) (log : List Logged) : Prop :=
  ∀ before l after, log = before ++ l :: after → l.executed = true →
    ∀ earlier ∈ before, earlier.invocation.error = true →
      callKey env earlier.invocation.call ≠ callKey env l.invocation.call

def NoBatch (gate : Option PermissionGate) : Prop :=
  ∀ g ∈ gate, g.preapproved = ∅ ∧ g.prerejected = ∅

structure Core where
  messages : List Message
  log : List Logged
  failedCalls : List (PyStr × PyStr)
  repeated : Nat
  sent : List Sent

def Run.core (run : Run ω) : Core :=
  ⟨run.messages, run.log, run.failedCalls, run.repeated, run.sent⟩

/-- The books over the log: every failure is noted, every repeat is
counted, and none was executed again. -/
structure Booked (env : Env ω) (c : Core) : Prop where
  noted : ∀ l ∈ c.log, l.invocation.error = true → callKey env l.invocation.call ∈ c.failedCalls
  counted : c.repeated = repeats c.log
  noRerun : NoRerun env c.log

-- ===== environment

/-- What does not speak of the world survives a step of the
environment. -/
theorem world_keeps {α : Type} {f : ω → Except Raised α × ω}
    {onError : Raised → Eff (Run ω) Raised α} {I : Run ω → Prop} {Q : α → Prop}
    (hI : ∀ s w, I s → I { s with world := w }) (hQ : ∀ a, Q a)
    (hE : ∀ e, Triple I (onError e) (fun a s => I s ∧ Q a) fun _ s => I s) :
    Triple I (world f onError) (fun a s => I s ∧ Q a) fun _ s => I s := by
  unfold world
  refine Triple.bind (Triple.modifyGet (Q := fun _ s => I s) fun s hs => hI s _ hs) fun answer => ?_
  cases answer with
  | ok a => exact Triple.pure fun s hs => ⟨hs, hQ a⟩
  | error e => exact hE e

theorem pure_keeps {α : Type} {I : Run ω → Prop} {Q : α → Prop} {a : α} (h : Q a) :
    Triple I (pure a : Eff (Run ω) Raised α) (fun a s => I s ∧ Q a) fun _ s => I s :=
  Triple.pure fun _ hs => ⟨hs, h⟩

theorem throw_keeps {α : Type} {I : Run ω → Prop} {Q : α → Prop} {e : Raised} :
    Triple I (throw e : Eff (Run ω) Raised α) (fun a s => I s ∧ Q a) fun _ s => I s :=
  Triple.throw fun _ hs => hs

theorem runRouted_core (target : Target) (call : ToolCall) (c : Core) :
    Triple (fun s => s.core = c) (runRouted env target call)
      (fun invocation s => s.core = c ∧ invocation.call = call) fun _ s => s.core = c := by
  unfold runRouted
  refine Triple.bind (Triple.modifyGet (Q := fun _ s => s.core = c) fun s hs => hs) fun ended => ?_
  cases ended with
  | value text => exact pure_keeps rfl
  | blocked text => exact pure_keeps rfl
  | raised typeName text => exact pure_keeps rfl
  | cancelled => exact throw_keeps

theorem callPermissions_core (target : Target) (c : Core) :
    Triple (fun s => s.core = c) (callPermissions env target)
      (fun _ s => s.core = c ∧ True) fun _ s => s.core = c := by
  cases target with
  | «local» tool => exact world_keeps (fun _ _ hs => hs) (fun _ => trivial) fun e => throw_keeps
  | mcp qualified => exact pure_keeps trivial

/-- Executing a call changes the world and the gate only, and answers
that call. -/
theorem executeCall_core (call : ToolCall) (c : Core) :
    Triple (fun s => s.core = c) (executeCall env call)
      (fun invocation s => s.core = c ∧ invocation.call = call) fun _ s => s.core = c := by
  unfold executeCall
  refine Triple.bind (Triple.get (Q := fun _ s => s.core = c) fun s hs => hs) fun run => ?_
  cases run.built.route call.name with
  | none => exact pure_keeps rfl
  | some target =>
      refine Triple.bind (callPermissions_core target c) fun permissions => Triple.of_fact fun _ => ?_
      refine Triple.bind (Q := fun _ s => s.core = c ∧ True) ?_ fun approved => Triple.of_fact fun _ => ?_
      · refine world_keeps (fun _ _ hs => hs) (fun _ => trivial) fun e => ?_
        cases e with
        | cancelled => exact throw_keeps
        | exception text => exact pure_keeps trivial
      · exact Triple.ite (fun _ => runRouted_core target call c) fun _ => pure_keeps rfl

/-- Asking the gate about the batch changes the gate, unless it
raises. -/
theorem preauthorizeBatch_core (calls : List ToolCall) (c : Core) (g : Option PermissionGate) :
    Triple (fun s => s.core = c ∧ s.gate = g) (preauthorizeBatch env calls) (fun _ s => s.core = c)
      fun _ s => s.core = c ∧ s.gate = g := by
  unfold preauthorizeBatch
  refine Triple.bind (Triple.get (Q := fun _ s => s.core = c ∧ s.gate = g) fun s hs => hs)
    fun run => ?_
  cases run.gate with
  | none => exact Triple.pure fun _ hs => hs.1
  | some gate =>
      refine Triple.ite (fun _ => Triple.pure fun _ hs => hs.1) fun _ => ?_
      refine Triple.ite (fun _ => Triple.pure fun _ hs => hs.1) fun _ => ?_
      refine Triple.bind (Q := fun _ s => (s.core = c ∧ s.gate = g) ∧ True) ?_ fun reply =>
        Triple.of_fact fun _ => ?_
      · refine world_keeps (fun _ _ hs => hs) (fun _ => trivial) fun e => ?_
        cases e with
        | cancelled => exact throw_keeps
        | exception text => exact pure_keeps trivial
      · exact Triple.update fun _ hs => hs.1

-- ===== books

theorem repeats_append (a b : List Logged) : repeats (a ++ b) = repeats a + repeats b := by
  simp [repeats, List.filter_append]

theorem NoRerun.append {log : List Logged} {l : Logged} (h : NoRerun env log)
    (hl : l.executed = true → ∀ earlier ∈ log, earlier.invocation.error = true →
      callKey env earlier.invocation.call ≠ callKey env l.invocation.call) :
    NoRerun env (log ++ [l]) := by
  intro before x after hsplit hx
  rcases List.append_eq_append_iff.1 hsplit with ⟨mid, hb, hm⟩ | ⟨mid, hb, hm⟩
  · cases mid with
    | nil =>
        cases hm
        rw [List.append_nil] at hb
        exact hb ▸ hl hx
    | cons y mid =>
        have hnil := (List.cons.inj hm).2
        simp at hnil
  · cases mid with
    | nil =>
        cases hm
        rw [List.append_nil] at hb
        exact hb ▸ hl hx
    | cons y mid =>
        cases hm
        exact h before x mid hb hx

theorem Booked.answered {c c' : Core} {l : Logged} (h : Booked env c)
    (hlog : c'.log = c.log ++ [l]) (hsub : c.failedCalls ⊆ c'.failedCalls)
    (hnoted : l.invocation.error = true → callKey env l.invocation.call ∈ c'.failedCalls)
    (hcount : c'.repeated = c.repeated + if l.executed then 0 else 1)
    (hnew : l.executed = true → callKey env l.invocation.call ∉ c.failedCalls) : Booked env c' where
  noted x hx herr := by
    rw [hlog] at hx
    rcases List.mem_append.1 hx with hx | hx
    · exact hsub (h.noted x hx herr)
    · cases List.mem_singleton.1 hx
      exact hnoted herr
  counted := by
    rw [hcount, h.counted, hlog, repeats_append]
    cases hl : l.executed <;> simp [repeats, hl]
  noRerun := by
    rw [hlog]
    refine h.noRerun.append fun hl earlier hmem herr heq => hnew hl ?_
    exact heq ▸ h.noted earlier hmem herr

/-- The state with an entry in the log and its result in the
conversation. -/
def Core.answered (c : Core) (l : Logged) : Core :=
  { c with log := c.log ++ [l], messages := c.messages ++ [resultMessage l.invocation] }

structure Answering (env : Env ω) (call : ToolCall) (c c' : Core) (l : Logged) : Prop where
  messages : c'.messages = c.messages
  log : c'.log = c.log
  sent : c'.sent = c.sent
  call : l.invocation.call = call
  booked : Booked env (c'.answered l)

theorem noteFailure_spec (invocation : ToolInvocation) {c : Core} (h : Booked env c)
    (hnew : callKey env invocation.call ∉ c.failedCalls) :
    Triple (fun s => s.core = c) (noteFailure env invocation)
      (fun _ s => Answering env invocation.call c s.core ⟨invocation, true⟩) fun _ s => s.core = c := by
  unfold noteFailure
  refine Triple.ite (fun herr => ?_) fun herr => ?_
  · refine Triple.update fun s hs => ?_
    have hcore : ({ s with failedCalls := callKey env invocation.call :: s.failedCalls } : Run ω).core
        = { c with failedCalls := callKey env invocation.call :: c.failedCalls } := by
      rw [← hs]
      rfl
    rw [hcore]
    exact ⟨rfl, rfl, rfl, rfl, h.answered rfl (List.subset_cons_self _ _)
      (fun _ => List.mem_cons_self) rfl fun _ => hnew⟩
  · refine Triple.pure fun s hs => ?_
    rw [hs]
    exact ⟨rfl, rfl, rfl, rfl, h.answered rfl (fun _ hk => hk) (fun h => absurd h herr) rfl
      fun _ => hnew⟩

/-- Answering a call: it is executed if it did not fail before, and the
books stay right. -/
theorem answerCall_spec (call : ToolCall) {c : Core} (h : Booked env c) :
    Triple (fun s => s.core = c) (answerCall env call)
      (fun l s => Answering env call c s.core l) fun _ s => s.core = c := by
  unfold answerCall
  refine Triple.bind (Triple.get (Q := fun run s => s.core = c ∧ run.core = c)
    fun s hs => ⟨hs, hs⟩) fun run => Triple.of_fact fun hrun => ?_
  have hfailed : run.failedCalls = c.failedCalls := congrArg Core.failedCalls hrun
  rw [hfailed]
  refine Triple.ite (fun hmem => ?_) fun hmem => ?_
  · refine Triple.bind (Triple.update
      (Q := fun _ s => s.core = { c with repeated := c.repeated + 1 }) ?_) fun _ => ?_
    · intro s hs
      rw [← hs]
      rfl
    · refine Triple.pure fun s hs => ?_
      rw [hs]
      exact ⟨rfl, rfl, rfl, rfl, h.answered rfl (fun _ hk => hk) (fun _ => hmem) rfl
        fun hx => absurd hx Bool.false_ne_true⟩
  · refine Triple.bind (executeCall_core call c) fun invocation => Triple.of_fact fun hcall => ?_
    subst hcall
    exact Triple.bind (noteFailure_spec invocation h hmem) fun _ => Triple.pure fun _ hs => hs

theorem answerCalls_spec : ∀ (calls : List ToolCall) {c : Core}, Booked env c →
    Triple (fun s => s.core = c) (answerCalls env calls)
      (fun _ s => ∃ entries : List Logged, entries.map (·.invocation.call) = calls
        ∧ s.core.messages = c.messages ++ entries.map (fun l => resultMessage l.invocation)
        ∧ s.core.log = c.log ++ entries ∧ s.core.sent = c.sent ∧ Booked env s.core)
      fun _ s => s.core.sent = c.sent ∧ NoRerun env s.core.log
  | [], c, h => by
      refine Triple.pure fun s hs => ?_
      rw [hs]
      exact ⟨[], rfl, by simp, by simp, rfl, h⟩
  | call :: rest, c, h => by
      unfold answerCalls
      refine Triple.bind ((answerCall_spec call h).conseq (fun _ hs => hs) (fun _ _ hq => hq)
        fun _ s hs => by rw [hs]; exact ⟨rfl, h.noRerun⟩) fun l => ?_
      refine Triple.of_state fun s₀ hans => ?_
      have hbooked := hans.booked
      refine Triple.bind (Triple.update (Q := fun _ s => s.core = s₀.core.answered l) ?_) fun _ => ?_
      · rintro s rfl
        rfl
      · refine (answerCalls_spec rest hbooked).conseq (fun _ hs => hs) ?_ ?_
        · rintro _ s ⟨entries, hcalls, hmsgs, hlog, hsent, hb⟩
          refine ⟨l :: entries, ?_, ?_, ?_, ?_, hb⟩
          · rw [List.map_cons, hcalls, hans.call]
          · rw [hmsgs, Core.answered, hans.messages, List.map_cons, List.append_assoc]
            rfl
          · rw [hlog, Core.answered, hans.log, List.append_assoc]
            rfl
          · rw [hsent, Core.answered, hans.sent]
        · rintro _ s ⟨hsent, hno⟩
          refine ⟨?_, hno⟩
          rw [hsent, Core.answered, hans.sent]

-- ===== turns

def entriesOf (ts : List Turn) : List Logged := ts.flatMap (·.entries)

/-- What each model call was sent: the conversation after the turns
before it, under a gate without batch approval, fewer than three repeated
failures so far. -/
def SentFine (env : Env ω) (request : List Json) (ts : List Turn) (sent : List Sent) : Prop :=
  ∀ i x, sent[i]? = some x → NoBatch x.gate ∧
    ∃ before after, ts = before ++ after ∧ before.length = i ∧
      x.messages = transcript env request before
        ∧ repeats (entriesOf before) < MAX_REPEATED_FAILURES

structure AtTurn (env : Env ω) (request : List Json) (ts : List Turn) (s : Run ω) : Prop where
  messages : s.messages = transcript env request ts
  log : s.log = entriesOf ts
  booked : Booked env s.core
  noBatch : NoBatch s.gate
  sent : SentFine env request ts s.sent
  calls : s.sent.length = ts.length

/-- A run that raised: what it sent was fine, no failed call was executed
again, and no batch approval is left. -/
structure Broken (env : Env ω) (request : List Json) (bound : Nat) (s : Run ω) : Prop where
  sent : ∃ ts, SentFine env request ts s.sent
  noRerun : NoRerun env s.log
  noBatch : NoBatch s.gate
  calls : s.sent.length ≤ bound

structure Returned (env : Env ω) (request : List Json) (bound : Nat) (result : ToolLoopResult)
    (s : Run ω) : Prop where
  noRerun : NoRerun env s.log
  noBatch : NoBatch s.gate
  /-- One model call a turn, and not too many. -/
  turns : result.turns = s.sent.length
  calls : s.sent.length ≤ bound
  /-- The conversation is the request's messages, the turns' and at most
  one text at the end; the invocations are those of the turns. -/
  shape : ∃ ts last, SentFine env request ts s.sent
    ∧ result.messages = transcript env request ts ++ last
    ∧ (last = [] ∨ ∃ content, last = [.assistant content])
    ∧ result.invocations = (entriesOf ts).map (·.invocation)
    ∧ s.log = entriesOf ts
    -- the third repeated failure ends the run on its turn
    ∧ (MAX_REPEATED_FAILURES ≤ repeats (entriesOf ts) ↔ result.stopReason = .repeatedFailure)
    ∧ (result.stopReason = .repeatedFailure → last = [] ∧ s.sent.length = ts.length)

variable {request : List Json} {ts : List Turn} {bound : Nat}

theorem SentFine.extend {sent : List Sent}
    (h : SentFine env request ts sent) (t : Turn) : SentFine env request (ts ++ [t]) sent := by
  intro i x hx
  obtain ⟨hgate, before, after, hts, hlen, hmsgs, hrep⟩ := h i x hx
  refine ⟨hgate, before, after ++ [t], ?_, hlen, hmsgs, hrep⟩
  rw [hts, List.append_assoc]

theorem SentFine.call {s : Run ω}
    (h : AtTurn env request ts s) (hrep : repeats (entriesOf ts) < MAX_REPEATED_FAILURES) :
    SentFine env request ts (s.sent ++ [⟨s.messages, s.gate⟩]) := by
  intro i x hx
  by_cases hi : i < s.sent.length
  · rw [List.getElem?_append_left hi] at hx
    exact h.sent i x hx
  · rw [List.getElem?_append_right (Nat.le_of_not_lt hi)] at hx
    obtain ⟨hzero, rfl⟩ : i - s.sent.length = 0 ∧ x = ⟨s.messages, s.gate⟩ := by
      cases hsub : i - s.sent.length with
      | zero =>
          rw [hsub] at hx
          cases hx
          exact ⟨rfl, rfl⟩
      | succ n =>
          rw [hsub] at hx
          cases hx
    refine ⟨h.noBatch, ts, [], (List.append_nil ts).symm, ?_, h.messages, hrep⟩
    have hcalls := h.calls
    omega

/-- The model call: it is sent the conversation so far, and changes
nothing else of the loop's state. -/
theorem inferTurn_spec {s₀ : Run ω}
    (h : AtTurn env request ts s₀) (hrep : repeats (entriesOf ts) < MAX_REPEATED_FAILURES)
    (hbound : s₀.sent.length < bound) (tools : List Definition) (turn : Nat) :
    Triple (fun s => s = s₀) (inferTurn env tools turn)
      (fun _ s => s.core = { s₀.core with sent := s₀.sent ++ [⟨s₀.messages, s₀.gate⟩] }
        ∧ s.gate = s₀.gate)
      fun _ s => Broken env request bound s := by
  unfold inferTurn
  refine Triple.bind (Triple.get (Q := fun run s => s = s₀ ∧ run = s₀)
    fun s hs => ⟨hs, hs⟩) fun run => Triple.of_fact fun hrun => ?_
  subst hrun
  have hI : ∀ e : Raised, Triple
      (fun s : Run ω => s.core = { run.core with sent := run.sent ++ [⟨run.messages, run.gate⟩] }
        ∧ s.gate = run.gate) (throw e : Eff (Run ω) Raised InferenceResponse)
      (fun _ s => (s.core = { run.core with sent := run.sent ++ [⟨run.messages, run.gate⟩] }
        ∧ s.gate = run.gate) ∧ True)
      fun _ s => s.core = { run.core with sent := run.sent ++ [⟨run.messages, run.gate⟩] }
        ∧ s.gate = run.gate := fun e => throw_keeps
  refine Triple.bind (Triple.update (Q := fun _ s =>
    s.core = { run.core with sent := run.sent ++ [⟨run.messages, run.gate⟩] } ∧ s.gate = run.gate) ?_)
    fun _ => ?_
  · rintro s rfl
    exact ⟨rfl, rfl⟩
  · refine Triple.bind ((world_keeps (fun _ _ hs => hs) (fun _ => trivial) hI).conseq
      (fun _ hs => hs) (fun _ _ hq => hq) ?_) fun response => Triple.of_fact fun _ => ?_
    · rintro _ s ⟨hcore, hgate⟩
      have hsent : s.sent = run.sent ++ [⟨run.messages, run.gate⟩] := congrArg Core.sent hcore
      have hlog : s.log = run.log := congrArg Core.log hcore
      refine ⟨⟨ts, ?_⟩, ?_, ?_, ?_⟩
      · rw [hsent]
        exact SentFine.call h hrep
      · rw [hlog]
        exact h.booked.noRerun
      · rw [hgate]
        exact h.noBatch
      · rw [hsent, List.length_append]
        exact hbound
    · exact Triple.bind (Triple.update (Q := fun _ s =>
        s.core = { run.core with sent := run.sent ++ [⟨run.messages, run.gate⟩] }
          ∧ s.gate = run.gate) fun _ hs => hs) fun _ => Triple.pure fun _ hs => hs

/-- Whatever the loop's own state was, clearing leaves it, and no batch
approval. -/
theorem clearBatch_spec {I : Core → Prop} {E : Raised → Run ω → Prop} :
    Triple (fun s => I s.core) clearBatch (fun _ s => I s.core ∧ NoBatch s.gate) E := by
  refine Triple.update fun s hs => ⟨hs, ?_⟩
  intro g hg
  cases hgate : s.gate with
  | none =>
      rw [hgate] at hg
      cases hg
  | some gate =>
      rw [hgate] at hg
      cases hg
      exact ⟨rfl, rfl⟩

/-- The calls of a turn, and the batch approval gone however they
ended. -/
theorem answerThenClear_spec (calls : List ToolCall) {c : Core} (h : Booked env c) :
    Triple (fun s => s.core = c) (answerThenClear env calls)
      (fun _ s => (∃ entries : List Logged, entries.map (·.invocation.call) = calls
        ∧ s.core.messages = c.messages ++ entries.map (fun l => resultMessage l.invocation)
        ∧ s.core.log = c.log ++ entries ∧ s.core.sent = c.sent ∧ Booked env s.core)
        ∧ NoBatch s.gate)
      fun _ s => (s.core.sent = c.sent ∧ NoRerun env s.core.log) ∧ NoBatch s.gate := by
  unfold answerThenClear
  refine Triple.bind (Triple.tryCatch (answerCalls_spec calls h) fun e => ?_) fun _ => ?_
  · have hclear := clearBatch_spec (ω := ω) (E := fun _ _ => False)
      (I := fun core => core.sent = c.sent ∧ NoRerun env core.log)
    refine Triple.bind (hclear.conseq (fun _ hs => hs) (fun _ _ hq => hq) ?_) fun _ =>
      Triple.throw fun _ hs => hs
    exact fun _ _ hfalse => hfalse.elim
  · exact clearBatch_spec (I := fun core => ∃ entries : List Logged,
      entries.map (·.invocation.call) = calls
        ∧ core.messages = c.messages ++ entries.map (fun l => resultMessage l.invocation)
        ∧ core.log = c.log ++ entries ∧ core.sent = c.sent ∧ Booked env core)

structure Called (env : Env ω) (request : List Json) (ts : List Turn) (bound : Nat) (s : Run ω) :
    Prop where
  messages : s.messages = transcript env request ts
  log : s.log = entriesOf ts
  booked : Booked env s.core
  noBatch : NoBatch s.gate
  sent : SentFine env request ts s.sent
  calls : s.sent.length = ts.length + 1
  bounded : s.sent.length ≤ bound

theorem inferTurn_called
    (hrep : repeats (entriesOf ts) < MAX_REPEATED_FAILURES) (hbound : ts.length < bound)
    (tools : List Definition) (turn : Nat) :
    Triple (AtTurn env request ts) (inferTurn env tools turn)
      (fun _ s => Called env request ts bound s) fun _ s => Broken env request bound s := by
  refine Triple.of_state fun s₀ h => ?_
  have hlt : s₀.sent.length < bound := h.calls ▸ hbound
  refine (inferTurn_spec h hrep hlt tools turn).conseq (fun _ hs => hs) ?_ fun _ _ he => he
  rintro _ s ⟨hcore, hgate⟩
  have hsent : s.sent = s₀.sent ++ [⟨s₀.messages, s₀.gate⟩] := congrArg Core.sent hcore
  have hmessages : s.messages = s₀.messages := congrArg Core.messages hcore
  have hlog : s.log = s₀.log := congrArg Core.log hcore
  have hlength : s.sent.length = ts.length + 1 := by
    rw [hsent, List.length_append, h.calls]
    rfl
  refine ⟨hmessages.trans h.messages, hlog.trans h.log, ?_, hgate ▸ h.noBatch, ?_, hlength, ?_⟩
  · rw [hcore]
    exact ⟨h.booked.noted, h.booked.counted, h.booked.noRerun⟩
  · rw [hsent]
    exact SentFine.call h hrep
  · rw [hlength]
    exact hbound

theorem stop_spec {P : Run ω → Prop} {Q : ToolLoopResult → Run ω → Prop}
    {E : Raised → Run ω → Prop} {content : PyStr} {turn : Nat} {reason : StopReason}
    (h : ∀ s, P s → Q ⟨content, turn, s.invocations, s.tokensUsed, reason, s.messages⟩ s) :
    Triple P (stop content turn reason) Q E := by
  unfold stop
  refine Triple.bind (Triple.get (Q := fun run s => P s ∧ run = s) fun s hs => ⟨hs, rfl⟩)
    fun run => Triple.pure ?_
  rintro s ⟨hs, rfl⟩
  exact h run hs

theorem textTurn_spec
    (hrep : repeats (entriesOf ts) < MAX_REPEATED_FAILURES) (content : PyStr) {reason : StopReason}
    (hreason : reason ≠ .repeatedFailure) {E : Raised → Run ω → Prop} :
    Triple (Called env request ts bound)
      (do
        Eff.update fun run => { run with messages := run.messages ++ [.assistant content] }
        stop content (ts.length + 1) reason)
      (Returned env request bound) E := by
  refine Triple.bind (Triple.update (Q := fun _ s =>
    ∃ s₀, Called env request ts bound s₀ ∧ s.log = s₀.log ∧ s.gate = s₀.gate ∧ s.sent = s₀.sent
      ∧ s.messages = s₀.messages ++ [.assistant content]) ?_) fun _ => stop_spec ?_
  · exact fun s hs => ⟨s, hs, rfl, rfl, rfl, rfl⟩
  · rintro s ⟨s₀, h, hlog, hgate, hsent, hmessages⟩
    have hentries : s.log = entriesOf ts := hlog.trans h.log
    refine ⟨?_, hgate ▸ h.noBatch, ?_, hsent ▸ h.bounded, ts, [.assistant content], hsent ▸ h.sent,
      ?_, Or.inr ⟨content, rfl⟩, ?_, hentries, ⟨fun hle => absurd hle (Nat.not_le_of_lt hrep),
        fun hr => absurd hr hreason⟩, fun hr => absurd hr hreason⟩
    · rw [hlog]
      exact h.booked.noRerun
    · rw [hsent, h.calls]
    · rw [hmessages, h.messages]
    · rw [← hentries]
      rfl

/-- A turn with calls that does not raise adds its block to the
conversation; what follows it starts from there. -/
theorem callTurn_spec {response : InferenceResponse} (hcalls : response.toolCalls ≠ [])
    {rest : Eff (Run ω) Raised ToolLoopResult} {Q : ToolLoopResult → Run ω → Prop}
    (hrest : Triple (fun s => ∃ t, AtTurn env request (ts ++ [t]) s ∧ s.sent.length ≤ bound) rest
      Q fun _ s => Broken env request bound s) :
    Triple (Called env request ts bound)
      (do
        Eff.update fun run =>
          { run with messages := run.messages ++ [assistantToolMessage env response] }
        preauthorizeBatch env response.toolCalls
        answerThenClear env response.toolCalls
        rest)
      Q fun _ s => Broken env request bound s := by
  refine Triple.of_state fun s₀ h => ?_
  let c : Core :=
    { s₀.core with messages := s₀.core.messages ++ [assistantToolMessage env response] }
  have hbooked : Booked env c := ⟨h.booked.noted, h.booked.counted, h.booked.noRerun⟩
  refine Triple.bind (Triple.update (Q := fun _ s => s.core = c ∧ s.gate = s₀.gate) ?_) fun _ => ?_
  · rintro s rfl
    exact ⟨rfl, rfl⟩
  refine Triple.bind ((preauthorizeBatch_core response.toolCalls c s₀.gate).conseq
    (fun _ hs => hs) (fun _ _ hq => hq) ?_) fun _ => ?_
  · rintro _ s ⟨hcore, hgate⟩
    have hsent : s.sent = s₀.sent := congrArg Core.sent hcore
    have hlog : s.log = s₀.log := congrArg Core.log hcore
    refine ⟨⟨ts, hsent ▸ h.sent⟩, ?_, hgate ▸ h.noBatch, hsent ▸ h.bounded⟩
    rw [hlog]
    exact h.booked.noRerun
  refine Triple.bind
    (Q := fun _ s => ∃ t, AtTurn env request (ts ++ [t]) s ∧ s.sent.length ≤ bound) ?_ fun _ => hrest
  refine (answerThenClear_spec response.toolCalls hbooked).conseq (fun _ hs => hs) ?_ ?_
  · rintro _ s ⟨⟨entries, hpaired, hmessages, hlog, hsent, hb⟩, hgate⟩
    have hsent : s.sent = s₀.sent := hsent
    let t : Turn := ⟨response, entries, hcalls, hpaired⟩
    refine ⟨t, ⟨?_, ?_, hb, hgate, ?_, ?_⟩, hsent ▸ h.bounded⟩
    · have hm : s.messages = s₀.messages ++ [assistantToolMessage env response]
          ++ entries.map (fun l => resultMessage l.invocation) := hmessages
      rw [hm, h.messages, transcript, transcript, List.flatMap_append, List.append_assoc,
        List.append_assoc, List.flatMap_singleton]
      rfl
    · have hl : s.log = s₀.log ++ entries := hlog
      rw [hl, h.log, entriesOf, entriesOf, List.flatMap_append, List.flatMap_singleton]
    · rw [hsent]
      exact h.sent.extend t
    · rw [hsent, h.calls, List.length_append]
      rfl
  · rintro _ s ⟨⟨hsent, hno⟩, hgate⟩
    have hsent : s.sent = s₀.sent := hsent
    exact ⟨⟨ts, hsent ▸ h.sent⟩, hno, hgate, hsent ▸ h.bounded⟩

theorem AtTurn.returned {s : Run ω}
    (h : AtTurn env request ts s) (hbound : s.sent.length ≤ bound) (content : PyStr)
    {reason : StopReason}
    (hreason : MAX_REPEATED_FAILURES ≤ repeats (entriesOf ts) ↔ reason = .repeatedFailure) :
    Returned env request bound
      ⟨content, ts.length, s.invocations, s.tokensUsed, reason, s.messages⟩ s := by
  refine ⟨h.booked.noRerun, h.noBatch, h.calls.symm, hbound, ts, [], h.sent, ?_, Or.inl rfl, ?_,
    h.log, hreason, fun _ => ⟨rfl, h.calls⟩⟩
  · rw [List.append_nil]
    exact h.messages
  · rw [← h.log]
    rfl

/-- The run from between two turns on, by induction on the turns left. -/
theorem turns_spec (tools : List Definition) :
    ∀ (left : Nat) (ts : List Turn), repeats (entriesOf ts) < MAX_REPEATED_FAILURES →
      ts.length + left ≤ bound →
      Triple (AtTurn env request ts) (turns env tools left (ts.length + 1))
        (Returned env request bound) fun _ s => Broken env request bound s
  | 0, ts, hrep, hbound => by
      refine stop_spec fun s h => h.returned (h.calls ▸ hbound) [] ?_
      exact ⟨fun hle => absurd hle (Nat.not_le_of_lt hrep), fun heq => by cases heq⟩
  | left + 1, ts, hrep, hbound => by
      unfold turns
      refine Triple.bind (inferTurn_called hrep (by omega) tools _) fun response => ?_
      refine Triple.ite (fun _ => ?_) fun hcalls => ?_
      · refine textTurn_spec hrep response.content ?_
        split
        · exact fun heq => by cases heq
        · exact fun heq => by cases heq
      refine callTurn_spec (fun hnil => hcalls (List.isEmpty_iff.2 hnil)) ?_
      refine Triple.of_state fun s₀ ⟨t, h, hle⟩ => ?_
      have hlength : (ts ++ [t]).length = ts.length + 1 := List.length_append
      have hcounted : s₀.repeated = repeats (entriesOf (ts ++ [t])) := by
        rw [← h.log]
        exact h.booked.counted
      refine Triple.bind (Triple.get (Q := fun run s => s = s₀ ∧ run = s₀)
        fun s hs => ⟨hs, hs⟩) fun run => Triple.of_fact fun hrun => ?_
      subst hrun
      refine Triple.ite (fun hmany => ?_) fun hfew => ?_
      · -- the third repeat was reached on this turn
        refine stop_spec ?_
        rintro s rfl
        have hreturned := h.returned hle repeatedText
          (iff_of_true (hcounted ▸ hmany) (rfl : StopReason.repeatedFailure = .repeatedFailure))
        rw [hlength] at hreturned
        exact hreturned
      · rw [hcounted] at hfew
        have hleft : (ts ++ [t]).length + left ≤ bound := by
          rw [hlength]
          omega
        have hnext : Triple (AtTurn env request (ts ++ [t]))
            (turns env tools left ((ts ++ [t]).length + 1)) (Returned env request bound)
            fun _ s => Broken env request bound s :=
          turns_spec tools left (ts ++ [t]) (Nat.lt_of_not_le hfew) hleft
        rw [hlength] at hnext
        refine hnext.pre ?_
        rintro s rfl
        exact h

-- ===== run

/-- The state `run` starts in. -/
def Run.start (world : ω) (gate : Option PermissionGate) (built : Built) : Run ω where
  world := world
  gate := gate
  built := built

/-- A run of at most `max(1, max_turns)` model calls: its conversation is
well formed whenever the model sees it and when it returns, a failed call
is not executed again, and no batch approval outlives its turn. -/
theorem transcript_wellFormed (env : Env ω) (maxTurns : Int) (fresh : Built)
    (ownTools : Option (List Definition)) (request : List Json) (world : ω)
    (gate : Option PermissionGate) (built : Built) (hgate : NoBatch gate) :
    Eff.Ends (Returned env request (max 1 maxTurns).toNat)
      (fun _ s => Broken env request (max 1 maxTurns).toNat s)
      (runLoop env maxTurns fresh ownTools request (Run.start world gate built)) := by
  have hrun : Triple (fun s => s = Run.start world gate built)
      (runLoop env maxTurns fresh ownTools request)
      (Returned env request (max 1 maxTurns).toNat)
      fun _ s => Broken env request (max 1 maxTurns).toNat s := by
    unfold runLoop
    refine Triple.bind (Triple.update (Q := fun _ s => AtTurn env request [] s) ?_) fun _ => ?_
    · rintro s rfl
      refine ⟨(List.append_nil _).symm, rfl, ⟨?_, rfl, ?_⟩, hgate, ?_, rfl⟩
      · intro l hl
        cases hl
      · intro before l after hsplit
        cases before with
        | nil => cases hsplit
        | cons x before => cases hsplit
      · intro i x hx
        cases hx
    · refine turns_spec _ (max 1 maxTurns).toNat [] ?_ ?_
      · exact Nat.zero_lt_succ 2
      · exact Nat.le_of_eq (Nat.zero_add _)
  exact hrun _ rfl

def plainEnv : Env Unit where
  dumps _ := []
  dumpsSorted _ := []
  redact text := text
  maxResultChars := 1000
  decimal _ := []
  infer _ w := (.ok ⟨"hi".toList, [], 1⟩, w)
  requiredPermissions _ w := (.ok [], w)
  approve _ _ _ w := (.ok true, w)
  describeActions _ _ _ := none
  askBatch _ w := (.ok true, w)
  runTool _ _ gate w := (.value [], gate, w)

theorem transcript_wellFormed_plain :
    Eff.Ends (Returned plainEnv [] 1) (fun _ s => Broken plainEnv [] 1 s)
      (runLoop plainEnv 1 {} none [] (Run.start () none {})) :=
  transcript_wellFormed plainEnv 1 {} none [] () none {} fun _ hg => by cases hg

/-- With `max_turns = 0` there still is a model call. -/
theorem zero_turns_calls :
    ¬ Eff.Ends (fun _ s => (s.sent.length : Int) ≤ 0) (fun _ _ => True)
      (runLoop plainEnv 0 {} none [] (Run.start () none {})) := by
  intro h
  have hone : (1 : Int) ≤ 0 := h
  omega

end Velune.ToolLoop
