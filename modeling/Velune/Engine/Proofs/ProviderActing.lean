/-
One call of `propose` in any surroundings (`propose_kept`): what it has
sent, reserved and waited, what it holds and when it is over.

`Good` is the invariant of every step. It has a part for what can still be
sent: where the call can come to a request once more, fewer than the
allowed number have been sent, and nothing has happened that must be the
last (`Opens`). A call comes to its end because each of its steps takes
something off `rank`, the ones that begin an attempt by counting it.
-/
import Velune.Engine.ProviderActing

namespace Velune.Engine.ProviderActing

open Lib

variable {ρ : Type}

-- ===== vocabulary

def Event.isSend : Event ρ → Bool
  | .send _ => true
  | _ => false

def sends (log : List (Event ρ)) : Nat := log.countP Event.isSend

/-- What must be followed by no request: a denied reservation, a response,
an error that is not retried. -/
def Event.closes : Event ρ → Bool
  | .reserve granted => !granted
  | .answer (.exception e) => !(classifyProviderError e).2
  | .answer _ => true
  | _ => false

def StopsAfter (log : List (Event ρ)) : Prop :=
  log.Pairwise fun e e' => e.closes = true → e'.isSend = false

def ReservedFirst (log : List (Event ρ)) : Prop :=
  ∀ front t back, log = front ++ .send t :: back → front.getLast? = some (.reserve true)

def SentInTime (s : State ρ) : Prop := ∀ t, .send t ∈ s.log → t < s.deadline

def WaitsInTime (s : State ρ) : Prop := ∀ t d, .wait t d ∈ s.log → t + d < s.deadline

def Task.isInRequest : Task ρ → Bool
  | .inRequest => true
  | _ => false

def Phase.isIdle : Phase ρ → Bool
  | .preparing | .top | .handling _ | .sleeping _ => true
  | _ => false

def State.opens (s : State ρ) : Bool :=
  match s.phase, s.task with
  | .preparing, _ | .top, _ | .sleeping _, _ | .waiting, .queued | .waiting, .inRequest => true
  | .waiting, .ended (.exception e) => (classifyProviderError e).2
  | .handling e, _ => (classifyProviderError e).2
  | _, _ => false

def State.hasRoom (s : State ρ) : Bool :=
  match s.phase, s.task with
  | .preparing, _ | .top, _ | .sleeping _, _ | .waiting, .queued => true
  | _, _ => false

structure Good (call : Call) (s : State ρ) : Prop where
  fresh : s.phase = .preparing → s.log = [] ∧ s.attempts = 0
  counted : sends s.log = s.attempts
  bounded : s.attempts ≤ call.maxAttempts
  room : s.hasRoom = true → s.attempts < call.maxAttempts
  opens : s.opens = true → ∀ e ∈ s.log, e.closes = false
  stops : StopsAfter s.log
  held : s.permits = if s.task.isInRequest then 1 else 0
  idle : s.phase.isIdle = true → s.task.isInRequest = false
  waits : WaitsInTime s
  result : ∀ r, s.phase = .returned r → r.attempts = s.attempts

-- ===== logs

theorem sends_append (log more : List (Event ρ)) : sends (log ++ more) = sends log + sends more :=
  List.countP_append

theorem StopsAfter.concat {log : List (Event ρ)} (h : StopsAfter log) {e : Event ρ}
    (he : e.isSend = false) : StopsAfter (log ++ [e]) :=
  List.pairwise_append.2 ⟨h, List.pairwise_singleton _ e, fun a _ b hb _ => by
    rw [List.mem_singleton.1 hb]
    exact he⟩

theorem StopsAfter.of_open {log more : List (Event ρ)} (h : StopsAfter log)
    (hopen : ∀ e ∈ log, e.closes = false) (hmore : StopsAfter more) : StopsAfter (log ++ more) :=
  List.pairwise_append.2 ⟨h, hmore, fun a ha b _ hclose => by
    rw [hopen a ha] at hclose
    cases hclose⟩

theorem ReservedFirst.concat {log : List (Event ρ)} (h : ReservedFirst log) {e : Event ρ}
    (he : e.isSend = false) : ReservedFirst (log ++ [e]) := by
  intro front t back heq
  rcases List.eq_nil_or_concat back with rfl | ⟨back, last, rfl⟩
  · obtain ⟨-, hlast⟩ := List.append_inj' heq rfl
    cases hlast
    cases he
  · rw [List.concat_eq_append, ← List.cons_append, ← List.append_assoc] at heq
    exact h front t back (List.append_inj' heq rfl).1

theorem ReservedFirst.concat_send {log : List (Event ρ)} (h : ReservedFirst log) (t : Rat) :
    ReservedFirst (log ++ [.reserve true, .send t]) := by
  intro front u back heq
  rcases List.eq_nil_or_concat back with rfl | ⟨back, last, rfl⟩
  · rw [show log ++ [.reserve true, .send t] = (log ++ [.reserve true]) ++ [.send t] by simp] at heq
    rw [← (List.append_inj' heq rfl).1]
    simp
  · rw [show log ++ [.reserve true, .send t] = (log ++ [.reserve true]) ++ [.send t] by simp,
      List.concat_eq_append, ← List.cons_append, ← List.append_assoc] at heq
    exact (h.concat rfl) front u back (List.append_inj' heq rfl).1

-- ===== the policy

theorem Call.maxAttempts_pos (call : Call) : 0 < call.maxAttempts := by
  unfold Call.maxAttempts
  split
  next => exact call.policy.attempts_ok.1
  next => exact Nat.one_pos

/-- What the last `except` clause may do. -/
theorem handle_cases (call : Call) (s : State ρ) (e : ProviderException) :
    (e.retryAfter = .huge ∧ s.handle call e = { s with phase := .raised .overflow })
      ∨ (∃ kind, s.handle call e = { s with phase := .returned ⟨.inr kind, s.attempts⟩ })
      ∨ ∃ delay, (classifyProviderError e).2 = true ∧ s.attempts < call.maxAttempts
          ∧ s.now + delay < s.deadline
          ∧ s.handle call e
            = { s with phase := .sleeping (s.now + delay), log := s.log ++ [.wait s.now delay] } := by
  unfold State.handle
  cases hdelay : delayOf e call.policy s.attempts with
  | error u =>
      refine .inl ⟨?_, rfl⟩
      unfold delayOf at hdelay
      split at hdelay
      next => cases hdelay
      next => cases hdelay
      next hhuge => exact hhuge
  | ok found =>
      cases found with
      | none => exact .inr (.inl ⟨_, rfl⟩)
      | some delay =>
          dsimp only
          split
          next => exact .inr (.inl ⟨_, rfl⟩)
          next hgo =>
            simp only [Bool.not_eq_true', not_or, Bool.not_eq_false, not_le] at hgo
            exact .inr (.inr ⟨delay, hgo.1, hgo.2.1, hgo.2.2, rfl⟩)

-- ===== one step

inductive Happens (call : Call) (s : State ρ) : Label ρ → State ρ → Prop
  | tick (d : Rat) : 0 ≤ d → Happens call s (.tick d) { s with now := s.now + d }
  | refused (kind : Rejection) : s.phase = .preparing →
      Happens call s (.prepare (some kind)) { s with phase := .returned ⟨.inr kind, 0⟩ }
  | prepared : s.phase = .preparing →
      Happens call s (.prepare none) { s with phase := .top, deadline := s.now + call.timeoutS }
  | late : s.phase = .top → s.deadline - s.now ≤ 0 →
      Happens call s .turn { s with phase := .returned ⟨.inr .timeout, s.attempts⟩ }
  | turned : s.phase = .top → 0 < s.deadline - s.now →
      Happens call s .turn { s with phase := .waiting, task := .queued }
  | permitted (reservation : Reservation) : s.phase = .waiting → s.task = .queued →
      reservation.suits call.gated = true →
      Happens call s (.permit reservation) (s.guarded reservation)
  | answered (e : Ending ρ) : s.task = .inRequest →
      Happens call s (.answer e)
        { s with task := .ended e, permits := s.permits - 1, log := s.log ++ [.answer e] }
  | unwound (cancelled : Bool) (until_ : Rat) : s.phase = .reaping cancelled until_ →
      s.task = .queued → Happens call s .unwind { s with task := .ended .cancelled }
  | finished (outcome : ρ ⊕ Rejection) : s.phase = .waiting → s.task.isOver = true →
      Happens call s .resume { s with phase := .returned ⟨outcome, s.attempts⟩ }
  | failed (e : ProviderException) : s.phase = .waiting → s.task = .ended (.exception e) →
      Happens call s .resume { s with phase := .handling e }
  | broken (reason : RaisedBy) : s.phase = .waiting → s.task.isOver = true →
      reason ≠ .overflow → Happens call s .resume { s with phase := .raised reason }
  | timeUp : s.phase = .waiting → s.task.isOver = false →
      Happens call s .timeUp { s with phase := .reaping false (s.now + REAP_GRACE_S) }
  | cancelled : s.phase = .waiting →
      Happens call s .cancel { s with phase := .reaping true (s.now + REAP_GRACE_S) }
  | roused (until_ : Rat) : s.phase = .sleeping until_ →
      Happens call s .cancel { s with phase := .raised .cancellation }
  | hurried (cancelled : Bool) (until_ : Rat) : s.phase = .reaping cancelled until_ →
      Happens call s .cancel (s.afterReap cancelled)
  | reaped (cancelled : Bool) (until_ : Rat) : s.phase = .reaping cancelled until_ →
      s.task.isOver = true → Happens call s .reaped (s.afterReap cancelled)
  | gaveUp (cancelled : Bool) (until_ : Rat) : s.phase = .reaping cancelled until_ →
      Happens call s .giveUp (s.afterReap cancelled)
  | handled (e : ProviderException) : s.phase = .handling e →
      Happens call s .handle (s.handle call e)
  | woken (until_ : Rat) : s.phase = .sleeping until_ →
      Happens call s .wake { s with phase := .top, task := .none }

variable {call : Call} {s s' : State ρ}

theorem happens_of_resume (hphase : s.phase = .waiting)
    (hs : s.resume = some s') : Happens call s .resume s' := by
  unfold State.resume at hs
  split at hs
  next htask =>
    cases hs
    exact .finished _ hphase (by rw [htask]; rfl)
  next htask =>
    cases hs
    exact .finished _ hphase (by rw [htask]; rfl)
  next e htask =>
    cases hs
    exact .failed e hphase htask
  next htask =>
    cases hs
    exact .broken _ hphase (by rw [htask]; rfl) (by decide)
  next htask =>
    cases hs
    exact .broken _ hphase (by rw [htask]; rfl) (by decide)
  next => cases hs

theorem happens_of_step {a : Label ρ} (hs : step call a s = some s') : Happens call s a s' := by
  cases a with
  | tick d =>
      obtain ⟨hd, hs⟩ := Option.ite_none_right_eq_some.1 hs
      cases hs
      exact .tick d hd
  | prepare refusal =>
      simp only [step] at hs
      split at hs
      next hphase =>
        cases hs
        exact .refused _ hphase
      next hphase =>
        cases hs
        exact .prepared hphase
      next => cases hs
  | turn =>
      simp only [step] at hs
      split at hs
      next hphase =>
        split at hs
        next hlate =>
          cases hs
          exact .late hphase hlate
        next hlate =>
          cases hs
          exact .turned hphase (not_le.1 hlate)
      next => cases hs
  | permit reservation =>
      simp only [step] at hs
      split at hs
      next hphase hqueued =>
        obtain ⟨hsuits, hs⟩ := Option.ite_none_right_eq_some.1 hs
        cases hs
        exact .permitted reservation hphase hqueued hsuits
      next => cases hs
  | answer e =>
      simp only [step] at hs
      split at hs
      next hrequest =>
        cases hs
        exact .answered e hrequest
      next => cases hs
  | unwind =>
      simp only [step] at hs
      split at hs
      next hphase hqueued =>
        cases hs
        exact .unwound _ _ hphase hqueued
      next => cases hs
  | resume =>
      simp only [step] at hs
      split at hs
      next hphase => exact happens_of_resume hphase hs
      next => cases hs
  | timeUp =>
      simp only [step] at hs
      split at hs
      next hphase =>
        obtain ⟨⟨-, hover⟩, hs⟩ := Option.ite_none_right_eq_some.1 hs
        cases hs
        exact .timeUp hphase (by simpa using hover)
      next => cases hs
  | cancel =>
      simp only [step] at hs
      split at hs
      next hphase =>
        cases hs
        exact .cancelled hphase
      next hphase =>
        cases hs
        exact .roused _ hphase
      next hphase =>
        cases hs
        exact .hurried _ _ hphase
      next => cases hs
  | reaped =>
      simp only [step] at hs
      split at hs
      next hphase =>
        obtain ⟨hover, hs⟩ := Option.ite_none_right_eq_some.1 hs
        cases hs
        exact .reaped _ _ hphase hover
      next => cases hs
  | giveUp =>
      simp only [step] at hs
      split at hs
      next hphase =>
        obtain ⟨-, hs⟩ := Option.ite_none_right_eq_some.1 hs
        cases hs
        exact .gaveUp _ _ hphase
      next => cases hs
  | handle =>
      simp only [step] at hs
      split at hs
      next e hphase =>
        cases hs
        exact .handled e hphase
      next => cases hs
  | wake =>
      simp only [step] at hs
      split at hs
      next until_ hphase =>
        obtain ⟨-, hs⟩ := Option.ite_none_right_eq_some.1 hs
        cases hs
        exact .woken until_ hphase
      next => cases hs

-- ===== the invariant

section Good

variable (h : Good call s)

include h

theorem Good.free (htask : s.task.isInRequest = false) : s.permits = 0 := by
  rw [h.held, htask]
  rfl

theorem Good.moved {phase : Phase ρ} (hfresh : phase ≠ .preparing)
    (hopens : ({ s with phase } : State ρ).opens = true → s.opens = true)
    (hroom : ({ s with phase } : State ρ).hasRoom = true → s.attempts < call.maxAttempts)
    (hidle : phase.isIdle = true → s.task.isInRequest = false)
    (hresult : ∀ r, phase = .returned r → r.attempts = s.attempts) :
    Good call { s with phase } where
  fresh hp := absurd hp hfresh
  counted := h.counted
  bounded := h.bounded
  room := hroom
  opens ho := h.opens (hopens ho)
  stops := h.stops
  held := h.held
  idle := hidle
  waits := h.waits
  result := hresult

theorem Good.shut {phase : Phase ρ} (hfresh : phase ≠ .preparing)
    (hopens : ({ s with phase } : State ρ).opens = false)
    (hroom : ({ s with phase } : State ρ).hasRoom = false) (hidle : phase.isIdle = false)
    (hresult : ∀ r, phase = .returned r → r.attempts = s.attempts) : Good call { s with phase } := by
  refine h.moved hfresh (fun ho => ?_) (fun hr => ?_) (fun hi => ?_) hresult
  · rw [hopens] at ho
    cases ho
  · rw [hroom] at hr
    cases hr
  · rw [hidle] at hi
    cases hi

theorem Good.returned (outcome : ρ ⊕ Rejection) :
    Good call { s with phase := .returned ⟨outcome, s.attempts⟩ } := by
  refine h.shut (fun heq => by cases heq) rfl rfl rfl fun r hr => ?_
  cases hr
  rfl

theorem Good.raised (reason : RaisedBy) : Good call { s with phase := .raised reason } :=
  h.shut (fun heq => by cases heq) rfl rfl rfl fun _ hr => by cases hr

theorem Good.afterReap (cancelled : Bool) : Good call (s.afterReap cancelled) := by
  cases cancelled with
  | true => exact h.raised _
  | false => exact h.returned _

theorem Good.reaping (cancelled : Bool) (until_ : Rat) :
    Good call { s with phase := .reaping cancelled until_ } :=
  h.shut (fun heq => by cases heq) rfl rfl rfl fun _ hr => by cases hr

theorem Good.ended (hlive : s.phase.isIdle = false)
    (task : Task ρ) (hover : task.isOver = true) (more : List (Event ρ))
    (hcount : sends more = 0) (hwait : ∀ t d, .wait t d ∉ more)
    (hstops : StopsAfter (s.log ++ more)) (hopens : ({ s with task } : State ρ).opens = true →
      s.opens = true ∧ ∀ e ∈ more, e.closes = false) :
    Good call { s with task, permits := 0, log := s.log ++ more } where
  fresh hp := by
    rw [show s.phase = .preparing from hp] at hlive
    cases hlive
  counted := by
    show sends (s.log ++ more) = s.attempts
    rw [sends_append, hcount, h.counted, Nat.add_zero]
  bounded := h.bounded
  room hr := by
    apply h.room
    revert hr hlive hover
    simp only [State.hasRoom]
    cases s.phase <;> cases task <;> simp [Phase.isIdle, Task.isOver]
  opens ho e he := by
    obtain ⟨hopen, hclose⟩ := hopens ho
    rcases List.mem_append.1 he with he | he
    · exact h.opens hopen e he
    · exact hclose e he
  stops := hstops
  held := by
    cases task <;> simp [Task.isOver, Task.isInRequest] at hover ⊢
  idle hi := by
    rw [show s.phase.isIdle = true from hi] at hlive
    cases hlive
  waits t d hmem := by
    rcases List.mem_append.1 hmem with hmem | hmem
    · exact h.waits t d hmem
    · exact absurd hmem (hwait t d)
  result := h.result

theorem Good.sent (hphase : s.phase = .waiting) (hqueued : s.task = .queued)
    {more : List (Event ρ)} (hcount : sends more = 1) (hwait : ∀ t d, .wait t d ∉ more)
    (hstops : StopsAfter more) (hclose : ∀ e ∈ more, e.closes = false) :
    Good call { s with
      task := .inRequest
      attempts := s.attempts + 1
      permits := s.permits + 1
      log := s.log ++ more } := by
  have hopen : s.opens = true := by simp [State.opens, hphase, hqueued]
  have hheld : s.permits = 0 := h.free (by rw [hqueued]; rfl)
  refine ⟨fun hp => ?_, ?_, ?_, fun hr => ?_, fun _ e he => ?_,
    h.stops.of_open (h.opens hopen) hstops, ?_, fun hi => ?_, fun t d hmem => ?_, fun r hr => ?_⟩
  · rw [show s.phase = .preparing from hp] at hphase
    cases hphase
  · show sends (s.log ++ more) = s.attempts + 1
    rw [sends_append, h.counted, hcount]
  · exact h.room (by simp [State.hasRoom, hphase, hqueued])
  · simp [State.hasRoom, hphase] at hr
  · rcases List.mem_append.1 he with he | he
    · exact h.opens hopen e he
    · exact hclose e he
  · simp [hheld, Task.isInRequest]
  · rw [show s.phase.isIdle = false by rw [hphase]; rfl] at hi
    cases hi
  · rcases List.mem_append.1 hmem with hmem | hmem
    · exact h.waits t d hmem
    · exact absurd hmem (hwait t d)
  · rw [show s.phase = .returned r from hr] at hphase
    cases hphase

theorem Good.guarded (hphase : s.phase = .waiting)
    (hqueued : s.task = .queued) (reservation : Reservation) :
    Good call (s.guarded reservation) := by
  have hopen : s.opens = true := by simp [State.opens, hphase, hqueued]
  have hheld : s.permits = 0 := h.free (by rw [hqueued]; rfl)
  have hlive : s.phase.isIdle = false := by rw [hphase]; rfl
  cases reservation with
  | absent =>
      exact h.sent hphase hqueued rfl (by simp) (List.pairwise_singleton _ _)
        (by simp [Event.closes])
  | replies granted =>
      cases granted with
      | true =>
          exact h.sent hphase hqueued rfl (by simp) (by simp [StopsAfter, Event.closes])
            (by simp [Event.closes])
      | false =>
          have hdenied := h.ended hlive .denied rfl [.reserve false] rfl
            (by simp) (h.stops.concat rfl) (fun ho => by simp [State.opens, hphase] at ho)
          simpa only [State.guarded, hheld] using hdenied
  | raises e =>
      have hraised := h.ended hlive (.ended (.exception e)) rfl [] rfl
        (by simp) (by simpa using h.stops) (fun _ => ⟨hopen, by simp⟩)
      simpa only [State.guarded, hheld, List.append_nil] using hraised

/-- The request of an attempt is answered, whoever still waits for it. -/
theorem Good.answered (hrequest : s.task = .inRequest)
    (e : Ending ρ) :
    Good call { s with
      task := .ended e
      permits := s.permits - 1
      log := s.log ++ [.answer e] } := by
  have hheld : s.permits = 1 := by simpa [hrequest, Task.isInRequest] using h.held
  have hlive : s.phase.isIdle = false := by
    cases hidle : s.phase.isIdle with
    | false => rfl
    | true => simpa [hrequest, Task.isInRequest] using h.idle hidle
  have hended := h.ended hlive (.ended e) rfl [.answer e] rfl (by simp)
    (h.stops.concat rfl) (fun ho => by
      revert ho hlive
      simp only [State.opens, hrequest]
      cases s.phase <;> cases e <;> simp [Phase.isIdle, Event.closes])
  simpa only [hheld] using hended

theorem Good.unwound {cancelled : Bool}
    {until_ : Rat} (hphase : s.phase = .reaping cancelled until_) (hqueued : s.task = .queued) :
    Good call { s with task := .ended .cancelled } := by
  have hlive : s.phase.isIdle = false := by rw [hphase]; rfl
  have hheld : s.permits = 0 := h.free (by rw [hqueued]; rfl)
  have hended := h.ended hlive (.ended .cancelled) rfl [] rfl (by simp) (by simpa using h.stops)
    (fun ho => by simp [State.opens, hphase] at ho)
  simpa only [hheld, List.append_nil] using hended

theorem Good.failed {e : ProviderException}
    (hphase : s.phase = .waiting) (htask : s.task = .ended (.exception e)) :
    Good call { s with phase := .handling e } := by
  apply h.moved
  · intro heq
    cases heq
  · intro ho
    simpa [State.opens, hphase, htask] using ho
  · intro hr
    cases hr
  · intro _
    rw [htask]
    rfl
  · intro r hr
    cases hr

/-- Behind the last `except` clause the loop goes on, or the call is over. -/
theorem Good.handled {e : ProviderException}
    (hphase : s.phase = .handling e) : Good call (s.handle call e) := by
  rcases handle_cases call s e with ⟨-, heq⟩ | ⟨kind, heq⟩ | ⟨delay, hretry, hroom, hdue, heq⟩
  · rw [heq]
    exact h.raised _
  · rw [heq]
    exact h.returned _
  · have hopen : s.opens = true := by simpa [State.opens, hphase] using hretry
    rw [heq]
    refine ⟨fun hp => (by cases hp), ?_, h.bounded, fun _ => hroom, fun _ a ha => ?_,
      h.stops.concat rfl, h.held, fun _ => h.idle (by rw [hphase]; rfl), fun t d hmem => ?_,
      fun r hr => (by cases hr)⟩
    · show sends (s.log ++ [.wait s.now delay]) = s.attempts
      rw [sends_append, h.counted]
      rfl
    · rcases List.mem_append.1 ha with ha | ha
      · exact h.opens hopen a ha
      · rw [List.mem_singleton.1 ha]
        rfl
    · rcases List.mem_append.1 hmem with hmem | hmem
      · exact h.waits t d hmem
      · cases List.mem_singleton.1 hmem
        exact hdue

theorem Good.turned (hphase : s.phase = .top) :
    Good call { s with phase := .waiting, task := .queued } := by
  have hroom := h.room (by simp [State.hasRoom, hphase])
  have hidle := h.idle (by rw [hphase]; rfl)
  refine ⟨fun hp => (by cases hp), h.counted, h.bounded, fun _ => hroom, fun _ => ?_, h.stops, ?_,
    fun hi => (by cases hi), h.waits, fun r hr => (by cases hr)⟩
  · exact h.opens (by simp [State.opens, hphase])
  · exact h.free hidle

theorem Good.woken {until_ : Rat}
    (hphase : s.phase = .sleeping until_) : Good call { s with phase := .top, task := .none } := by
  have hroom := h.room (by simp [State.hasRoom, hphase])
  have hidle := h.idle (by rw [hphase]; rfl)
  refine ⟨fun hp => (by cases hp), h.counted, h.bounded, fun _ => hroom, fun _ => ?_, h.stops, ?_,
    fun _ => rfl, h.waits, fun r hr => (by cases hr)⟩
  · exact h.opens (by simp [State.opens, hphase])
  · exact h.free hidle

/-- The deadline is set before anything is kept that it could concern. -/
theorem Good.prepared (hphase : s.phase = .preparing)
    (deadline : Rat) : Good call { s with phase := .top, deadline } := by
  obtain ⟨hlog, -⟩ := h.fresh hphase
  refine ⟨fun hp => (by cases hp), h.counted, h.bounded, fun _ => ?_, fun _ => ?_, h.stops, h.held,
    fun _ => h.idle (by rw [hphase]; rfl), fun t d hmem => ?_, fun r hr => (by cases hr)⟩
  · exact h.room (by simp [State.hasRoom, hphase])
  · exact h.opens (by simp [State.opens, hphase])
  · rw [show s.log = [] from hlog] at hmem
    cases hmem

end Good

theorem good_begin (call : Call) (now : Rat) : Good call (State.begin now : State ρ) where
  fresh _ := ⟨rfl, rfl⟩
  counted := rfl
  bounded := Nat.zero_le _
  room _ := call.maxAttempts_pos
  opens _ e he := by cases he
  stops := List.Pairwise.nil
  held := rfl
  idle _ := rfl
  waits t d hmem := by cases hmem
  result r hr := by cases hr

theorem good_step (call : Call) (a : Label ρ) (s s' : State ρ) (h : Good call s)
    (hs : step call a s = some s') : Good call s' := by
  cases happens_of_step hs with
  | tick d =>
      exact ⟨h.fresh, h.counted, h.bounded, h.room, h.opens, h.stops, h.held, h.idle, h.waits,
        h.result⟩
  | refused kind hphase =>
      rw [← (h.fresh hphase).2]
      exact h.returned _
  | prepared hphase => exact h.prepared hphase _
  | late => exact h.returned _
  | turned hphase => exact h.turned hphase
  | permitted reservation hphase hqueued => exact h.guarded hphase hqueued reservation
  | answered e hrequest => exact h.answered hrequest e
  | unwound cancelled until_ hphase hqueued => exact h.unwound hphase hqueued
  | finished => exact h.returned _
  | failed e hphase htask => exact h.failed hphase htask
  | broken => exact h.raised _
  | timeUp => exact h.reaping _ _
  | cancelled => exact h.reaping _ _
  | roused => exact h.raised _
  | hurried => exact h.afterReap _
  | reaped => exact h.afterReap _
  | gaveUp => exact h.afterReap _
  | handled e hphase => exact h.handled hphase
  | woken until_ hphase => exact h.woken hphase

-- ===== requests in one step

/-- Only a permit can bring a request; the deadline changes only before
anything has happened. -/
theorem log_step {a : Label ρ} (hs : Happens call s a s') :
    (s'.log = s.log ∧ (s'.deadline = s.deadline ∨ s.phase = .preparing))
      ∨ (∃ e, e.isSend = false ∧ s'.log = s.log ++ [e] ∧ s'.deadline = s.deadline)
      ∨ ∃ reservation, a = .permit reservation ∧ reservation.suits call.gated = true
          ∧ s' = s.guarded reservation := by
  cases hs with
  | permitted reservation _ _ hsuits => exact .inr (.inr ⟨reservation, rfl, hsuits, rfl⟩)
  | answered e => exact .inr (.inl ⟨.answer e, rfl, rfl, rfl⟩)
  | handled e =>
      rcases handle_cases call s e with ⟨-, heq⟩ | ⟨kind, heq⟩ | ⟨delay, -, -, -, heq⟩
      · rw [heq]
        exact .inl ⟨rfl, .inl rfl⟩
      · rw [heq]
        exact .inl ⟨rfl, .inl rfl⟩
      · rw [heq]
        exact .inr (.inl ⟨_, rfl, rfl, rfl⟩)
  | prepared hphase => exact .inl ⟨rfl, .inr hphase⟩
  | hurried cancelled => cases cancelled <;> exact .inl ⟨rfl, .inl rfl⟩
  | reaped cancelled => cases cancelled <;> exact .inl ⟨rfl, .inl rfl⟩
  | gaveUp cancelled => cases cancelled <;> exact .inl ⟨rfl, .inl rfl⟩
  | _ => exact .inl ⟨rfl, .inl rfl⟩

theorem reservedFirst_step (hgated : call.gated = true) (a : Label ρ)
    (s s' : State ρ) (h : ReservedFirst s.log) (hs : step call a s = some s') :
    ReservedFirst s'.log := by
  rcases log_step (happens_of_step hs) with ⟨heq, -⟩ | ⟨e, he, heq, -⟩ | ⟨reservation, -, hsuits, rfl⟩
  · rw [heq]
    exact h
  · rw [heq]
    exact h.concat he
  · cases reservation with
    | absent =>
        rw [hgated] at hsuits
        cases hsuits
    | replies granted =>
        cases granted with
        | true => exact h.concat_send s.now
        | false => exact h.concat rfl
    | raises e => exact h

/-- The permit of a task comes before the deadline: what is due is looked
at before what is ready. -/
def Prompt : Label ρ → State ρ → Prop
  | .permit _, s => s.now < s.deadline
  | _, _ => True

theorem sentInTime_step (call : Call) (a : Label ρ) (s s' : State ρ) (hprompt : Prompt a s)
    (h : Good call s ∧ SentInTime s) (hs : step call a s = some s') :
    Good call s' ∧ SentInTime s' := by
  obtain ⟨hgood, htime⟩ := h
  refine ⟨good_step call a s s' hgood hs, fun t hmem => ?_⟩
  rcases log_step (happens_of_step hs) with ⟨hlog, hdeadline⟩ | ⟨e, he, hlog, hdeadline⟩ |
    ⟨reservation, rfl, -, rfl⟩
  · rw [hlog] at hmem
    rcases hdeadline with hdeadline | hfresh
    · rw [hdeadline]
      exact htime t hmem
    · rw [(hgood.fresh hfresh).1] at hmem
      cases hmem
  · rw [hlog] at hmem
    rw [hdeadline]
    rcases List.mem_append.1 hmem with hmem | hmem
    · exact htime t hmem
    · rw [← List.mem_singleton.1 hmem] at he
      cases he
  · have hnow : s.now < s.deadline := hprompt
    cases reservation with
    | absent =>
        rcases List.mem_append.1 hmem with hmem | hmem
        · exact htime t hmem
        · cases List.mem_singleton.1 hmem
          exact hnow
    | replies granted =>
        cases granted with
        | true =>
            rcases List.mem_append.1 hmem with hmem | hmem
            · exact htime t hmem
            · simp only [List.mem_cons, Event.send.injEq, List.not_mem_nil, or_false,
                reduceCtorEq, false_or] at hmem
              rw [hmem]
              exact hnow
        | false =>
            rcases List.mem_append.1 hmem with hmem | hmem
            · exact htime t hmem
            · cases List.mem_singleton.1 hmem
    | raises e => exact htime t hmem

-- ===== what it raises

def HintsAreFloats : Label ρ → State ρ → Prop
  | .answer (.exception e), _ | .permit (.raises e), _ => e.retryAfter ≠ .huge
  | _, _ => True

structure NoneHuge (s : State ρ) : Prop where
  held : ∀ e, s.task = .ended (.exception e) → e.retryAfter ≠ .huge
  looked : ∀ e, s.phase = .handling e → e.retryAfter ≠ .huge
  raised : s.phase ≠ .raised .overflow

theorem NoneHuge.moved (h : NoneHuge s) {phase : Phase ρ}
    (hlooked : ∀ e, phase = .handling e → e.retryAfter ≠ .huge)
    (hraised : phase ≠ .raised .overflow) : NoneHuge { s with phase } :=
  ⟨h.held, hlooked, hraised⟩

theorem NoneHuge.afterReap (h : NoneHuge s) (cancelled : Bool) :
    NoneHuge (s.afterReap cancelled) := by
  cases cancelled with
  | true => exact h.moved (fun e he => (by cases he)) (fun heq => by cases heq)
  | false => exact h.moved (fun e he => (by cases he)) (fun heq => by cases heq)

theorem noneHuge_step (call : Call) (a : Label ρ) (s s' : State ρ) (hfloats : HintsAreFloats a s)
    (h : NoneHuge s) (hs : step call a s = some s') : NoneHuge s' := by
  cases happens_of_step hs with
  | tick d => exact ⟨h.held, h.looked, h.raised⟩
  | permitted reservation =>
      cases reservation with
      | absent => exact ⟨fun e he => (by cases he), h.looked, h.raised⟩
      | replies granted =>
          cases granted with
          | true => exact ⟨fun e he => (by cases he), h.looked, h.raised⟩
          | false => exact ⟨fun e he => (by cases he), h.looked, h.raised⟩
      | raises e =>
          refine ⟨fun e' he => ?_, h.looked, h.raised⟩
          cases he
          exact hfloats
  | answered e =>
      refine ⟨fun e' he => ?_, h.looked, h.raised⟩
      cases he
      exact hfloats
  | unwound => exact ⟨fun e he => (by cases he), h.looked, h.raised⟩
  | failed e _ htask =>
      refine h.moved (fun e' he => ?_) (fun heq => by cases heq)
      cases he
      exact h.held e htask
  | broken reason _ _ hreason =>
      refine h.moved (fun e' he => by cases he) (fun heq => ?_)
      cases heq
      exact hreason rfl
  | handled e hphase =>
      rcases handle_cases call s e with ⟨hhuge, -⟩ | ⟨kind, heq⟩ | ⟨delay, -, -, -, heq⟩
      · exact absurd hhuge (h.looked e hphase)
      · rw [heq]
        exact h.moved (fun e' he => by cases he) (fun heq => by cases heq)
      · rw [heq]
        exact ⟨h.held, fun e' he => (by cases he), fun heq => (by cases heq)⟩
  | turned => exact ⟨fun e he => (by cases he), fun e he => (by cases he), fun he => (by cases he)⟩
  | woken => exact ⟨fun e he => (by cases he), fun e he => (by cases he), fun he => (by cases he)⟩
  | prepared => exact ⟨h.held, fun e he => (by cases he), fun he => (by cases he)⟩
  | hurried => exact h.afterReap _
  | reaped => exact h.afterReap _
  | gaveUp => exact h.afterReap _
  | _ => exact h.moved (fun e he => by cases he) (fun heq => by cases heq)

-- ===== the permit of a call over

/-- `_reap` stops waiting only for a task that is in no request. -/
def Unwinds (a : Label ρ) (s : State ρ) : Prop :=
  match a, s.phase with
  | .giveUp, .reaping _ _ | .cancel, .reaping _ _ => s.task.isInRequest = false
  | _, _ => True

theorem Task.not_inRequest_of_over {task : Task ρ} (h : task.isOver = true) :
    task.isInRequest = false := by
  cases task <;> first | rfl | cases h

theorem afterReap_task (s : State ρ) (cancelled : Bool) : (s.afterReap cancelled).task = s.task :=
  rfl

def LeavesNone (s : State ρ) : Prop := s.phase.isFinal = true → s.task.isInRequest = false

theorem leavesNone_step (call : Call) (a : Label ρ) (s s' : State ρ) (hunwinds : Unwinds a s)
    (h : Good call s ∧ LeavesNone s) (hs : step call a s = some s') :
    Good call s' ∧ LeavesNone s' := by
  obtain ⟨hgood, hnone⟩ := h
  refine ⟨good_step call a s s' hgood hs, fun hfinal => ?_⟩
  cases happens_of_step hs with
  | tick => exact hnone hfinal
  | refused _ hphase => exact hgood.idle (by rw [hphase]; rfl)
  | late hphase => exact hgood.idle (by rw [hphase]; rfl)
  | permitted reservation hphase =>
      rw [show (s.guarded reservation).phase = .waiting by
        rw [← hphase]
        unfold State.guarded
        split <;> rfl] at hfinal
      cases hfinal
  | answered => rfl
  | unwound => rfl
  | finished _ _ hover => exact Task.not_inRequest_of_over hover
  | broken _ _ hover => exact Task.not_inRequest_of_over hover
  | roused _ hphase => exact hgood.idle (by rw [hphase]; rfl)
  | hurried _ _ hphase => simpa [Unwinds, hphase, afterReap_task] using hunwinds
  | reaped _ _ _ hover => exact Task.not_inRequest_of_over hover
  | gaveUp _ _ hphase => simpa [Unwinds, hphase, afterReap_task] using hunwinds
  | handled e hphase =>
      have hidle := hgood.idle (by rw [hphase]; rfl)
      rcases handle_cases call s e with ⟨-, heq⟩ | ⟨kind, heq⟩ | ⟨delay, -, -, -, heq⟩
      · rw [heq]
        exact hidle
      · rw [heq]
        exact hidle
      · rw [heq]
        exact hidle
  | _ => cases hfinal

-- ===== termination

def Label.isTick : Label ρ → Bool
  | .tick _ => true
  | _ => false

/-- `reserve` raises nothing. -/
def GateReturns : Label ρ → State ρ → Prop
  | .permit (.raises _), _ => False
  | _, _ => True

/-- Ten steps for each attempt that is left, and those that are left of the
one under way. -/
def State.rank (call : Call) (s : State ρ) : Nat :=
  match s.phase, s.task with
  | .preparing, _ => 10 * (call.maxAttempts - s.attempts) + 10
  | .top, _ => 10 * (call.maxAttempts - s.attempts) + 9
  | .waiting, .none | .waiting, .queued => 10 * (call.maxAttempts - s.attempts) + 8
  | .waiting, .denied => 10 * (call.maxAttempts - s.attempts) + 7
  | .waiting, .inRequest => 10 * (call.maxAttempts - s.attempts) + 17
  | .waiting, .ended _ => 10 * (call.maxAttempts - s.attempts) + 16
  | .handling _, _ => 10 * (call.maxAttempts - s.attempts) + 15
  | .sleeping _, _ => 10 * (call.maxAttempts - s.attempts) + 14
  | .reaping _ _, task => if task.isOver then 2 else 3
  | .returned _, task | .raised _, task => if task.isInRequest then 1 else 0

theorem rank_waiting (hphase : s.phase = .waiting) : 7 ≤ s.rank call := by
  unfold State.rank
  rw [hphase]
  cases s.task <;> simp

theorem rank_over (hphase : s.phase.isFinal = true) : s.rank call ≤ 1 := by
  unfold State.rank
  cases hp : s.phase <;> simp [hp, Phase.isFinal] at hphase ⊢ <;> split <;> simp

theorem rank_reaping {cancelled : Bool} {until_ : Rat}
    (hphase : s.phase = .reaping cancelled until_) :
    s.rank call = if s.task.isOver then 2 else 3 := by
  simp [State.rank, hphase]

theorem afterReap_isFinal (s : State ρ) (cancelled : Bool) :
    (s.afterReap cancelled).phase.isFinal = true := by
  cases cancelled <;> rfl

theorem rank_ended (hs : 2 ≤ s.rank call)
    (hphase : s'.phase.isFinal = true) : s'.rank call + 1 ≤ s.rank call := by
  have hover : s'.rank call ≤ 1 := rank_over hphase
  omega

theorem rank_taken (hphase : s.phase = .waiting) (cancelled : Bool) (until_ : Rat) :
    ({ s with phase := .reaping cancelled until_ } : State ρ).rank call + 1 ≤ s.rank call := by
  have hrank := @rank_waiting ρ call s hphase
  rw [rank_reaping rfl]
  split <;> omega

theorem rank_guarded (h : Good call s) (hphase : s.phase = .waiting)
    (hqueued : s.task = .queued) {reservation : Reservation}
    (hgate : GateReturns (.permit reservation) s) :
    (s.guarded reservation).rank call + 1 ≤ s.rank call := by
  have hroom := h.room (by simp [State.hasRoom, hphase, hqueued])
  have hrank : s.rank call = 10 * (call.maxAttempts - s.attempts) + 8 := by
    simp [State.rank, hphase, hqueued]
  rw [hrank]
  cases reservation with
  | absent =>
      simp only [State.guarded, State.rank, hphase]
      omega
  | replies granted =>
      cases granted with
      | true =>
          simp only [State.guarded, State.rank, hphase]
          omega
      | false =>
          simp only [State.guarded, State.rank, hphase]
          omega
  | raises e => exact hgate.elim

theorem rank_answered (h : Good call s) (hrequest : s.task = .inRequest) (e : Ending ρ) :
    ({ s with task := .ended e, permits := s.permits - 1, log := s.log ++ [.answer e] } :
      State ρ).rank call + 1 ≤ s.rank call := by
  have hlive : s.phase.isIdle = true → False := fun hidle => by
    simpa [hrequest, Task.isInRequest] using h.idle hidle
  unfold State.rank
  cases hphase : s.phase with
  | waiting => simp [hrequest]
  | reaping => simp [hrequest, Task.isOver]
  | returned => simp [hrequest, Task.isInRequest]
  | raised => simp [hrequest, Task.isInRequest]
  | _ => exact (hlive (by rw [hphase]; rfl)).elim

theorem rank_step (call : Call) (a : Label ρ) (s s' : State ρ) (hgate : GateReturns a s)
    (h : Good call s) (hs : step call a s = some s') :
    s'.rank call + (!a.isTick).toNat ≤ s.rank call := by
  cases happens_of_step hs with
  | tick => exact Nat.le_refl _
  | refused kind hphase => exact rank_ended (by simp [State.rank, hphase]) rfl
  | prepared hphase => simp [State.rank, hphase, Label.isTick]
  | late hphase => exact rank_ended (by simp [State.rank, hphase]) rfl
  | turned hphase => simp [State.rank, hphase, Label.isTick]
  | permitted reservation hphase hqueued => exact rank_guarded h hphase hqueued hgate
  | answered e hrequest => exact rank_answered h hrequest e
  | unwound _ _ hphase hqueued =>
      simp [State.rank, hphase, hqueued, Label.isTick, Task.isOver]
  | finished _ hphase =>
      have hrank := @rank_waiting ρ call s hphase
      exact rank_ended (by omega) rfl
  | failed _ hphase htask => simp [State.rank, hphase, htask, Label.isTick]
  | broken _ hphase =>
      have hrank := @rank_waiting ρ call s hphase
      exact rank_ended (by omega) rfl
  | timeUp hphase => exact rank_taken hphase _ _
  | cancelled hphase => exact rank_taken hphase _ _
  | roused _ hphase => exact rank_ended (by simp [State.rank, hphase]) rfl
  | hurried _ _ hphase =>
      exact rank_ended (by rw [rank_reaping hphase]; split <;> omega) (afterReap_isFinal s _)
  | reaped _ _ hphase =>
      exact rank_ended (by rw [rank_reaping hphase]; split <;> omega) (afterReap_isFinal s _)
  | gaveUp _ _ hphase =>
      exact rank_ended (by rw [rank_reaping hphase]; split <;> omega) (afterReap_isFinal s _)
  | handled e hphase =>
      have hrank : 15 ≤ s.rank call := by simp [State.rank, hphase]
      rcases handle_cases call s e with ⟨-, heq⟩ | ⟨kind, heq⟩ | ⟨delay, -, -, -, heq⟩
      · rw [heq]
        exact rank_ended (by omega) rfl
      · rw [heq]
        exact rank_ended (by omega) rfl
      · rw [heq]
        simp [State.rank, hphase, Label.isTick]
  | woken _ hphase => simp [State.rank, hphase, Label.isTick]

def Label.isOwn : Label ρ → Bool
  | .prepare _ | .turn | .resume | .timeUp | .reaped | .giveUp | .handle | .wake => true
  | _ => false

/-- From when on the call can go on whatever its surroundings do. -/
def State.due (s : State ρ) : Rat :=
  match s.phase with
  | .waiting => s.deadline
  | .reaping _ until_ | .sleeping until_ => until_
  | _ => s.now

theorem goesOn (call : Call) (hlive : s.phase.isFinal = false) {t : Rat} (hdue : s.due ≤ t) :
    ∃ a : Label ρ, a.isOwn = true ∧ (step call a { s with now := t }).isSome = true := by
  cases hphase : s.phase with
  | preparing => exact ⟨.prepare none, rfl, by simp [step]⟩
  | top =>
      refine ⟨.turn, rfl, ?_⟩
      simp only [step]
      split <;> rfl
  | waiting =>
      have hlate : s.deadline ≤ t := by simpa [State.due, hphase] using hdue
      cases hover : s.task.isOver with
      | false => exact ⟨.timeUp, rfl, by simp [step, hlate, hover]⟩
      | true =>
          refine ⟨.resume, rfl, ?_⟩
          simp only [step, State.resume]
          cases htask : s.task with
          | ended e => cases e <;> rfl
          | denied => rfl
          | _ => simp [htask, Task.isOver] at hover
  | reaping cancelled until_ =>
      have hlate : until_ ≤ t := by simpa [State.due, hphase] using hdue
      exact ⟨.giveUp, rfl, by simp [step, hlate]⟩
  | handling e => exact ⟨.handle, rfl, by simp [step]⟩
  | sleeping until_ =>
      have hlate : until_ ≤ t := by simpa [State.due, hphase] using hdue
      exact ⟨.wake, rfl, by simp [step, hlate]⟩
  | returned r =>
      rw [hphase] at hlive
      cases hlive
  | raised reason =>
      rw [hphase] at hlive
      cases hlive

-- ===== a call

/-- A call in any surroundings, over and before. -/
theorem propose_kept (call : Call) (start : Rat) (as : List (Label ρ)) (s : State ρ)
    (hrun : run (step call) as (State.begin start) = some s) :
    (sends s.log ≤ call.policy.maxAttempts
      ∧ (call.providerRetryAllowed = false → sends s.log ≤ 1)
      ∧ StopsAfter s.log
      ∧ WaitsInTime s
      ∧ (∀ result, s.phase = .returned result → result.attempts = sends s.log)
      ∧ (s.task.isInRequest = false ∨ s.phase.isIdle = true → s.permits = 0))
    ∧ (call.gated = true → ReservedFirst s.log)
    ∧ (Meets (step call) Prompt as (State.begin start) → SentInTime s)
    ∧ (Meets (step call) Unwinds as (State.begin start) →
        s.phase.isFinal = true → s.permits = 0)
    ∧ (Meets (step call) HintsAreFloats as (State.begin start) → s.phase ≠ .raised .overflow)
    ∧ (Meets (step call) GateReturns as (State.begin start) →
        as.countP (fun a => !a.isTick) ≤ 10 * call.maxAttempts + 10)
    ∧ (s.phase.isFinal = false → ∀ t, s.due ≤ t →
        ∃ a : Label ρ, a.isOwn = true ∧ (step call a { s with now := t }).isSome = true) := by
  have hbegin := (good_begin call start : Good call (State.begin start : State ρ))
  have hgood : Good call s := run_preserves (good_step call) hbegin hrun
  have hsent : sends s.log ≤ call.maxAttempts := by
    rw [hgood.counted]
    exact hgood.bounded
  refine ⟨⟨?_, fun honce => ?_, hgood.stops, hgood.waits, fun result hresult => ?_, fun hout => ?_⟩,
    fun hgated => ?_, fun hprompt => ?_, fun hunwinds hfinal => ?_, fun hfloats => ?_,
    fun hgate => ?_, fun hlive t hdue => goesOn call hlive hdue⟩
  · have hmost : call.maxAttempts ≤ call.policy.maxAttempts := by
      unfold Call.maxAttempts
      split
      next => exact Nat.le_refl _
      next => exact call.policy.attempts_ok.1
    omega
  · simpa [Call.maxAttempts, honce] using hsent
  · rw [hgood.result result hresult, hgood.counted]
  · rcases hout with htask | hidle
    · exact hgood.free htask
    · exact hgood.free (hgood.idle hidle)
  · have hnone : ReservedFirst (State.begin start : State ρ).log := fun front t back heq => by
      cases front <;> cases heq
    exact run_preserves (P := fun s => ReservedFirst s.log) (reservedFirst_step hgated) hnone hrun
  · have hnone : SentInTime (State.begin start : State ρ) := fun t hmem => by cases hmem
    exact (run_preserves_of (sentInTime_step call) hprompt ⟨hbegin, hnone⟩ hrun).2
  · have hlive : LeavesNone (State.begin start : State ρ) := fun hover => by cases hover
    exact hgood.free ((run_preserves_of (leavesNone_step call) hunwinds ⟨hbegin, hlive⟩ hrun).2 hfinal)
  · have hnone : NoneHuge (State.begin start : State ρ) :=
      ⟨fun e he => (by cases he), fun e he => (by cases he), fun he => (by cases he)⟩
    exact (run_preserves_of (noneHuge_step call) hfloats hnone hrun).raised
  · have hcount := countP_add_rank_le (fun a s s' _ => good_step call a s s') (rank_step call)
      hgate hbegin hrun
    have hrank : (State.begin start : State ρ).rank call = 10 * call.maxAttempts + 10 := rfl
    omega

def gatedCall : Call where
  policy := { attempts_ok := by decide, base_ok := by norm_num, delays_ok := by norm_num }
  providerRetryAllowed := true
  timeoutS := 10
  gated := true

def limited (retryAfter : RetryAfter) : ProviderException := { isRateLimit := true, retryAfter }

def comesBack : List (Label String) :=
  [.prepare none, .turn, .permit (.replies true), .answer (.exception (limited (.number 1))),
    .resume, .handle, .tick 1, .wake, .turn, .permit (.replies true), .answer (.response "done"),
    .resume]

def comesBackState : State String where
  now := 1
  deadline := 10
  phase := .returned ⟨.inl "done", 2⟩
  task := .ended (.response "done")
  attempts := 2
  permits := 0
  log := [.reserve true, .send 0, .answer (.exception (limited (.number 1))), .wait 0 1,
    .reserve true, .send 1, .answer (.response "done")]

theorem run_comesBack :
    run (step gatedCall) comesBack (State.begin 0) = some comesBackState := by
  norm_num [comesBack, comesBackState, run, step, State.begin, State.guarded, State.resume,
    State.handle, delayOf, gatedCall, limited, classifyProviderError, Reservation.suits,
    Call.maxAttempts]

theorem propose_kept_comesBack :
    sends comesBackState.log ≤ 3 ∧ ReservedFirst comesBackState.log ∧ SentInTime comesBackState
      ∧ comesBackState.permits = 0 ∧ comesBack.countP (fun a => !a.isTick) ≤ 40 := by
  have hprompt : Meets (step gatedCall) Prompt comesBack (State.begin 0) := by
    norm_num [Meets, Prompt, comesBack, step, State.begin, State.guarded, State.resume,
      State.handle, delayOf, gatedCall, limited, classifyProviderError, Reservation.suits,
      Call.maxAttempts]
  have hgate : Meets (step gatedCall) GateReturns comesBack (State.begin 0) :=
    meets_of_forall _ fun a ha s => by
      simp only [comesBack, List.mem_cons, List.not_mem_nil, or_false] at ha
      obtain rfl | rfl | rfl | rfl | rfl | rfl | rfl | rfl | rfl | rfl | rfl | rfl := ha <;> trivial
  obtain ⟨⟨hsent, -, -, -, -, hfree⟩, hreserved, htime, -, -, hcount, -⟩ :=
    propose_kept gatedCall 0 comesBack comesBackState run_comesBack
  exact ⟨hsent, hreserved rfl, htime hprompt, hfree (.inl rfl), hcount hgate⟩

-- ===== where the claim goes wrong

def bareCall : Call := { gatedCall with gated := false }

/-- The timer is due, but the task that was ready before it goes first. -/
def lateState : State String where
  now := 10
  deadline := 10
  phase := .waiting
  task := .inRequest
  attempts := 1
  permits := 1
  log := [.reserve true, .send 10]

def heldState : State String where
  now := 11
  deadline := 10
  phase := .returned ⟨.inr .timeout, 1⟩
  task := .inRequest
  attempts := 1
  permits := 1
  log := [.reserve true, .send 0]

def turningState (log : List (Event String)) : State String where
  now := 0
  deadline := 10
  phase := .top
  task := .none
  attempts := 0
  permits := 0
  log := log

def gateTurn : List (Label String) :=
  [.turn, .permit (.raises (limited (.number 0))), .resume, .handle, .wake]

theorem run_gateTurn (log : List (Event String)) :
    run (step gatedCall) gateTurn (turningState log) = some (turningState (log ++ [.wait 0 0])) := by
  norm_num [gateTurn, turningState, run, step, State.guarded, State.resume, State.handle, delayOf,
    gatedCall, limited, classifyProviderError, Reservation.suits, Call.maxAttempts]

theorem run_gateTurns (n : Nat) (log : List (Event String)) :
    ∃ log', run (step gatedCall) (List.replicate n gateTurn).flatten (turningState log)
      = some (turningState log') := by
  induction n generalizing log with
  | zero => exact ⟨log, rfl⟩
  | succ n ih =>
      obtain ⟨log', hrest⟩ := ih (log ++ [.wait 0 0])
      refine ⟨log', ?_⟩
      rw [List.replicate_succ, List.flatten_cons]
      exact run_append (run_gateTurn log) hrest

/-- No gate: nothing is reserved. A late timer: a request at the deadline.
A hint that is no float: an exception that is no cancellation. A gate that
raises: turn after turn, at one time. A provider that does not unwind: its
permit outlives the call. -/
theorem not_propose_claimed :
    (∃ s, run (step bareCall) [.prepare none, .turn, .permit .absent]
        (State.begin 0 : State String) = some s ∧ ¬ ReservedFirst s.log)
    ∧ (run (step gatedCall) [.prepare none, .turn, .tick 10, .permit (.replies true)]
        (State.begin 0) = some lateState ∧ ¬ SentInTime lateState)
    ∧ (∃ s, run (step gatedCall) [.prepare none, .turn, .permit (.replies true),
          .answer (.exception (limited .huge)), .resume, .handle]
        (State.begin 0 : State String) = some s ∧ s.phase = .raised .overflow)
    ∧ (∀ n, ∃ log, run (step gatedCall) (.prepare none :: (List.replicate n gateTurn).flatten)
        (State.begin 0) = some (turningState log))
    ∧ (run (step gatedCall) [.prepare none, .turn, .permit (.replies true), .tick 10, .timeUp,
          .tick 1, .giveUp] (State.begin 0) = some heldState
        ∧ heldState.phase.isFinal = true ∧ heldState.permits = 1) := by
  refine ⟨?_, ⟨?_, fun htime => ?_⟩, ?_, fun n => ?_, ?_, rfl, rfl⟩
  · refine ⟨{ turningState [.send 0] with
      phase := .waiting, task := .inRequest, attempts := 1, permits := 1 }, ?_, fun hfirst => ?_⟩
    · norm_num [run, step, turningState, State.begin, State.guarded, bareCall, gatedCall,
        Reservation.suits]
    · cases hfirst [] 0 [] rfl
  · norm_num [lateState, run, step, State.begin, State.guarded, gatedCall, Reservation.suits]
  · exact absurd (htime 10 (by simp [lateState])) (by decide)
  · refine ⟨{ turningState [.reserve true, .send 0, .answer (.exception (limited .huge))] with
      phase := .raised .overflow, task := .ended (.exception (limited .huge)), attempts := 1 }, ?_, rfl⟩
    norm_num [run, step, turningState, State.begin, State.guarded, State.resume, State.handle,
      delayOf, gatedCall, limited, classifyProviderError, Reservation.suits]
  · obtain ⟨log, hrun⟩ := run_gateTurns n []
    refine ⟨log, ?_⟩
    have hfirst : step gatedCall (.prepare none) (State.begin 0) = some (turningState []) := by
      norm_num [step, State.begin, turningState, gatedCall]
    simp only [run, hfirst]
    exact hrun
  · norm_num [heldState, run, step, State.begin, State.guarded, gatedCall, Reservation.suits,
      Task.isOver, State.afterReap, REAP_GRACE_S]

end Velune.Engine.ProviderActing
