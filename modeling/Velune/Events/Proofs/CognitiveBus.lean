/-
When the bus delivers every event once and in order.

What was dispatched and what is queued are together what was emitted, in
its order, as long as nothing is emitted into a stopped bus whose queue is
not empty. A run keeps this, and the rest of what a delivery is, exactly
when its steps take no other of the wrong turns either
(`events_delivered_iff`): a handler subscribed twice to one event, a
handler that is cancelled, a stop that returns while an earlier event is
being handled elsewhere, an emit inside `emit_and_wait` that is cancelled.
-/
import Mathlib.Data.List.Nodup
import Velune.Events.CognitiveBus
import Velune.Lib.Numbered

namespace Velune.Events

open Lib Lib.Numbered

-- ===== property

/-- Each handler that was subscribed under a matching pattern has one
delivery, and there are no others. -/
def Dispatch.Once (d : Dispatch) : Prop :=
  (d.deliveries.map (·.handler)).Nodup ∧
  ∀ handler, handler ∈ d.deliveries.map (·.handler) ↔
    ∃ entry ∈ d.subscribers, fnmatchcase d.emission.event.eventType entry.1 = true ∧ handler ∈ entry.2

namespace CognitiveBus

section Property

variable (s : CognitiveBus)

/-- The events that were dispatched, and then those that wait, are the
events in the order of their emission. -/
def Ordered : Prop := s.dispatches.map (·.emission) ++ s.queue = s.emitted

structure Handled : Prop where
  once : ∀ d ∈ s.dispatches, d.Once
  /-- No handler is cut off. -/
  finished : ∀ d ∈ s.dispatches, ∀ x ∈ d.deliveries, x.phase ≠ .cancelled
  /-- A stop that returned left nothing undelivered. -/
  flushed : ∀ c ∈ s.stops, ∀ left, c.phase = .returned left → left = []
  /-- A pending response belongs to a call for its event that goes on. -/
  pending : ∀ id (call : Nat), s.pending.get? id = some call →
    ∃ c, s.waits[call]? = some c ∧ c.event.eventId = id ∧ c.phase ≠ .over

def Delivers : Prop := s.Ordered ∧ s.Handled

end Property

/-- A stopped bus is only told events when its queue is empty; no handler
is subscribed under two patterns that match what is dispatched; no handler
is cancelled; where an emit inside `emit_and_wait` is cancelled, its entry
is not there any more; and when a stop returns, no event from before it is
being handled. -/
def Careful : BusStep → CognitiveBus → Prop
  | .emit event, s | .emitAndWait event, s =>
      s.running = false → s.queue = [] ∧ (s.findMatchingHandlers event.eventType).Nodup
  | .take _, s | .flushNext _, s =>
      ∀ emission, s.queue.head? = some emission →
        (s.findMatchingHandlers emission.event.eventType).Nodup
  | .interrupted _ _, _ => False
  | .resume i, s =>
      ∀ d, s.dispatches[i]? = some d → d.cancelled = true → ∀ call, d.waiter = .wait call →
        ∀ id, s.pending.get? id ≠ some call
  | .stopReturns call, s =>
      ∀ c, s.stops[call]? = some c →
        ∀ d ∈ s.dispatches, d.emission.number < c.before → d.isFinished = true
  | _, _ => True

def Numbered (s : CognitiveBus) : Prop :=
  ∀ (i : Nat) (e : Emission), s.emitted[i]? = some e → e.number = i

section Steps

variable {s s' : CognitiveBus}

-- ===== dispatches

/-- The dispatches are the same but for how far they have come, and none
was cut off anew. -/
def Alike (ds ds' : List Dispatch) : Prop :=
  ∀ d' ∈ ds', ∃ d ∈ ds, d'.emission = d.emission ∧ d'.subscribers = d.subscribers ∧
    d'.deliveries.map (·.handler) = d.deliveries.map (·.handler) ∧
    ∀ x ∈ d'.deliveries, x.phase = .cancelled → ∃ y ∈ d.deliveries, y.phase = .cancelled

theorem Alike.once {ds ds' : List Dispatch} (h : Alike ds ds') (hds : ∀ d ∈ ds, d.Once) :
    ∀ d ∈ ds', d.Once := by
  intro d' hd'
  obtain ⟨d, hd, hemission, hsubs, hhandlers, -⟩ := h d' hd'
  have honce := hds d hd
  unfold Dispatch.Once at honce ⊢
  rw [hemission, hsubs, hhandlers]
  exact honce

theorem Alike.finished {ds ds' : List Dispatch} (h : Alike ds ds')
    (hds : ∀ d ∈ ds, ∀ x ∈ d.deliveries, x.phase ≠ .cancelled) :
    ∀ d ∈ ds', ∀ x ∈ d.deliveries, x.phase ≠ .cancelled := by
  intro d' hd' x hx hphase
  obtain ⟨d, hd, -, -, -, hcut⟩ := h d' hd'
  obtain ⟨y, hy, hcancelled⟩ := hcut x hx hphase
  exact hds d hd y hy hcancelled

theorem alike_set {ds : List Dispatch} {i : Nat} {d d' : Dispatch} (hd : ds[i]? = some d)
    (hemission : d'.emission = d.emission) (hsubs : d'.subscribers = d.subscribers)
    (hhandlers : d'.deliveries.map (·.handler) = d.deliveries.map (·.handler))
    (hcut : ∀ x ∈ d'.deliveries, x.phase = .cancelled → ∃ y ∈ d.deliveries, y.phase = .cancelled) :
    Alike ds (ds.set i d') := by
  intro other hother
  rcases mem_set hother with rfl | hold
  · exact ⟨d, List.mem_of_getElem? hd, hemission, hsubs, hhandlers, hcut⟩
  · exact ⟨other, hold, rfl, rfl, rfl, fun x hx hphase => ⟨x, hx, hphase⟩⟩

theorem alike_cancel (s : CognitiveBus) (p : Dispatch → Bool) :
    Alike s.dispatches (s.cancelDispatches p).dispatches := by
  intro d' hd'
  obtain ⟨d, hd, rfl⟩ := List.mem_map.1 hd'
  refine ⟨d, hd, ?_⟩
  split
  next =>
    refine ⟨rfl, rfl, ?_, fun x hx hphase => ?_⟩
    · dsimp only
      rw [List.map_map]
      rfl
    · obtain ⟨y, hy, rfl⟩ := List.mem_map.1 hx
      exact ⟨y, hy, hphase⟩
  next => exact ⟨rfl, rfl, rfl, fun x hx hphase => ⟨x, hx, hphase⟩⟩

theorem cancel_emissions (s : CognitiveBus) (p : Dispatch → Bool) :
    (s.cancelDispatches p).dispatches.map (·.emission) = s.dispatches.map (·.emission) := by
  unfold cancelDispatches
  rw [List.map_map]
  refine List.map_congr_left fun d _ => ?_
  dsimp only [Function.comp]
  split <;> rfl

theorem new_once (s : CognitiveBus) (emission : Emission) (waiter : Waiter) :
    (s.newDispatch emission waiter).Once ↔
      (s.findMatchingHandlers emission.event.eventType).Nodup := by
  have hhandlers : (s.newDispatch emission waiter).deliveries.map (·.handler)
      = s.findMatchingHandlers emission.event.eventType := by
    unfold newDispatch
    rw [List.map_map]
    exact List.map_id _
  unfold Dispatch.Once
  rw [hhandlers]
  refine and_iff_left fun handler => ?_
  unfold findMatchingHandlers
  rw [List.mem_flatMap]
  refine exists_congr fun entry => ?_
  rw [List.mem_filter, and_assoc]
  rfl

-- ===== going on

/-- What the coroutines do around a dispatch: no stop returns, and no call
of `emit_and_wait` ends. -/
structure Goes (s s' : CognitiveBus) : Prop where
  subscribers : s'.subscribers = s.subscribers
  queue : s'.queue = s.queue
  running : s'.running = s.running
  emitted : s'.emitted = s.emitted
  dispatches : s'.dispatches = s.dispatches
  pending : s'.pending = s.pending
  stops : ∀ c ∈ s'.stops, c ∈ s.stops ∨ ∀ left, c.phase ≠ .returned left
  waits : ∀ (call : Nat) (c : WaitCall), s.waits[call]? = some c → c.phase ≠ .over →
    ∃ c', s'.waits[call]? = some c' ∧ c'.event = c.event ∧ c'.phase ≠ .over

theorem Goes.handled (h : Goes s s') (hs : s.Handled) : s'.Handled := by
  refine ⟨h.dispatches ▸ hs.once, h.dispatches ▸ hs.finished, fun c hc left hleft => ?_,
    fun id call hget => ?_⟩
  · rcases h.stops c hc with hold | hnew
    · exact hs.flushed c hold left hleft
    · exact (hnew left hleft).elim
  · rw [h.pending] at hget
    obtain ⟨c, hc, hid, hphase⟩ := hs.pending id call hget
    obtain ⟨c', hc', hevent, hphase'⟩ := h.waits call c hc hphase
    exact ⟨c', hc', by rw [hevent, hid], hphase'⟩

theorem Goes.ordered (h : Goes s s') : s'.Ordered ↔ s.Ordered := by
  unfold Ordered
  rw [h.dispatches, h.queue, h.emitted]

theorem waits_modify {waits : List WaitCall} {i : Nat} {f : WaitCall → WaitCall}
    (hevent : ∀ c, (f c).event = c.event) (hphase : ∀ c, c.phase ≠ .over → (f c).phase ≠ .over)
    (call : Nat) (c : WaitCall) (hc : waits[call]? = some c) (halive : c.phase ≠ .over) :
    ∃ c', (waits.modify i f)[call]? = some c' ∧ c'.event = c.event ∧ c'.phase ≠ .over := by
  rcases Decidable.em (call = i) with rfl | hne
  · exact ⟨f c, modify_self hc, hevent c, hphase c halive⟩
  · exact ⟨c, (modify_other hne).trans hc, rfl, halive⟩

theorem stops_modify {stops : List StopCall} {i : Nat} {f : StopCall → StopCall}
    (hf : ∀ c left, (f c).phase ≠ .returned left) :
    ∀ c ∈ stops.modify i f, c ∈ stops ∨ ∀ left, c.phase ≠ .returned left := by
  intro c hc
  rcases mem_modify hc with ⟨old, -, rfl⟩ | hold
  · exact Or.inr (hf old)
  · exact Or.inl hold

theorem goes_self (s : CognitiveBus) : Goes s s :=
  ⟨rfl, rfl, rfl, rfl, rfl, rfl, fun _ hc => Or.inl hc, fun _ c hc h => ⟨c, hc, rfl, h⟩⟩

theorem goes_goOn (s : CognitiveBus) {waiter : Waiter} {cancelled : Bool}
    (h : ∀ call, waiter = .wait call → cancelled = false) : Goes s (s.goOn waiter cancelled) := by
  cases waiter with
  | caller => exact goes_self s
  | dispatcher id =>
      exact ⟨rfl, rfl, rfl, rfl, rfl, rfl, fun _ hc => Or.inl hc, fun _ c hc h => ⟨c, hc, rfl, h⟩⟩
  | stop call =>
      refine ⟨rfl, rfl, rfl, rfl, rfl, rfl, stops_modify fun c left => ?_,
        fun _ c hc h => ⟨c, hc, rfl, h⟩⟩
      dsimp only
      split <;> exact fun heq => by cases heq
  | wait call =>
      cases h call rfl
      exact ⟨rfl, rfl, rfl, rfl, rfl, rfl, fun _ hc => Or.inl hc,
        waits_modify (fun _ => rfl) fun _ _ heq => by cases heq⟩

theorem goes_await (s : CognitiveBus) (waiter : Waiter) : Goes s (s.await waiter) := by
  cases waiter with
  | caller => exact goes_self s
  | dispatcher id =>
      exact ⟨rfl, rfl, rfl, rfl, rfl, rfl, fun _ hc => Or.inl hc, fun _ c hc h => ⟨c, hc, rfl, h⟩⟩
  | stop call =>
      exact ⟨rfl, rfl, rfl, rfl, rfl, rfl, stops_modify fun c left heq => (by cases heq),
        fun _ c hc h => ⟨c, hc, rfl, h⟩⟩
  | wait call =>
      exact ⟨rfl, rfl, rfl, rfl, rfl, rfl, fun _ hc => Or.inl hc,
        waits_modify (fun _ => rfl) fun _ _ heq => by cases heq⟩

theorem goes_answer (s : CognitiveBus) (emission : Emission) : Goes s (s.answer emission) := by
  unfold answer
  split
  next =>
    split
    next =>
      exact ⟨rfl, rfl, rfl, rfl, rfl, rfl, fun _ hc => Or.inl hc,
        waits_modify (fun _ => rfl) fun _ h => h⟩
    next => exact goes_self s
  next => exact goes_self s

-- ===== dispatch, emit

/-- With one more dispatch, all is handled if the handlers are apart. -/
theorem handled_concat (hs : s.Handled) {d : Dispatch}
    (hcut : ∀ x ∈ d.deliveries, x.phase ≠ .cancelled) (queue : List Emission) :
    Handled { s with dispatches := s.dispatches ++ [d], queue := queue } ↔ d.Once := by
  refine ⟨fun h => h.once d (List.mem_append_right _ (List.mem_singleton_self d)), fun honce => ?_⟩
  refine ⟨fun other hother => ?_, fun other hother => ?_, hs.flushed, hs.pending⟩
  · rcases List.mem_append.1 hother with hold | hnew
    · exact hs.once other hold
    · exact List.mem_singleton.1 hnew ▸ honce
  · rcases List.mem_append.1 hother with hold | hnew
    · exact hs.finished other hold
    · exact List.mem_singleton.1 hnew ▸ hcut

theorem delivers_dispatch (hs : s.Handled) (emission : Emission) (rest : List Emission)
    (waiter : Waiter) :
    (dispatch { s with queue := rest } emission waiter).Delivers ↔
      s.dispatches.map (·.emission) ++ emission :: rest = s.emitted ∧
      (s.findMatchingHandlers emission.event.eventType).Nodup := by
  have hcut : ∀ x ∈ (s.newDispatch emission waiter).deliveries, x.phase ≠ .cancelled := by
    intro x hx
    obtain ⟨handler, -, rfl⟩ := List.mem_map.1 hx
    dsimp only
    split <;> exact fun heq => by cases heq
  have hmap : ∀ d : Dispatch, d.emission = emission →
      ((s.dispatches ++ [d]).map (·.emission) ++ rest = s.emitted ↔
        s.dispatches.map (·.emission) ++ emission :: rest = s.emitted) := by
    intro d hd
    rw [List.map_append, List.map_singleton, hd, List.append_assoc, List.singleton_append]
  have hgoes : ∀ (d : Dispatch) (t : CognitiveBus), d.emission = emission →
      (d.Once ↔ (s.findMatchingHandlers emission.event.eventType).Nodup) →
      (∀ x ∈ d.deliveries, x.phase ≠ .cancelled) →
      Goes { s with dispatches := s.dispatches ++ [d], queue := rest } t →
      (t.Delivers ↔ s.dispatches.map (·.emission) ++ emission :: rest = s.emitted ∧
        (s.findMatchingHandlers emission.event.eventType).Nodup) := by
    intro d t hd honce hcut hgoes
    refine and_congr (hgoes.ordered.trans (hmap d hd)) ⟨fun h => ?_, fun h => ?_⟩
    · refine honce.1 (h.once d ?_)
      rw [hgoes.dispatches]
      exact List.mem_append_right _ (List.mem_singleton_self d)
    · exact hgoes.handled ((handled_concat hs hcut rest).2 (honce.2 h))
  unfold dispatch
  dsimp only
  split
  next =>
    exact hgoes { s.newDispatch emission waiter with resumed := true } _ rfl (new_once s emission waiter)
      hcut (goes_goOn _ fun _ _ => rfl)
  next =>
    exact hgoes (s.newDispatch emission waiter) _ rfl (new_once s emission waiter) hcut
      (goes_await _ waiter)

theorem concat_eq_cons {queue : List Emission} {emission : Emission}
    (hnew : ∀ e ∈ queue, e ≠ emission) : emission :: queue = queue ++ [emission] ↔ queue = [] := by
  refine ⟨fun h => ?_, fun h => by rw [h]; rfl⟩
  cases queue with
  | nil => rfl
  | cons e rest => exact (hnew e (List.mem_cons_self ..) (List.cons.inj h).1.symm).elim

theorem Numbered.lt (hn : s.Numbered) {e : Emission} (he : e ∈ s.emitted) :
    e.number < s.emitted.length := by
  obtain ⟨i, hi⟩ := List.mem_iff_getElem?.1 he
  rw [hn i e hi]
  exact (List.getElem?_eq_some_iff.1 hi).1

theorem emitted_emit (s : CognitiveBus) (event : Event) (waiter : Waiter) :
    (s.emit event waiter).emitted = s.emitted ++ [{ number := s.emitted.length, event }] := by
  have hgoes := goes_answer { s with emitted := s.emitted ++ [{ number := s.emitted.length, event }] }
    { number := s.emitted.length, event }
  unfold emit
  dsimp only
  split
  next => exact hgoes.emitted
  next =>
    unfold dispatch
    dsimp only
    split
    next => exact (goes_goOn _ fun _ _ => rfl).emitted.trans hgoes.emitted
    next => exact (goes_await _ waiter).emitted.trans hgoes.emitted

theorem delivers_emit (hn : s.Numbered) (hs : s.Delivers) (event : Event) (waiter : Waiter) :
    (s.emit event waiter).Delivers ↔
      (s.running = false → s.queue = [] ∧ (s.findMatchingHandlers event.eventType).Nodup) := by
  obtain ⟨hordered, hhandled⟩ := hs
  have hgoes := goes_answer { s with emitted := s.emitted ++ [{ number := s.emitted.length, event }] }
    { number := s.emitted.length, event }
  have hbase : Handled { s with emitted := s.emitted ++ [{ number := s.emitted.length, event }] } :=
    ⟨hhandled.once, hhandled.finished, hhandled.flushed, hhandled.pending⟩
  have hnoted := hgoes.handled hbase
  unfold emit
  dsimp only
  rw [hgoes.running]
  split
  next hrunning =>
    have hrun : s.running = true := hrunning
    refine iff_of_true ⟨?_, ⟨hnoted.once, hnoted.finished, hnoted.flushed, hnoted.pending⟩⟩ fun h => ?_
    · unfold Ordered at hordered ⊢
      dsimp only
      rw [hgoes.dispatches, hgoes.queue, hgoes.emitted, ← List.append_assoc, hordered]
    · rw [hrun] at h
      cases h
  next hrunning =>
    have hrun : s.running = false := Bool.eq_false_iff.2 hrunning
    have hnew : ∀ e ∈ s.queue, e ≠ { number := s.emitted.length, event } := by
      intro e he heq
      have hmem : e ∈ s.emitted := by
        rw [← hordered]
        exact List.mem_append_right _ he
      have hlt := hn.lt hmem
      rw [heq] at hlt
      exact (Nat.lt_irrefl _ hlt).elim
    have hdispatch := delivers_dispatch hnoted { number := s.emitted.length, event }
      (answer { s with emitted := s.emitted ++ [{ number := s.emitted.length, event }] }
        { number := s.emitted.length, event }).queue waiter
    refine hdispatch.trans ((and_congr ?_ ?_).trans ⟨fun h _ => h, fun h => h hrun⟩)
    · rw [hgoes.dispatches, hgoes.queue, hgoes.emitted]
      have hsplit : s.dispatches.map (·.emission) ++ s.queue = s.emitted := hordered
      dsimp only
      rw [← hsplit, List.append_assoc, List.append_cancel_left_eq, hsplit]
      exact concat_eq_cons hnew
    · unfold findMatchingHandlers
      rw [hgoes.subscribers]

-- ===== stop

theorem undelivered_iff (hn : s.Numbered) (hordered : s.Ordered) (hqueue : s.queue = [])
    (before : Nat) :
    s.undelivered before = [] ↔
      ∀ d ∈ s.dispatches, d.emission.number < before → d.isFinished = true := by
  have hmap : s.dispatches.map (·.emission) = s.emitted := by
    unfold Ordered at hordered
    rwa [hqueue, List.append_nil] at hordered
  have hnodup : (s.dispatches.map (·.emission)).Nodup := by
    rw [hmap]
    refine List.nodup_iff_injective_getElem.2 fun i j hij => Fin.ext ?_
    have hi := hn i _ (List.getElem?_eq_getElem i.2)
    have hj := hn j _ (List.getElem?_eq_getElem j.2)
    exact hi.symm.trans ((congrArg Emission.number hij).trans hj)
  have hmem : ∀ {e : Emission}, e ∈ s.emitted.take before ↔ e ∈ s.emitted ∧ e.number < before := by
    intro e
    rw [List.mem_take_iff_getElem]
    refine ⟨fun ⟨i, hlt, heq⟩ => ?_, fun ⟨he, hlt⟩ => ?_⟩
    · have hi := List.getElem?_eq_getElem (Nat.lt_of_lt_of_le hlt (Nat.min_le_right _ _))
      rw [heq] at hi
      exact ⟨List.mem_of_getElem? hi, by rw [hn i e hi]; omega⟩
    · obtain ⟨i, hi⟩ := List.mem_iff_getElem?.1 he
      obtain ⟨hlen, heq⟩ := List.getElem?_eq_some_iff.1 hi
      rw [hn i e hi] at hlt
      exact ⟨i, by omega, heq⟩
  unfold undelivered
  rw [List.filter_eq_nil_iff]
  refine ⟨fun h d hd hlt => ?_, fun h e he hnot => ?_⟩
  · have he : d.emission ∈ s.emitted := hmap ▸ List.mem_map_of_mem (f := (·.emission)) hd
    have hdelivered : s.isDelivered d.emission = true := by
      simpa using h d.emission (hmem.2 ⟨he, hlt⟩)
    obtain ⟨other, hother, hboth⟩ := List.any_eq_true.1 hdelivered
    obtain ⟨hsame, hfinished⟩ := Bool.and_eq_true_iff.1 hboth
    have heq := List.inj_on_of_nodup_map hnodup hother hd (of_decide_eq_true hsame)
    exact heq ▸ hfinished
  · obtain ⟨hin, hlt⟩ := hmem.1 he
    rw [← hmap] at hin
    obtain ⟨d, hd, rfl⟩ := List.mem_map.1 hin
    have hdelivered : s.isDelivered d.emission = true :=
      List.any_eq_true.2 ⟨d, hd, by simp [h d hd hlt]⟩
    rw [hdelivered] at hnot
    cases hnot

/-- A call of `emit_and_wait` ends, and takes its entry along. -/
theorem handled_endWait (hs : s.Handled) {call : Nat} {c : WaitCall} (hc : s.waits[call]? = some c) :
    (s.endWait call c.event).Handled := by
  refine ⟨hs.once, hs.finished, hs.flushed, fun id other hget => ?_⟩
  have hne : id ≠ c.event.eventId := fun heq => by
    subst heq
    cases (Assoc.get?_pop_self s.pending _).symm.trans hget
  have hold : s.pending.get? id = some other := (Assoc.get?_pop_of_ne s.pending hne).symm.trans hget
  obtain ⟨c', hc', hid, hphase⟩ := hs.pending id other hold
  have hother : other ≠ call := fun heq => by
    subst heq
    cases hc.symm.trans hc'
    exact hne hid.symm
  exact ⟨c', (modify_other hother).trans hc', hid, hphase⟩

/-- An emit inside `emit_and_wait` that is cancelled leaves its entry
behind. -/
theorem handled_goOn_cancelled (hs : s.Handled) (call : Nat) :
    (s.goOn (.wait call) true).Handled ↔ ∀ id, s.pending.get? id ≠ some call := by
  refine ⟨fun h id hget => ?_, fun h => ⟨hs.once, hs.finished, hs.flushed, fun id other hget => ?_⟩⟩
  · obtain ⟨c, hc, -, -⟩ := hs.pending id call hget
    obtain ⟨c', hc', -, hphase⟩ := h.pending id call hget
    cases (modify_self hc).symm.trans hc'
    exact hphase rfl
  · obtain ⟨c, hc, hid, hphase⟩ := hs.pending id other hget
    have hother : other ≠ call := fun heq => h id (heq ▸ hget)
    exact ⟨c, (modify_other hother).trans hc, hid, hphase⟩

-- ===== runs

theorem numbered_concat (hn : s.Numbered) {event : Event}
    (h : s'.emitted = s.emitted ++ [{ number := s.emitted.length, event }]) : s'.Numbered := by
  intro i e hi
  rw [h] at hi
  rcases concat_cases hi with ⟨rfl, rfl⟩ | hold
  · rfl
  · exact hn i e hold

theorem emitted_dispatch (s : CognitiveBus) (emission : Emission) (waiter : Waiter) :
    (s.dispatch emission waiter).emitted = s.emitted := by
  unfold dispatch
  dsimp only
  split
  next => exact (goes_goOn _ fun _ _ => rfl).emitted
  next => exact (goes_await _ waiter).emitted

theorem emitted_goOn (s : CognitiveBus) (waiter : Waiter) (cancelled : Bool) :
    (s.goOn waiter cancelled).emitted = s.emitted := by
  cases waiter <;> rfl

theorem numbered_step {a : BusStep} (hn : s.Numbered) (hstep : busStep a s = some s') :
    s'.Numbered := by
  have hkeep : s'.emitted = s.emitted → s'.Numbered := fun h i e hi => hn i e (h ▸ hi)
  cases a with
  | subscribe eventType handler =>
      cases hstep
      exact hn
  | unsubscribe eventType handler =>
      cases hstep
      refine hkeep ?_
      unfold unsubscribe
      split
      next => split <;> rfl
      next => rfl
  | emit event =>
      cases hstep
      exact numbered_concat hn (emitted_emit s event .caller)
  | start =>
      cases hstep
      refine hkeep ?_
      unfold start
      split <;> rfl
  | take id =>
      simp only [busStep] at hstep
      split at hstep
      next =>
        split at hstep
        next =>
          cases hstep
          exact hkeep (emitted_dispatch _ _ _)
        next => cases hstep
      next => cases hstep
  | leave id =>
      simp only [busStep] at hstep
      split at hstep
      next =>
        split at hstep
        next =>
          cases hstep
          exact hn
        next => cases hstep
      next => cases hstep
  | handled i j | interrupted i j =>
      simp only [busStep] at hstep
      split at hstep
      next =>
        split at hstep
        next =>
          split at hstep
          next =>
            cases hstep
            exact hn
          next => cases hstep
        next => cases hstep
      next => cases hstep
  | resume i =>
      simp only [busStep] at hstep
      split at hstep
      next =>
        split at hstep
        next =>
          cases hstep
          exact hkeep (emitted_goOn _ _ _)
        next => cases hstep
      next => cases hstep
  | cancel i =>
      simp only [busStep] at hstep
      split at hstep
      next =>
        split at hstep
        next => cases hstep
        next =>
          cases hstep
          exact hn
      next => cases hstep
  | stop =>
      cases hstep
      refine hkeep ?_
      unfold stop
      split <;> rfl
  | flush call caught =>
      simp only [busStep] at hstep
      split at hstep
      next =>
        split at hstep
        next =>
          cases hstep
          exact hn
        next => cases hstep
      next => cases hstep
  | flushNext call =>
      simp only [busStep] at hstep
      split at hstep
      next =>
        cases hstep
        exact hkeep (emitted_dispatch _ _ _)
      next => cases hstep
  | stopReturns call =>
      simp only [busStep] at hstep
      split at hstep
      next =>
        cases hstep
        exact hn
      next => cases hstep
  | emitAndWait event =>
      cases hstep
      exact numbered_concat hn (emitted_emit _ event _)
  | waitReturns call | waitRaises call =>
      simp only [busStep] at hstep
      split at hstep
      next =>
        split at hstep
        next =>
          cases hstep
          exact hn
        next => cases hstep
      next => cases hstep

theorem delivers_next (hs : s.Delivers) {emission : Emission} {rest : List Emission}
    (hqueue : s.queue = emission :: rest) (waiter : Waiter) :
    (dispatch { s with queue := rest } emission waiter).Delivers ↔
      ∀ e, s.queue.head? = some e → (s.findMatchingHandlers e.event.eventType).Nodup := by
  have hordered : s.dispatches.map (·.emission) ++ emission :: rest = s.emitted := hqueue ▸ hs.1
  refine (delivers_dispatch hs.2 emission rest waiter).trans ((and_iff_right hordered).trans ?_)
  rw [hqueue]
  exact ⟨fun h e he => Option.some.inj he ▸ h, fun h => h emission rfl⟩

theorem ordered_set (hs : s.Ordered) {i : Nat} {d d' : Dispatch} (hd : s.dispatches[i]? = some d)
    (hemission : d'.emission = d.emission) :
    Ordered { s with dispatches := s.dispatches.set i d' } := by
  unfold Ordered
  dsimp only
  rw [map_set_same hd hemission]
  exact hs

theorem delivers_handled (hs : s.Delivers) {i j : Nat} {d : Dispatch} {x y : Delivery}
    (hd : s.dispatches[i]? = some d) (hx : d.deliveries[j]? = some x)
    (hhandler : y.handler = x.handler) :
    Delivers { s with
      dispatches := s.dispatches.set i { d with deliveries := d.deliveries.set j y } } ↔
      y.phase ≠ .cancelled := by
  have hhandlers : (d.deliveries.set j y).map (·.handler) = d.deliveries.map (·.handler) :=
    map_set_same hx hhandler
  refine ⟨fun h => ?_, fun h => ⟨ordered_set hs.1 hd rfl, ?_⟩⟩
  · refine h.2.finished { d with deliveries := d.deliveries.set j y } ?_ y ?_
    · exact List.mem_of_getElem? (set_self hd)
    · exact List.mem_of_getElem? (set_self hx)
  · have hcut : ∀ z ∈ d.deliveries.set j y, z.phase = .cancelled →
        ∃ w ∈ d.deliveries, w.phase = .cancelled := by
      intro z hz hphase
      rcases mem_set hz with rfl | hold
      · exact (h hphase).elim
      · exact ⟨z, hold, hphase⟩
    have halike : Alike s.dispatches
        (s.dispatches.set i { d with deliveries := d.deliveries.set j y }) :=
      alike_set hd rfl rfl hhandlers hcut
    exact ⟨halike.once hs.2.once, halike.finished hs.2.finished, hs.2.flushed, hs.2.pending⟩

/-- Only a call of `emit_and_wait` whose emit is cancelled leaves something
behind. -/
theorem delivers_goOn (hs : s.Delivers) (waiter : Waiter) (cancelled : Bool) :
    (s.goOn waiter cancelled).Delivers ↔
      (cancelled = true → ∀ call, waiter = .wait call → ∀ id, s.pending.get? id ≠ some call) := by
  have hgoes : (∀ call, waiter = .wait call → cancelled = false) →
      (s.goOn waiter cancelled).Delivers := fun h =>
    ⟨(goes_goOn s h).ordered.2 hs.1, (goes_goOn s h).handled hs.2⟩
  cases cancelled with
  | false => exact iff_of_true (hgoes fun _ _ => rfl) fun h => by cases h
  | true =>
      cases waiter with
      | wait call =>
          have hordered : (s.goOn (.wait call) true).Ordered := hs.1
          refine (and_iff_right hordered).trans ((handled_goOn_cancelled hs.2 call).trans ?_)
          refine ⟨fun h _ other hother => ?_, fun h => h rfl call rfl⟩
          cases hother
          exact h
      | caller | dispatcher _ | stop _ =>
          refine iff_of_true (hgoes fun _ h => by cases h) fun _ call h => ?_
          cases h

theorem delivers_resume (hs : s.Delivers) {i : Nat} {d : Dispatch} (hd : s.dispatches[i]? = some d) :
    (goOn { s with dispatches := s.dispatches.set i { d with resumed := true } } d.waiter
      d.cancelled).Delivers ↔ Careful (.resume i) s := by
  have halike : Alike s.dispatches (s.dispatches.set i { d with resumed := true }) :=
    alike_set hd rfl rfl rfl fun x hx hphase => ⟨x, hx, hphase⟩
  have hover : Delivers { s with dispatches := s.dispatches.set i { d with resumed := true } } :=
    ⟨ordered_set hs.1 hd rfl,
      ⟨halike.once hs.2.once, halike.finished hs.2.finished, hs.2.flushed, hs.2.pending⟩⟩
  refine (delivers_goOn hover d.waiter d.cancelled).trans ⟨fun h d' hd' => ?_, fun h => h d hd⟩
  exact Option.some.inj (hd.symm.trans hd') ▸ h

theorem delivers_step {a : BusStep} (hn : s.Numbered) (hs : s.Delivers)
    (hstep : busStep a s = some s') : s'.Delivers ↔ Careful a s := by
  cases a with
  | subscribe eventType handler =>
      cases hstep
      exact iff_of_true ⟨hs.1, ⟨hs.2.once, hs.2.finished, hs.2.flushed, hs.2.pending⟩⟩ trivial
  | unsubscribe eventType handler =>
      cases hstep
      refine iff_of_true ?_ trivial
      unfold unsubscribe
      split
      next =>
        split
        next => exact ⟨hs.1, ⟨hs.2.once, hs.2.finished, hs.2.flushed, hs.2.pending⟩⟩
        next => exact hs
      next => exact hs
  | emit event =>
      cases hstep
      exact delivers_emit hn hs event .caller
  | start =>
      cases hstep
      refine iff_of_true ?_ trivial
      unfold start
      split
      next => exact hs
      next => exact ⟨hs.1, ⟨hs.2.once, hs.2.finished, hs.2.flushed, hs.2.pending⟩⟩
  | take id =>
      simp only [busStep] at hstep
      split at hstep
      next hqueue =>
        split at hstep
        next =>
          cases hstep
          exact delivers_next hs hqueue (.dispatcher id)
        next => cases hstep
      next => cases hstep
  | leave id =>
      simp only [busStep] at hstep
      split at hstep
      next =>
        split at hstep
        next =>
          cases hstep
          exact iff_of_true ⟨hs.1, ⟨hs.2.once, hs.2.finished, hs.2.flushed, hs.2.pending⟩⟩ trivial
        next => cases hstep
      next => cases hstep
  | handled i j =>
      simp only [busStep] at hstep
      split at hstep
      next d hd =>
        split at hstep
        next x hx =>
          split at hstep
          next =>
            cases hstep
            refine (delivers_handled hs hd hx ?_).trans (iff_of_true (fun h => by cases h) trivial)
            rfl
          next => cases hstep
        next => cases hstep
      next => cases hstep
  | interrupted i j =>
      simp only [busStep] at hstep
      split at hstep
      next d hd =>
        split at hstep
        next x hx =>
          split at hstep
          next =>
            cases hstep
            refine (delivers_handled hs hd hx ?_).trans (iff_of_false (fun h => h rfl) id)
            rfl
          next => cases hstep
        next => cases hstep
      next => cases hstep
  | resume i =>
      simp only [busStep] at hstep
      split at hstep
      next d hd =>
        split at hstep
        next =>
          cases hstep
          exact delivers_resume hs hd
        next => cases hstep
      next => cases hstep
  | cancel i =>
      simp only [busStep] at hstep
      split at hstep
      next d hd =>
        split at hstep
        next => cases hstep
        next =>
          cases hstep
          have halike := alike_cancel s (· = d)
          refine iff_of_true ⟨?_, halike.once hs.2.once, halike.finished hs.2.finished, hs.2.flushed,
            hs.2.pending⟩ trivial
          exact (congrArg (· ++ s.queue) (cancel_emissions s (· = d))).trans hs.1
      next => cases hstep
  | stop =>
      cases hstep
      refine iff_of_true ?_ trivial
      have hnew : ∀ {c new : StopCall}, c ∈ s.stops ++ [new] → (∀ left, new.phase ≠ .returned left) →
          ∀ left, c.phase = .returned left → left = [] := by
        intro c new hc hphase left hleft
        rcases List.mem_append.1 hc with hold | hlast
        · exact hs.2.flushed c hold left hleft
        · cases List.mem_singleton.1 hlast
          exact (hphase left hleft).elim
      unfold stop
      split
      next id _ =>
        have halike := alike_cancel s (·.waiter = .dispatcher id)
        refine ⟨?_, halike.once hs.2.once, halike.finished hs.2.finished,
          fun c hc => hnew hc fun _ h => (by cases h), hs.2.pending⟩
        exact (congrArg (· ++ s.queue) (cancel_emissions s _)).trans hs.1
      next =>
        exact ⟨hs.1, hs.2.once, hs.2.finished, fun c hc => hnew hc fun _ h => (by cases h),
          hs.2.pending⟩
  | flush call caught =>
      simp only [busStep] at hstep
      split at hstep
      next before id hc =>
        split at hstep
        next =>
          cases hstep
          refine iff_of_true ⟨hs.1, hs.2.once, hs.2.finished, fun c hc left hleft => ?_, hs.2.pending⟩
            trivial
          rcases mem_set hc with rfl | hold
          · cases hleft
          · exact hs.2.flushed c hold left hleft
        next => cases hstep
      next => cases hstep
  | flushNext call =>
      simp only [busStep] at hstep
      split at hstep
      next hqueue =>
        cases hstep
        exact delivers_next hs hqueue (.stop call)
      next => cases hstep
  | stopReturns call =>
      simp only [busStep] at hstep
      split at hstep
      next before hcall hqueue =>
        cases hstep
        have hcareful : Careful (.stopReturns call) s ↔ s.undelivered before = [] := by
          rw [undelivered_iff hn hs.1 hqueue before]
          refine ⟨fun h => h _ hcall, fun h c hc => ?_⟩
          cases hcall.symm.trans hc
          exact h
        rw [hcareful]
        refine ⟨fun h => ?_, fun h => ⟨hs.1, hs.2.once, hs.2.finished, fun c hc left hleft => ?_,
          hs.2.pending⟩⟩
        · exact h.2.flushed _ (List.mem_of_getElem? (set_self hcall)) _ rfl
        · rcases mem_set hc with rfl | hold
          · cases hleft
            exact h
          · exact hs.2.flushed c hold left hleft
      next => cases hstep
  | emitAndWait event =>
      cases hstep
      have hasked : Handled { s with
          pending := s.pending.set event.eventId s.waits.length
          waits := s.waits ++ [WaitCall.mk event .waiting none] } := by
        refine ⟨hs.2.once, hs.2.finished, hs.2.flushed, fun id call hget => ?_⟩
        rcases Assoc.get?_set_cases hget with ⟨rfl, rfl⟩ | ⟨-, hold⟩
        · exact ⟨_, concat_last, rfl, fun h => by cases h⟩
        · obtain ⟨c, hc, hid, hphase⟩ := hs.2.pending id call hold
          exact ⟨c, concat_old hc, hid, hphase⟩
      exact delivers_emit (s := { s with
          pending := s.pending.set event.eventId s.waits.length
          waits := s.waits ++ [WaitCall.mk event .waiting none] })
        hn ⟨hs.1, hasked⟩ event (.wait s.waits.length)
  | waitReturns call | waitRaises call =>
      simp only [busStep] at hstep
      split at hstep
      next c hc =>
        split at hstep
        next =>
          cases hstep
          exact iff_of_true ⟨hs.1, handled_endWait hs.2 hc⟩ trivial
        next => cases hstep
      next => cases hstep

end Steps

-- ===== results

variable {steps : List BusStep}

/-- A run delivers every event as it should, throughout, exactly when its
steps are careful. -/
theorem events_delivered_iff {s : CognitiveBus} (hrun : run busStep steps {} = some s) :
    Meets busStep (fun _ s => s.Delivers) steps {} ∧ s.Delivers ↔ Meets busStep Careful steps {} := by
  have hnumbered : Numbered {} := fun _ _ h => by cases h
  have hempty : Delivers {} :=
    ⟨rfl, fun _ h => (by cases h), fun _ h => (by cases h), fun _ h => (by cases h),
      fun _ _ h => (by cases h)⟩
  exact kept_iff_meets (fun _ _ _ hn hstep => numbered_step hn hstep)
    (fun _ _ _ hn hs hstep => delivers_step hn hs hstep) hnumbered hempty hrun

def Calm : BusStep → CognitiveBus → Prop
  | .emit event, s | .emitAndWait event, s =>
      s.running = false → s.queue = [] ∧ (s.findMatchingHandlers event.eventType).Nodup
  | .take _, s | .flushNext _, s =>
      ∀ e ∈ s.queue.head?, (s.findMatchingHandlers e.event.eventType).Nodup
  | .interrupted _ _, _ => False
  | .resume i, s => ∀ d ∈ s.dispatches[i]?, d.cancelled = false
  | .stopReturns call, s =>
      ∀ c ∈ s.stops[call]?, ∀ d ∈ s.dispatches, d.emission.number < c.before → d.isFinished = true
  | _, _ => True

instance (a : BusStep) (s : CognitiveBus) : Decidable (Calm a s) := by
  cases a <;> unfold Calm <;> infer_instance

theorem careful_of_calm {a : BusStep} {s : CognitiveBus} (h : Calm a s) : Careful a s := by
  cases a with
  | resume i =>
      intro d hd hcancelled
      rw [h d hd] at hcancelled
      cases hcancelled
  | _ => exact h

def note (id eventType : String) (correlationId : Option PyStr := none) : Event :=
  { eventId := id.toList, eventType := eventType.toList, correlationId }

/-- Events at rest and at work, a question and its answer, and a stop. -/
def calmSession : List BusStep :=
  [.subscribe "a*".toList { id := 0 }, .emit (note "1" "ab"), .handled 0 0, .resume 0, .start,
    .emit (note "2" "a"), .take 0, .handled 1 0, .resume 1, .emitAndWait (note "3" "ask"), .take 0,
    .handled 2 0, .resume 2, .emit (note "4" "reply" (some "3".toList)), .waitReturns 0, .stop,
    .leave 0, .flush 0 false, .flushNext 0, .stopReturns 0]

def afterCalm : CognitiveBus := (run busStep calmSession {}).getD {}

theorem calm_delivered : run busStep calmSession {} = some afterCalm ∧ afterCalm.Delivers := by
  have hrun : run busStep calmSession {} = some afterCalm := by decide
  have hcalm : Meets busStep Calm calmSession {} := by decide
  exact ⟨hrun, ((events_delivered_iff hrun).2 (hcalm.mono fun _ _ => careful_of_calm)).2⟩

def stoppedHandler : List BusStep :=
  [.subscribe "a".toList { id := 0 }, .start, .emit (note "1" "a"), .take 0, .stop,
    .interrupted 0 0, .resume 0, .flush 0 false, .stopReturns 0]

def afterStopped : CognitiveBus := (run busStep stoppedHandler {}).getD {}

def overtaking : List BusStep := [.start, .emit (note "1" "a"), .stop, .emit (note "2" "a")]

def afterOvertaking : CognitiveBus := (run busStep overtaking {}).getD {}

/-- A call of `emit_and_wait` is cancelled in its emit. -/
def abandonedWait : List BusStep :=
  [.subscribe "a".toList { id := 0 }, .emitAndWait (note "1" "a"), .cancel 0, .interrupted 0 0,
    .resume 0]

def afterAbandoned : CognitiveBus := (run busStep abandonedWait {}).getD {}

/-- The handler is cut off though the stop returns; the second event comes
before the first; the entry stays. -/
theorem events_misdelivered :
    (run busStep stoppedHandler {} = some afterStopped ∧
      ∃ d ∈ afterStopped.dispatches, ∃ x ∈ d.deliveries, x.phase = .cancelled) ∧
    (run busStep overtaking {} = some afterOvertaking ∧ ¬ afterOvertaking.Ordered) ∧
    (run busStep abandonedWait {} = some afterAbandoned ∧
      afterAbandoned.pending.get? "1".toList = some 0 ∧
      afterAbandoned.waits[0]?.map (·.phase) = some .over) ∧
    ¬ afterStopped.Delivers ∧ ¬ afterOvertaking.Delivers ∧ ¬ afterAbandoned.Delivers := by
  have hcut : ∃ d ∈ afterStopped.dispatches, ∃ x ∈ d.deliveries, x.phase = .cancelled := by decide
  have hturned : ¬ afterOvertaking.Ordered := by
    unfold Ordered
    decide
  have hkept : afterAbandoned.pending.get? "1".toList = some 0 := by decide
  have hover : afterAbandoned.waits[0]?.map (·.phase) = some .over := by decide
  refine ⟨⟨by decide, hcut⟩, ⟨by decide, hturned⟩, ⟨by decide, hkept, hover⟩, fun h => ?_,
    fun h => hturned h.1, fun h => ?_⟩
  · obtain ⟨d, hd, x, hx, hphase⟩ := hcut
    exact h.2.finished d hd x hx hphase
  · obtain ⟨c, hc, -, hphase⟩ := h.2.pending _ 0 hkept
    rw [hc] at hover
    exact hphase (Option.some.inj hover)

end CognitiveBus

-- ===== nothing lost

namespace CognitiveBus

def dispatched (s : CognitiveBus) : List Emission := s.dispatches.map (·.emission)

/-- What a step does to the events: nothing, or it emits one into the queue
or past it, or it takes the first of the queue. -/
inductive Moves (s s' : CognitiveBus) : Prop
  | keeps (hdone : s'.dispatched = s.dispatched) (hqueue : s'.queue = s.queue)
      (hemitted : s'.emitted = s.emitted)
  | queues (e : Emission) (hdone : s'.dispatched = s.dispatched) (hqueue : s'.queue = s.queue ++ [e])
      (hemitted : s'.emitted = s.emitted ++ [e])
  | passes (e : Emission) (hdone : s'.dispatched = s.dispatched ++ [e]) (hqueue : s'.queue = s.queue)
      (hemitted : s'.emitted = s.emitted ++ [e])
  | takes (e : Emission) (hdone : s'.dispatched = s.dispatched ++ [e])
      (hqueue : s.queue = e :: s'.queue) (hemitted : s'.emitted = s.emitted)

section Moves

variable {s s' : CognitiveBus}

/-- Whatever was emitted is queued or was dispatched, and only once. -/
def Accounted (s : CognitiveBus) : Prop := (s.dispatched ++ s.queue).Perm s.emitted

theorem Moves.accounted (hm : Moves s s') (h : s.Accounted) : s'.Accounted := by
  unfold Accounted at h ⊢
  cases hm with
  | keeps hdone hqueue hemitted => rwa [hdone, hqueue, hemitted]
  | queues e hdone hqueue hemitted =>
      rw [hdone, hqueue, hemitted, ← List.append_assoc]
      exact h.append_right [e]
  | passes e hdone hqueue hemitted =>
      rw [hdone, hqueue, hemitted]
      refine List.Perm.trans ?_ (h.append_right [e])
      rw [List.append_assoc, List.append_assoc]
      exact List.perm_append_comm.append_left _
  | takes e hdone hqueue hemitted =>
      rw [hqueue] at h
      rwa [hdone, hemitted, List.append_assoc]

theorem Goes.dispatched (h : Goes s s') : s'.dispatched = s.dispatched :=
  congrArg (List.map _) h.dispatches

theorem dispatch_goes (s : CognitiveBus) (emission : Emission) (waiter : Waiter) :
    ∃ d, d.emission = emission
      ∧ Goes { s with dispatches := s.dispatches ++ [d] } (s.dispatch emission waiter) := by
  unfold dispatch
  dsimp only
  split
  · exact ⟨{ s.newDispatch emission waiter with resumed := true }, rfl, goes_goOn _ fun _ _ => rfl⟩
  · exact ⟨s.newDispatch emission waiter, rfl, goes_await _ waiter⟩

theorem moves_emit (s : CognitiveBus) (event : Event) (waiter : Waiter) :
    Moves s (s.emit event waiter) := by
  have hemitted := emitted_emit s event waiter
  generalize hnew : Emission.mk s.emitted.length event = new at hemitted
  have hnoted := goes_answer { s with emitted := s.emitted ++ [new] } new
  unfold emit at hemitted ⊢
  rw [hnew] at hemitted ⊢
  dsimp only at hemitted ⊢
  split
  · exact .queues new hnoted.dispatched (congrArg (· ++ [new]) hnoted.queue) hnoted.emitted
  · obtain ⟨d, rfl, hgoes⟩ :=
      dispatch_goes (answer { s with emitted := s.emitted ++ [new] } new) new waiter
    refine .passes d.emission ?_ (hgoes.queue.trans hnoted.queue) (hgoes.emitted.trans hnoted.emitted)
    rw [hgoes.dispatched]
    unfold CognitiveBus.dispatched
    rw [List.map_append, hnoted.dispatches]
    rfl

theorem moves_next {emission : Emission} {rest : List Emission} (hqueue : s.queue = emission :: rest)
    (waiter : Waiter) : Moves s (dispatch { s with queue := rest } emission waiter) := by
  obtain ⟨d, rfl, hgoes⟩ := dispatch_goes { s with queue := rest } emission waiter
  refine .takes d.emission (hgoes.dispatched.trans List.map_append) ?_ hgoes.emitted
  rw [hgoes.queue]
  exact hqueue

theorem moves_step {a : BusStep} (hstep : busStep a s = some s') : Moves s s' := by
  cases a with
  | subscribe eventType handler =>
      cases hstep
      exact .keeps rfl rfl rfl
  | unsubscribe eventType handler =>
      cases hstep
      unfold unsubscribe
      split
      · split <;> exact .keeps rfl rfl rfl
      · exact .keeps rfl rfl rfl
  | emit event =>
      cases hstep
      exact moves_emit s event .caller
  | start =>
      cases hstep
      unfold start
      split <;> exact .keeps rfl rfl rfl
  | take id =>
      simp only [busStep] at hstep
      split at hstep
      next hqueue =>
        split at hstep <;> cases hstep
        exact moves_next hqueue (.dispatcher id)
      next => cases hstep
  | handled i j | interrupted i j =>
      simp only [busStep] at hstep
      split at hstep
      next hd =>
        split at hstep
        next =>
          split at hstep <;> cases hstep
          exact .keeps (map_set_same hd rfl) rfl rfl
        next => cases hstep
      next => cases hstep
  | resume i =>
      simp only [busStep] at hstep
      split at hstep
      next d hd =>
        split at hstep <;> cases hstep
        cases hw : d.waiter <;> exact .keeps (map_set_same hd rfl) rfl rfl
      next => cases hstep
  | cancel i =>
      simp only [busStep] at hstep
      split at hstep
      next =>
        split at hstep <;> cases hstep
        exact .keeps (cancel_emissions s _) rfl rfl
      next => cases hstep
  | stop =>
      cases hstep
      unfold stop
      split
      · exact .keeps (cancel_emissions s _) rfl rfl
      · exact .keeps rfl rfl rfl
  | flushNext call =>
      simp only [busStep] at hstep
      split at hstep <;> cases hstep
      next hqueue => exact moves_next hqueue (.stop call)
  | emitAndWait event =>
      cases hstep
      have hmoves := moves_emit { s with
          pending := s.pending.set event.eventId s.waits.length
          waits := s.waits ++ [WaitCall.mk event .waiting none] } event (.wait s.waits.length)
      cases hmoves with
      | keeps h₁ h₂ h₃ => exact .keeps h₁ h₂ h₃
      | queues e h₁ h₂ h₃ => exact .queues e h₁ h₂ h₃
      | passes e h₁ h₂ h₃ => exact .passes e h₁ h₂ h₃
      | takes e h₁ h₂ h₃ => exact .takes e h₁ h₂ h₃
  | leave _ | flush _ _ | stopReturns _ | waitReturns _ | waitRaises _ =>
      simp only [busStep] at hstep
      split at hstep
      next =>
        first
        | cases hstep
        | split at hstep <;> cases hstep
        exact .keeps rfl rfl rfl
      next => cases hstep

end Moves

/-- In every interleaving, whatever is cancelled, raises or is stopped: an
event that was emitted was dispatched once or is in the queue, and when a
stop returns, all of them were dispatched. -/
theorem none_lost {steps : List BusStep} {s : CognitiveBus}
    (hrun : run busStep steps {} = some s) :
    (s.dispatched ++ s.queue).Perm s.emitted ∧ s.dispatched.Nodup
      ∧ ∀ call t, busStep (.stopReturns call) s = some t → t.dispatched.Perm t.emitted := by
  have hstart : Accounted {} := List.Perm.refl []
  have hnumbered : s.Numbered :=
    run_preserves (fun _ _ _ hn hstep => numbered_step hn hstep) (fun _ _ h => by cases h) hrun
  have hall : s.Accounted :=
    run_preserves (fun _ _ _ h hstep => (moves_step hstep).accounted h) hstart hrun
  refine ⟨hall, ?_, fun call t hreturns => ?_⟩
  · have hnodup : s.emitted.Nodup := by
      refine List.nodup_iff_injective_getElem.2 fun i j hij => Fin.ext ?_
      have hi := hnumbered i _ (List.getElem?_eq_getElem i.2)
      have hj := hnumbered j _ (List.getElem?_eq_getElem j.2)
      exact hi.symm.trans ((congrArg Emission.number hij).trans hj)
    exact (hall.nodup_iff.2 hnodup).of_append_left
  · simp only [busStep] at hreturns
    split at hreturns <;> cases hreturns
    next hqueue =>
      unfold Accounted at hall
      rwa [hqueue, List.append_nil] at hall

/-- The second event of `overtaking` is dispatched, the first is queued. -/
theorem none_lost_overtaking : ∃ s, run busStep overtaking {} = some s
    ∧ s.queue.length = 1 ∧ (s.dispatched ++ s.queue).Perm s.emitted ∧ s.dispatched.Nodup := by
  have hdone : (run busStep overtaking {}).map (·.queue.length) = some 1 := by decide
  obtain ⟨s, hs, hone⟩ := Option.map_eq_some_iff.1 hdone
  have hall := none_lost hs
  exact ⟨s, hs, hone, hall.1, hall.2.1⟩

end CognitiveBus

end Velune.Events
