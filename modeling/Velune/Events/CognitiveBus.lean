/-
The event bus (`events.py`): handlers subscribed under patterns, a queue
that a background dispatcher empties while the bus runs, and a dispatch at
once while it does not.

A step is what one coroutine does between two awaits, or less: where a
dispatch has no coroutine to wait for, the source goes on to the next
event without giving others a turn, and here others may come between. An
emission is known by its number. What handlers do besides emitting, the
history for `replay`, time stamps and payloads are left out.
-/
import Velune.Domain
import Velune.Lib.Assoc
import Velune.Lib.Runs

namespace Velune.Events

open Lib

-- ===== patterns

/-- `fnmatch`: the parts of `[...]` after its bracket, with whether it is
negated, and what follows. A first `]` is one of its characters. -/
def classOf (pattern : PyStr) : Option (Bool × PyStr × PyStr) :=
  let negated := pattern.head? = some '!'
  let body := if negated then pattern.tail else pattern
  let first := if body.head? = some ']' then [']'] else []
  let more := body.drop first.length
  if ']' ∈ more then
    some (negated, first ++ more.takeWhile (· ≠ ']'), (more.dropWhile (· ≠ ']')).tail)
  else none

def inClass : PyStr → Char → Bool
  | a :: '-' :: b :: rest, c => (a ≤ c && c ≤ b) || inClass rest c
  | a :: rest, c => a = c || inClass rest c
  | [], _ => false

def matchGlob : Nat → PyStr → PyStr → Bool
  | _, [], name => name.isEmpty
  | 0, _ :: _, _ => false
  | fuel + 1, c :: pattern, name =>
      if c = '*' then name.tails.any (matchGlob fuel pattern)
      else
        match name with
        | [] => false
        | d :: rest =>
            if c = '?' then matchGlob fuel pattern rest
            else if c = '[' then
              match classOf pattern with
              | some (negated, body, after) => inClass body d != negated && matchGlob fuel after rest
              | none => c = d && matchGlob fuel pattern rest
            else c = d && matchGlob fuel pattern rest

def fnmatchcase (name pattern : PyStr) : Bool := matchGlob pattern.length pattern name

-- ===== state

structure Event where
  eventId : PyStr
  eventType : PyStr
  correlationId : Option PyStr := none
  deriving DecidableEq

structure Handler where
  id : Nat
  /-- `asyncio.iscoroutinefunction(handler)`. -/
  isAsync : Bool := true
  deriving DecidableEq

structure Emission where
  number : Nat
  event : Event
  deriving DecidableEq

inductive DeliveryPhase
  | running
  | done
  /-- A cancellation ended the handler. -/
  | cancelled
  deriving DecidableEq

structure Delivery where
  handler : Handler
  phase : DeliveryPhase
  /-- A cancellation of its task is requested. -/
  cancelling : Bool := false
  deriving DecidableEq

/-- Whose coroutine waits for a dispatch: the caller of `emit`, a
dispatcher, a call of `stop` or one of `emit_and_wait`. -/
inductive Waiter
  | caller
  | dispatcher (id : Nat)
  | stop (call : Nat)
  | wait (call : Nat)
  deriving DecidableEq

/-- A call of `_dispatch_immediate`. -/
structure Dispatch where
  emission : Emission
  /-- The subscribers there were. -/
  subscribers : Assoc PyStr (List Handler)
  deliveries : List Delivery
  waiter : Waiter
  cancelled : Bool := false
  /-- The waiter has gone on. -/
  resumed : Bool := false
  deriving DecidableEq

inductive DispatcherPhase
  | waiting
  | dispatching
  | ended
  deriving DecidableEq

/-- A task of `_dispatch_loop`. -/
structure Dispatcher where
  phase : DispatcherPhase := .waiting
  cancelled : Bool := false
  deriving DecidableEq

inductive StopPhase
  /-- It awaits the dispatcher. -/
  | awaiting (dispatcher : Nat)
  | flushing
  | dispatching
  /-- It returned, and these of the events before it were not delivered. -/
  | returned (left : List Emission)
  | raised
  deriving DecidableEq

/-- A call of `stop`, and how many events were emitted before it. -/
structure StopCall where
  before : Nat
  phase : StopPhase
  deriving DecidableEq

inductive WaitPhase
  | emitting
  | waiting
  | over
  deriving DecidableEq

/-- A call of `emit_and_wait`, with its future. -/
structure WaitCall where
  event : Event
  phase : WaitPhase := .waiting
  response : Option Emission := none
  deriving DecidableEq

structure CognitiveBus where
  subscribers : Assoc PyStr (List Handler) := []
  queue : List Emission := []
  running : Bool := false
  dispatchTask : Option Nat := none
  /-- `_pending_responses`, with the call that owns each future. -/
  pending : Assoc PyStr Nat := []
  dispatchers : List Dispatcher := []
  stops : List StopCall := []
  waits : List WaitCall := []
  /-- All emissions, and all dispatches, in order. -/
  emitted : List Emission := []
  dispatches : List Dispatch := []
  deriving DecidableEq

def Dispatch.isFinished (dispatch : Dispatch) : Bool :=
  dispatch.deliveries.all (·.phase ≠ .running)

namespace CognitiveBus

-- ===== subscribers

def subscribe (s : CognitiveBus) (eventType : PyStr) (handler : Handler) : CognitiveBus :=
  let handlers := (s.subscribers.get? eventType).getD []
  { s with
    subscribers :=
      s.subscribers.set eventType (if handler ∈ handlers then handlers else handlers ++ [handler]) }

def unsubscribe (s : CognitiveBus) (eventType : PyStr) (handler : Handler) : CognitiveBus :=
  match s.subscribers.get? eventType with
  | some handlers =>
      if handler ∈ handlers then
        { s with
          subscribers :=
            if handlers.erase handler = [] then s.subscribers.pop eventType
            else s.subscribers.set eventType (handlers.erase handler) }
      else s
  | none => s

def findMatchingHandlers (s : CognitiveBus) (eventType : PyStr) : List Handler :=
  (s.subscribers.filter fun entry => fnmatchcase eventType entry.1).flatMap (·.2)

-- ===== dispatch

def goOn (s : CognitiveBus) (waiter : Waiter) (cancelled : Bool) : CognitiveBus :=
  match waiter with
  | .caller => s
  | .dispatcher id =>
      { s with
        dispatchers := s.dispatchers.modify id fun d =>
          { d with phase := if d.cancelled || cancelled || !s.running then .ended else .waiting } }
  | .stop call =>
      { s with
        stops := s.stops.modify call fun c =>
          { c with phase := if cancelled then .raised else .flushing } }
  | .wait call =>
      -- the `finally` of the wait is not reached when the emit is cancelled
      { s with
        waits := s.waits.modify call fun c =>
          { c with phase := if cancelled then .over else .waiting } }

def await (s : CognitiveBus) (waiter : Waiter) : CognitiveBus :=
  match waiter with
  | .caller => s
  | .dispatcher id =>
      { s with dispatchers := s.dispatchers.modify id fun d => { d with phase := .dispatching } }
  | .stop call => { s with stops := s.stops.modify call fun c => { c with phase := .dispatching } }
  | .wait call => { s with waits := s.waits.modify call fun c => { c with phase := .emitting } }

/-- `_dispatch_immediate`: handlers that are no coroutines have run when it
comes to wait. -/
def newDispatch (s : CognitiveBus) (emission : Emission) (waiter : Waiter) : Dispatch :=
  { emission, waiter
    subscribers := s.subscribers
    deliveries := (s.findMatchingHandlers emission.event.eventType).map fun handler =>
      { handler, phase := if handler.isAsync then .running else .done } }

def dispatch (s : CognitiveBus) (emission : Emission) (waiter : Waiter) : CognitiveBus :=
  let new := s.newDispatch emission waiter
  if new.isFinished then
    { s with dispatches := s.dispatches ++ [{ new with resumed := true }] }.goOn waiter false
  else { s with dispatches := s.dispatches ++ [new] }.await waiter

def answer (s : CognitiveBus) (emission : Emission) : CognitiveBus :=
  match emission.event.correlationId.filter (· ≠ []) with
  | some id =>
      match s.pending.get? id with
      | some call =>
          { s with
            waits := s.waits.modify call fun c => { c with response := c.response.or (some emission) } }
      | none => s
  | none => s

/-- `emit`, for the coroutine that calls it. -/
def emit (s : CognitiveBus) (event : Event) (waiter : Waiter) : CognitiveBus :=
  let emission : Emission := { number := s.emitted.length, event }
  let noted := { s with emitted := s.emitted ++ [emission] }.answer emission
  if noted.running then { noted with queue := noted.queue ++ [emission] }
  else noted.dispatch emission waiter

-- ===== start, stop

/-- A request to cancel the task that waits for some dispatches. -/
def cancelDispatches (s : CognitiveBus) (p : Dispatch → Bool) : CognitiveBus :=
  { s with
    dispatches := s.dispatches.map fun d =>
      if p d ∧ ¬ d.resumed then
        { d with
          cancelled := true
          deliveries := d.deliveries.map fun x =>
            { x with cancelling := x.cancelling || x.phase = .running } }
      else d }

def start (s : CognitiveBus) : CognitiveBus :=
  if s.running then s
  else
    { s with
      running := true
      dispatchTask := some s.dispatchers.length
      dispatchers := s.dispatchers ++ [{}] }

def stop (s : CognitiveBus) : CognitiveBus :=
  match s.dispatchTask with
  | some id =>
      { s.cancelDispatches (·.waiter = .dispatcher id) with
        running := false
        dispatchers := s.dispatchers.modify id fun d => { d with cancelled := true }
        stops := s.stops ++ [{ before := s.emitted.length, phase := .awaiting id }] }
  | none =>
      { s with
        running := false
        stops := s.stops ++ [{ before := s.emitted.length, phase := .flushing }] }

def isDelivered (s : CognitiveBus) (emission : Emission) : Bool :=
  s.dispatches.any fun d => d.emission = emission && d.isFinished

def undelivered (s : CognitiveBus) (before : Nat) : List Emission :=
  (s.emitted.take before).filter fun emission => !s.isDelivered emission

-- ===== emit_and_wait

def emitAndWait (s : CognitiveBus) (event : Event) : CognitiveBus :=
  let asked :=
    { s with
      pending := s.pending.set event.eventId s.waits.length
      waits := s.waits ++ [WaitCall.mk event .waiting none] }
  asked.emit event (.wait s.waits.length)

/-- The wait ends, in whatever way, and its `finally` drops the entry. -/
def endWait (s : CognitiveBus) (call : Nat) (event : Event) : CognitiveBus :=
  { s with
    pending := s.pending.pop event.eventId
    waits := s.waits.modify call fun c => { c with phase := .over } }

end CognitiveBus

-- ===== steps

inductive BusStep
  | subscribe (eventType : PyStr) (handler : Handler)
  | unsubscribe (eventType : PyStr) (handler : Handler)
  | emit (event : Event)
  | start
  /-- A dispatcher takes an event from the queue. -/
  | take (dispatcher : Nat)
  /-- A cancelled dispatcher leaves its loop. -/
  | leave (dispatcher : Nat)
  /-- A handler returns or raises. -/
  | handled (dispatch delivery : Nat)
  /-- A handler ends by a cancellation. -/
  | interrupted (dispatch delivery : Nat)
  /-- All handlers of a dispatch have ended, and its coroutine goes on. -/
  | resume (dispatch : Nat)
  /-- The coroutine that waits for a dispatch is cancelled; a dispatcher is
  only by `stop`. -/
  | cancel (dispatch : Nat)
  | stop
  /-- `stop` goes on, when the dispatcher has ended or a cancellation is
  caught. -/
  | flush (call : Nat) (caught : Bool)
  /-- `stop` takes an event from the queue. -/
  | flushNext (call : Nat)
  | stopReturns (call : Nat)
  | emitAndWait (event : Event)
  | waitReturns (call : Nat)
  /-- The wait times out or is cancelled. -/
  | waitRaises (call : Nat)

open CognitiveBus in
def busStep : BusStep → CognitiveBus → Option CognitiveBus
  | .subscribe eventType handler, s => some (s.subscribe eventType handler)
  | .unsubscribe eventType handler, s => some (s.unsubscribe eventType handler)
  | .emit event, s => some (s.emit event .caller)
  | .start, s => some s.start
  | .take id, s =>
      match s.dispatchers[id]?, s.queue with
      | some d, emission :: rest =>
          if d.phase = .waiting ∧ ¬ d.cancelled then
            some ({ s with queue := rest }.dispatch emission (.dispatcher id))
          else none
      | _, _ => none
  | .leave id, s =>
      match s.dispatchers[id]? with
      | some d =>
          if d.phase = .waiting ∧ d.cancelled then
            some { s with dispatchers := s.dispatchers.set id { d with phase := .ended } }
          else none
      | none => none
  | .handled i j, s =>
      match s.dispatches[i]? with
      | some d =>
          match d.deliveries[j]? with
          | some x =>
              if x.phase = .running then
                some { s with
                  dispatches := s.dispatches.set i
                    { d with deliveries := d.deliveries.set j { x with phase := .done } } }
              else none
          | none => none
      | none => none
  | .interrupted i j, s =>
      match s.dispatches[i]? with
      | some d =>
          match d.deliveries[j]? with
          | some x =>
              if x.phase = .running ∧ x.cancelling then
                some { s with
                  dispatches := s.dispatches.set i
                    { d with deliveries := d.deliveries.set j { x with phase := .cancelled } } }
              else none
          | none => none
      | none => none
  | .resume i, s =>
      match s.dispatches[i]? with
      | some d =>
          if d.isFinished ∧ ¬ d.resumed then
            some ({ s with dispatches := s.dispatches.set i { d with resumed := true } }.goOn d.waiter
              d.cancelled)
          else none
      | none => none
  | .cancel i, s =>
      match s.dispatches[i]? with
      | some d =>
          match d.waiter with
          | .dispatcher _ => none
          | _ => some (s.cancelDispatches (· = d))
      | none => none
  | .stop, s => some s.stop
  | .flush call caught, s =>
      match s.stops[call]? with
      | some { before, phase := .awaiting id } =>
          if caught ∨ s.dispatchers[id]?.all (·.phase = .ended) then
            some { s with stops := s.stops.set call { before, phase := .flushing } }
          else none
      | _ => none
  | .flushNext call, s =>
      match s.stops[call]?, s.queue with
      | some { before := _, phase := .flushing }, emission :: rest =>
          some ({ s with queue := rest }.dispatch emission (.stop call))
      | _, _ => none
  | .stopReturns call, s =>
      match s.stops[call]?, s.queue with
      | some { before, phase := .flushing }, [] =>
          some { s with
            stops := s.stops.set call { before, phase := .returned (s.undelivered before) } }
      | _, _ => none
  | .emitAndWait event, s => some (s.emitAndWait event)
  | .waitReturns call, s =>
      match s.waits[call]? with
      | some c =>
          if c.phase = .waiting ∧ c.response.isSome then some (s.endWait call c.event) else none
      | none => none
  | .waitRaises call, s =>
      match s.waits[call]? with
      | some c => if c.phase = .waiting then some (s.endWait call c.event) else none
      | none => none

end Velune.Events
