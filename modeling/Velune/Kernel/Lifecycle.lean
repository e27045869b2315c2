/-
The lifecycle coordinator (`kernel/lifecycle.py`): components under their
names, brought up by `startup` and torn down by `shutdown`, both of which
wait for one component after the other.

A step is what the event loop runs between two awaits. How long a
component takes, and whether it returns, raises or is cancelled, is left
open. What happened is kept beside the two tables: which objects were
registered, begun, interrupted and torn down. The tasks that `shutdown`
cancels first, and what is only logged, are left out.
-/
import Velune.Domain
import Velune.Lib.Assoc
import Velune.Lib.Runs

namespace Velune.Kernel

open Lib

-- ===== components

inductive ComponentStatus
  | uninitialized
  | initializing
  | healthy
  | degraded
  | failed
  | shuttingDown
  | shutdown
  deriving DecidableEq

inductive Teardown
  | shutdown
  /-- A coroutine function `stop`. -/
  | stop
  /-- An ordinary one. -/
  | stopSync (raises : Bool)
  | nothing
  deriving DecidableEq

structure Component where
  object : Nat
  /-- It has a method `initialize`. -/
  initializes : Bool := true
  teardown : Teardown := .shutdown
  deriving DecidableEq

/-- A finding of `VeluneConfig.validate`, and whether it is critical. -/
structure ConfigIssue where
  critical : Bool
  deriving DecidableEq

-- ===== state

/-- Where a call of `startup` is: awaiting a component, with those still to
come. -/
inductive Startup
  | running (name : PyStr) (component : Component) (todo : List (PyStr × Component))
  | over
  deriving DecidableEq

/-- What there was when a call of `shutdown` ended. -/
structure Ending where
  /-- The call raised. -/
  raised : Bool
  registered : List (PyStr × Component)
  /-- All that had their turn, in this call or another. -/
  turns : List Component
  /-- The names that had their turn in this call. -/
  called : List PyStr
  /-- The names in the order of their first registration. -/
  names : List PyStr
  deriving DecidableEq

/-- Where a call of `shutdown` is: waiting for background tasks, or for a
component. -/
inductive Shutdown
  | draining
  | closing (name : PyStr) (todo called : List PyStr) (cancelled : Bool)
  | over (ending : Ending)
  deriving DecidableEq

structure LifecycleCoordinator where
  components : Assoc PyStr Component := []
  states : Assoc PyStr ComponentStatus := []
  started : Bool := false
  config : Option (List ConfigIssue) := none
  configValidated : Bool := false
  startups : List Startup := []
  shutdowns : List Shutdown := []
  /-- All components that were ever registered. -/
  registered : List (PyStr × Component) := []
  /-- The names in the order of their first registration, since the tables
  were last cleared. -/
  names : List PyStr := []
  /-- The components whose initialisation was begun, in order. -/
  begun : List Component := []
  /-- Those whose initialisation was cancelled. -/
  interrupted : List Component := []
  /-- Those that had their turn in a shutdown: its `shutdown` or `stop` was
  called, if there is one. -/
  turns : List Component := []
  deriving DecidableEq

namespace LifecycleCoordinator

def getStatus (s : LifecycleCoordinator) (name : PyStr) : ComponentStatus :=
  (s.states.get? name).getD .uninitialized

/-- `self._states[name] = status`. -/
def mark (s : LifecycleCoordinator) (name : PyStr) (status : ComponentStatus) :
    LifecycleCoordinator :=
  { s with states := s.states.set name status }

def setStatus (s : LifecycleCoordinator) (name : PyStr) (status : ComponentStatus) :
    LifecycleCoordinator :=
  if name ∈ s.states.keys then s.mark name status else s

def register (s : LifecycleCoordinator) (name : PyStr) (component : Component) :
    LifecycleCoordinator :=
  { s.mark name .uninitialized with
    components := s.components.set name component
    registered :=
      if (name, component) ∈ s.registered then s.registered else s.registered ++ [(name, component)]
    names := if name ∈ s.names then s.names else s.names ++ [name] }

-- ===== startup

/-- The loop of `startup` up to its next await. -/
def startupLoop : List (PyStr × Component) → LifecycleCoordinator → LifecycleCoordinator × Startup
  | [], s => (s, .over)
  | (name, component) :: todo, s =>
      if s.states.get? name ≠ some .uninitialized then startupLoop todo s
      else if component.initializes then
        ({ s.mark name .initializing with begun := s.begun ++ [component] },
          .running name component todo)
      else startupLoop todo ((s.mark name .initializing).mark name .healthy)

def resumeStartup (s : LifecycleCoordinator) (call : Nat) (todo : List (PyStr × Component)) :
    LifecycleCoordinator :=
  { (startupLoop todo s).1 with
    startups := (startupLoop todo s).1.startups.set call (startupLoop todo s).2 }

/-- A first call validates the configuration, and raises on a critical
finding. -/
def startup (s : LifecycleCoordinator) : LifecycleCoordinator :=
  let entered := { s with startups := s.startups ++ [Startup.over] }
  match s.config with
  | some issues =>
      if s.configValidated then
        { entered with started := true }.resumeStartup s.startups.length s.components
      else if issues.any (·.critical) then { entered with configValidated := true }
      else
        { entered with configValidated := true, started := true }.resumeStartup s.startups.length
          s.components
  | none => { entered with started := true }.resumeStartup s.startups.length s.components

-- ===== shutdown

def ending (s : LifecycleCoordinator) (raised : Bool) (called : List PyStr) : Shutdown :=
  .over { raised, registered := s.registered, turns := s.turns, called, names := s.names }

def cleared (s : LifecycleCoordinator) : LifecycleCoordinator :=
  { s with components := [], states := [], started := false, names := [] }

/-- The loop of `shutdown` up to its next await. -/
def shutdownLoop : List PyStr → List PyStr → Bool → LifecycleCoordinator →
    LifecycleCoordinator × Shutdown
  | [], called, cancelled, s => (s.cleared, s.ending cancelled called)
  | name :: todo, called, cancelled, s =>
      match s.components.get? name with
      -- another shutdown has cleared the table: a `KeyError`
      | none => (s, s.ending true called)
      | some component =>
          let taken := { s.mark name .shuttingDown with turns := s.turns ++ [component] }
          match component.teardown with
          | .shutdown | .stop => (taken, .closing name todo (called ++ [name]) cancelled)
          | .stopSync raises =>
              shutdownLoop todo (called ++ [name]) cancelled
                (taken.mark name (if raises then .failed else .shutdown))
          | .nothing => shutdownLoop todo (called ++ [name]) cancelled (taken.mark name .shutdown)

def resumeShutdown (s : LifecycleCoordinator) (call : Nat) (todo called : List PyStr)
    (cancelled : Bool) : LifecycleCoordinator :=
  { (shutdownLoop todo called cancelled s).1 with
    shutdowns :=
      (shutdownLoop todo called cancelled s).1.shutdowns.set call
        (shutdownLoop todo called cancelled s).2 }

end LifecycleCoordinator

-- ===== steps

/-- How the `initialize` of a component ends. -/
inductive InitOutcome
  | returned
  | raised
  | cancelled
  deriving DecidableEq

/-- How its `shutdown` or `stop` ends. -/
inductive TeardownOutcome
  | returned
  | raised
  | timedOut
  | cancelled
  deriving DecidableEq

def TeardownOutcome.status : TeardownOutcome → ComponentStatus
  | .returned => .shutdown
  | .raised | .timedOut | .cancelled => .failed

inductive LifecycleStep
  | setConfig (issues : List ConfigIssue)
  | register (name : PyStr) (component : Component)
  | setStatus (name : PyStr) (status : ComponentStatus)
  | startup
  /-- What a startup waits for has ended. -/
  | initialized (call : Nat) (outcome : InitOutcome)
  | shutdown
  /-- A shutdown has waited for the background tasks. -/
  | drained (call : Nat) (cancelled : Bool)
  /-- What a shutdown waits for has ended. -/
  | tornDown (call : Nat) (outcome : TeardownOutcome)

def lifecycleStep : LifecycleStep → LifecycleCoordinator → Option LifecycleCoordinator
  | .setConfig issues, s => some { s with config := some issues }
  | .register name component, s => some (s.register name component)
  | .setStatus name status, s => some (s.setStatus name status)
  | .startup, s => some s.startup
  | .initialized call outcome, s =>
      match s.startups[call]? with
      | some (.running name component todo) =>
          match outcome with
          | .returned => some ((s.mark name .healthy).resumeStartup call todo)
          | .raised => some ((s.mark name .failed).resumeStartup call todo)
          -- `except Exception` lets a cancellation through
          | .cancelled =>
              some { s with
                startups := s.startups.set call .over
                interrupted := s.interrupted ++ [component] }
      | _ => none
  | .shutdown, s => some { s with shutdowns := s.shutdowns ++ [.draining] }
  | .drained call cancelled, s =>
      match s.shutdowns[call]? with
      | some .draining => some (s.resumeShutdown call s.components.keys.reverse [] cancelled)
      | _ => none
  | .tornDown call outcome, s =>
      match s.shutdowns[call]? with
      | some (.closing name todo called cancelled) =>
          some ((s.mark name outcome.status).resumeShutdown call todo called
            (cancelled || outcome = .cancelled))
      | _ => none

end Velune.Kernel
