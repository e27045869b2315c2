/-
The permission gate (`permissions/gate.py`): where a proposed action
meets the policy and the user. ASK is resolved by a batch approval, a
session grant or the interactive callback, whose answers are arguments
here.

How a check ended is a `Route`; the audit text and the error text are
read off it, as the source writes them. A `Session` is a gate together
with the log of its batches and checks: what the theorems about whole
runs speak of. The rest of the session's code changes the gate's mode,
plan state, grants and callbacks between calls in any way it likes.
-/
import Mathlib.Data.Finset.Union
import Velune.Lib.Runs
import Velune.Permissions.Policy

namespace Velune.Permissions

open Lib

-- ===== gate

inductive Approval
  | allowOnce | allowTask | deny
  deriving DecidableEq, Repr

def Approval.value : Approval → PyStr
  | .allowOnce => "allow_once".toList
  | .allowTask => "allow_task".toList
  | .deny => "deny".toList

/-- What a batch approval is filed under: the tool, and type, target and
detail of every action. -/
abbrev BatchKey := PyStr × List (ActionType × PyStr × PyStr)

def batchKey (toolName : PyStr) (actions : List Action) : BatchKey :=
  (toolName, actions.map fun a => (a.actionType, a.target, a.detail))

def sensitive (d : Decision) : Bool :=
  d.highRisk || d.outsideWorkspace || d.actions.any (·.secret)

/-- `PermissionGate`. Its two callbacks are there or not; `extraRoots`
is what its boundary was granted for this task. -/
structure PermissionGate where
  state : PolicyState
  canAsk : Bool := true
  canAskBatch : Bool := true
  sessionGrants : Finset PyStr := ∅
  forceConfirm : Bool := false
  extraRoots : List PurePath := []
  preapproved : Finset BatchKey := ∅
  prerejected : Finset BatchKey := ∅

-- ===== batch

/-- Whether a proposed call is asked about together with others: only
ordinary ASK decisions are. -/
def PermissionGate.batches (g : PermissionGate) (call : PyStr × List Action) : Bool :=
  let decision := authorize call.2 g.state
  decision.verdict == .ask && !sensitive decision
    && !(decide (call.1 ∈ g.sessionGrants) && !g.forceConfirm)

def PermissionGate.pending (g : PermissionGate) (calls : List (PyStr × List Action)) :
    List (PyStr × List Action) :=
  calls.filter g.batches

/-- `preauthorize`; `reply` is the answer to the batch prompt, `none`
when the callback raises. The second component is the set of keys an
approval was given for. -/
def PermissionGate.preauthorize (g : PermissionGate) (calls : List (PyStr × List Action))
    (reply : Option Bool) : PermissionGate × Finset BatchKey :=
  if g.canAskBatch = false ∨ (g.pending calls).length < 2 then (g, ∅)
  else
    let keys := ((g.pending calls).map fun call => batchKey call.1 call.2).toFinset
    match reply with
    | none => (g, ∅)
    | some true => ({ g with preapproved := g.preapproved ∪ keys }, keys)
    | some false => ({ g with prerejected := g.prerejected ∪ keys }, ∅)

def PermissionGate.clearBatch (g : PermissionGate) : PermissionGate :=
  { g with preapproved := ∅, prerejected := ∅ }

-- ===== check

inductive Route
  | policyAllowed | policyDenied | batchApproved | batchRejected | sessionGrant
  /-- There is no interactive callback. -/
  | noOneToAsk
  /-- The interactive callback raised. -/
  | askRaised
  | answered (answer : Approval)
  deriving DecidableEq, Repr

def Route.passes : Route → Bool
  | .policyAllowed | .batchApproved | .sessionGrant => true
  | .answered answer => answer != .deny
  | _ => false

/-- The outcome the audit trail records; a check that raised out of the
callback records none. -/
def Route.outcome : Route → Option PyStr
  | .policyAllowed => some "allowed".toList
  | .policyDenied => some "denied".toList
  | .batchApproved => some "approved by user (batch)".toList
  | .batchRejected => some "rejected by user (batch)".toList
  | .sessionGrant => some "allowed (session grant)".toList
  | .noOneToAsk => some "denied (no interactive approval)".toList
  | .askRaised => none
  | .answered .deny => some "rejected by user".toList
  | .answered answer => some ("approved by user (".toList ++ answer.value ++ ")".toList)

/-- The reason in the `ActionDeniedError` of a check that refused. -/
def Route.refusal (decision : Decision) : Route → Option PyStr
  | .policyDenied => some decision.reason
  | .batchRejected => some "the user rejected it".toList
  | .noOneToAsk =>
      some ("needs approval (".toList ++ decision.reason
        ++ ") but no one can be asked".toList)
  | .answered .deny => some "the user rejected it".toList
  | _ => none

/-- What a check decided, how it ended, and the roots it admits for this
one call. -/
structure CheckResult where
  decision : Decision
  route : Route
  once : List PurePath := []

/-- Which of its sources of permission a check uses; `answer` is what
the interactive callback says if it is asked, `none` when it raises. -/
def PermissionGate.route (g : PermissionGate) (toolName : PyStr) (actions : List Action)
    (answer : Option Approval) : Route :=
  let decision := authorize actions g.state
  match decision.verdict with
  | .allow => .policyAllowed
  | .deny => .policyDenied
  | .ask =>
      if batchKey toolName actions ∈ g.preapproved ∧ sensitive decision = false then
        .batchApproved
      else if batchKey toolName actions ∈ g.prerejected then .batchRejected
      else if toolName ∈ g.sessionGrants ∧ sensitive decision = false
          ∧ g.forceConfirm = false then .sessionGrant
      else if g.canAsk = false then .noOneToAsk
      else
        match answer with
        | none => .askRaised
        | some answer => .answered answer

def Decision.outsideTargets (d : Decision) : List PyStr :=
  (d.actions.filter (·.outsideWorkspace)).map (·.target)

/-- What ending by `route` leaves of the gate. `rootFor` is the
directory a grant covers. -/
def PermissionGate.after (g : PermissionGate) (rootFor : PyStr → PurePath) (toolName : PyStr)
    (actions : List Action) (decision : Decision) : Route → PermissionGate
  | .batchApproved => { g with preapproved := g.preapproved.erase (batchKey toolName actions) }
  | .batchRejected => { g with prerejected := g.prerejected.erase (batchKey toolName actions) }
  | .answered .allowTask =>
      if decision.outsideTargets ≠ [] then
        { g with extraRoots := g.extraRoots ++ decision.outsideTargets.map rootFor }
      else if sensitive decision = false then
        { g with sessionGrants := insert toolName g.sessionGrants }
      else g
  | _ => g

def PermissionGate.check (g : PermissionGate) (rootFor : PyStr → PurePath) (toolName : PyStr)
    (actions : List Action) (answer : Option Approval) : CheckResult × PermissionGate :=
  let decision := authorize actions g.state
  let route := g.route toolName actions answer
  ({ decision := decision
     route := route
     once := if route = .answered .allowOnce then decision.outsideTargets.map rootFor else [] },
    g.after rootFor toolName actions decision route)

-- ===== session

inductive GateOp
  | preauthorize (calls : List (PyStr × List Action)) (reply : Option Bool)
  | clearBatch
  | check (toolName : PyStr) (actions : List Action) (answer : Option Approval)
  /-- Mode, plan execution, plan scope change. -/
  | setState (state : PolicyState)
  | setForceConfirm (on : Bool)
  | setCallbacks (canAsk canAskBatch : Bool)
  /-- Another part of the session grants or takes back a tool. -/
  | setGrants (grants : Finset PyStr)
  | setRoots (roots : List PurePath)

inductive GateEvent
  /-- The user approved a batch with these keys. -/
  | batchApproved (keys : Finset BatchKey)
  | checked (state : PolicyState) (toolName : PyStr) (actions : List Action)
      (result : CheckResult)

structure Session where
  gate : PermissionGate
  log : List GateEvent := []

def Session.step (rootFor : PyStr → PurePath) : GateOp → Session → Option Session
  | .preauthorize calls reply, s =>
      let (gate, keys) := s.gate.preauthorize calls reply
      some ⟨gate, if keys = ∅ then s.log else s.log ++ [.batchApproved keys]⟩
  | .clearBatch, s => some { s with gate := s.gate.clearBatch }
  | .check toolName actions answer, s =>
      let (result, gate) := s.gate.check rootFor toolName actions answer
      some ⟨gate, s.log ++ [.checked s.gate.state toolName actions result]⟩
  | .setState state, s => some { s with gate := { s.gate with state := state } }
  | .setForceConfirm on, s => some { s with gate := { s.gate with forceConfirm := on } }
  | .setCallbacks canAsk canAskBatch, s =>
      some { s with gate := { s.gate with canAsk := canAsk, canAskBatch := canAskBatch } }
  | .setGrants grants, s => some { s with gate := { s.gate with sessionGrants := grants } }
  | .setRoots roots, s => some { s with gate := { s.gate with extraRoots := roots } }

end Velune.Permissions
