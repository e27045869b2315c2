/-
The permission policy (`permissions/actions.py`, `permissions/policy.py`):
proposed actions and the current mode to ALLOW, DENY or ASK. Pure, with
the texts of its reasons.

Paths in actions are absolute and resolved, as the source documents of
`Action.target`; the plan scope and the plans directory are resolved
paths too. All are compared as pure paths, the way the source compares
them.
-/
import Mathlib.Data.Char
import Mathlib.Data.List.Dedup
import Mathlib.Data.List.Lex
import Mathlib.Data.List.Sort
import Velune.Domain
import Velune.Lib.Path

namespace Velune.Permissions

open Lib

-- ===== actions

inductive ActionType
  | read | createFile | modifyFile | deleteFile | createDirectory | deleteDirectory | move
  | runCommand | gitWrite | network | writePlan
  deriving DecidableEq, Repr

def ActionType.value : ActionType → PyStr
  | .read => "READ".toList
  | .createFile => "CREATE_FILE".toList
  | .modifyFile => "MODIFY_FILE".toList
  | .deleteFile => "DELETE_FILE".toList
  | .createDirectory => "CREATE_DIRECTORY".toList
  | .deleteDirectory => "DELETE_DIRECTORY".toList
  | .move => "MOVE".toList
  | .runCommand => "RUN_COMMAND".toList
  | .gitWrite => "GIT_WRITE".toList
  | .network => "NETWORK".toList
  | .writePlan => "WRITE_PLAN".toList

inductive Risk
  | low | medium | high
  deriving DecidableEq, Repr

/-- One proposed operation, described before anything is executed. -/
structure Action where
  actionType : ActionType
  target : PyStr
  reason : PyStr := []
  risk : Risk := .low
  outsideWorkspace : Bool := false
  secret : Bool := false
  blocked : Bool := false
  detail : PyStr := []
  deriving DecidableEq, Repr

/-- `describe`: one line for previews and the audit log. -/
def Action.describe (a : Action) : PyStr :=
  let label := a.actionType.value.map fun c => if c == '_' then ' ' else c
  let text := label ++ " ".toList ++ a.target
  if a.detail = [] then text else text ++ " → ".toList ++ a.detail

-- ===== policy

inductive ExecutionMode
  | manual | plan | auto
  deriving DecidableEq, Repr

inductive Verdict
  | allow | deny | ask
  deriving DecidableEq, Repr

structure PolicyState where
  mode : ExecutionMode := .manual
  planExecuting : Bool := false
  planScope : List PurePath := []
  plansDir : Option PurePath := none
  deriving DecidableEq

/-- A verdict, why, and the actions it is about: those to confirm for
ASK, those refused for DENY. -/
structure Decision where
  verdict : Verdict
  reason : PyStr
  actions : List Action := []
  deriving DecidableEq

def Decision.highRisk (d : Decision) : Bool := d.actions.any fun a => a.risk == .high

def Decision.outsideWorkspace (d : Decision) : Bool := d.actions.any (·.outsideWorkspace)

def inPlansDir (a : Action) (state : PolicyState) : Bool :=
  match state.plansDir with
  | none => false
  | some plans => decide ((PurePath.parse a.target).Under plans)

def inPlanScope (a : Action) (state : PolicyState) : Bool :=
  state.planScope.any fun p => decide ((PurePath.parse a.target).Under p)

/-- The planning half of PLAN mode: no plan has been approved yet. -/
def PolicyState.planning (state : PolicyState) : Bool :=
  state.mode == .plan && !state.planExecuting

def decideOne (a : Action) (state : PolicyState) : Verdict × PyStr :=
  if a.blocked then
    (.deny, "blocked in every mode: ".toList ++ (if a.reason = [] then a.target else a.reason))
  else if a.actionType = .writePlan then
    if inPlansDir a state = false then
      (.deny, "plans can only be written under .velune/plans/".toList)
    else if state.planning then (.allow, "plan file".toList)
    else if state.mode = .auto then (.allow, "plan file (auto)".toList)
    else (.ask, "writes a plan file outside plan mode".toList)
  else if a.actionType = .read then
    if a.secret then (.ask, "reads a credentials/secret file".toList)
    else if a.outsideWorkspace then (.ask, "reads outside the workspace".toList)
    else (.allow, "read-only".toList)
  else if a.actionType = .network then
    -- it changes nothing locally, but it sends data out
    if state.mode = .auto ∧ ¬ (a.secret ∨ a.outsideWorkspace ∨ a.risk = .high) then
      (.allow, "network access (auto)".toList)
    else (.ask, "network access".toList)
  -- everything below changes state
  else if state.planning then
    (.deny, "plan mode: no changes are made while planning — record this step in the ".toList ++
      "plan with write_plan; it runs after the user approves the plan".toList)
  else if state.mode = .auto ∧ a.outsideWorkspace then
    (.deny, "auto mode never changes anything outside the workspace — switch to MANUAL ".toList ++
      "(Shift+Tab) to approve this location yourself".toList)
  else if a.secret then (.ask, "changes a credentials/secret file".toList)
  else if a.outsideWorkspace then (.ask, "outside the workspace".toList)
  else if a.risk = .high then
    (.ask, "high-risk: ".toList ++ (if a.reason = [] then a.describe else a.reason))
  else if state.mode = .auto then (.allow, "auto mode".toList)
  else if state.mode = .plan then
    if a.actionType = .runCommand ∨ inPlanScope a state then
      (.allow, "part of the approved plan".toList)
    else (.ask, "not in the approved plan (scope change)".toList)
  else (.ask, "manual mode: changes need approval".toList)

/-- The actions of a list that `decideOne` answers with `v`, each with
its reason. -/
def withVerdict (v : Verdict) (actions : List Action) (state : PolicyState) :
    List (Action × PyStr) :=
  actions.filterMap fun a =>
    if (decideOne a state).1 = v then some (a, (decideOne a state).2) else none

def authorize (actions : List Action) (state : PolicyState) : Decision :=
  if actions = [] then ⟨.allow, "nothing to authorize".toList, []⟩
  else
    match withVerdict .deny actions state with
    | (a, reason) :: rest => ⟨.deny, reason, a :: rest.map (·.1)⟩
    | [] =>
        match withVerdict .ask actions state with
        | [] => ⟨.allow, "allowed".toList, []⟩
        | asked =>
            ⟨.ask,
              Text.join "; ".toList ((asked.map (·.2)).dedup.insertionSort fun a b => a ≤ b),
              asked.map (·.1)⟩

end Velune.Permissions
