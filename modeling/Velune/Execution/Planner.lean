/-
Plans as graphs of dependent steps (`execution/planner.py`): how a plan is
compiled, and how the steps are put in order.

A set of ids is the list of them as they came; the order in which Python
goes through one is a rearrangement of it that nothing is known about, the
parameter `iter`. The loop ends on every graph, whether it came from a
plan or not: each round takes one id off the queue, and an id gets there
when its degree falls to zero.
-/
import Velune.Domain
import Velune.Lib.Assoc
import Mathlib.Algebra.GroupWithZero.Nat
import Mathlib.Data.Char
import Mathlib.Data.List.Lex

namespace Velune.Execution

open Lib

-- ===== plans

/-- `TaskStep`, as far as the planner reads it. -/
structure TaskStep where
  id : PyStr
  dependencies : List PyStr
  deriving DecidableEq, Repr

structure TaskPlan where
  taskId : PyStr
  steps : List TaskStep
  deriving DecidableEq, Repr

structure ExecutionDAG where
  planId : PyStr
  steps : Assoc PyStr TaskStep
  /-- A step and the steps that depend on it. -/
  adjList : Assoc PyStr (List PyStr)
  /-- A step and the number of its prerequisites. -/
  inDegree : Assoc PyStr Int

inductive PlanError
  /-- `ExecutionError`, with the steps it names. -/
  | circular (candidates : List PyStr)
  /-- `KeyError`. -/
  | missing (id : PyStr)
  deriving DecidableEq, Repr

namespace ExecutionDAG

def new (planId : PyStr) : ExecutionDAG := ⟨planId, [], [], []⟩

def setDefault {ν : Type} (entries : Assoc PyStr ν) (key : PyStr) (value : ν) : Assoc PyStr ν :=
  match entries.get? key with
  | some _ => entries
  | none => entries.set key value

/-- `dep in self.adj_list` and what follows, for one dependency of a step. -/
def addDependency (id : PyStr) (dag : ExecutionDAG) (dep : PyStr) : ExecutionDAG :=
  let adjList := setDefault dag.adjList dep []
  let dependents := (adjList.get? dep).getD []
  if id ∈ dependents then { dag with adjList := adjList }
  else
    { dag with
      adjList := adjList.set dep (dependents ++ [id])
      inDegree := dag.inDegree.set id ((dag.inDegree.get? id).getD 0 + 1) }

def addStep (dag : ExecutionDAG) (step : TaskStep) : ExecutionDAG :=
  step.dependencies.foldl (addDependency step.id)
    { dag with
      steps := dag.steps.set step.id step
      adjList := setDefault dag.adjList step.id []
      inDegree := setDefault dag.inDegree step.id 0 }

end ExecutionDAG

-- ===== sorting

/-- The locals of `topological_sort`. -/
structure Kahn where
  inDegrees : Assoc PyStr Int
  queue : List PyStr
  sortedSteps : List TaskStep

def Kahn.left (st : Kahn) : Nat := (st.inDegrees.map (·.2.toNat)).sum + st.queue.length

def relax (st : Kahn) (dependent : PyStr) : Kahn :=
  match st.inDegrees.get? dependent with
  | none => st
  | some degree =>
      { st with
        inDegrees := st.inDegrees.set dependent (degree - 1)
        queue := if degree - 1 = 0 then st.queue ++ [dependent] else st.queue }

/-- `queue.sort()`. -/
def sortQueue (queue : List PyStr) : List PyStr := queue.mergeSort fun a b => decide (a ≤ b)

variable (iter : List PyStr → List PyStr)

/-- One round of the loop; `none` when the queue is empty. -/
def round (dag : ExecutionDAG) (st : Kahn) : Option (Except PlanError Kahn) :=
  match sortQueue st.queue with
  | [] => none
  | current :: rest =>
      match dag.steps.get? current with
      | none => some (.error (.missing current))
      | some step =>
          some (.ok ((iter ((dag.adjList.get? current).getD [])).foldl relax
            { st with queue := rest, sortedSteps := st.sortedSteps ++ [step] }))

theorem sum_set {entries : Assoc PyStr Int} {key : PyStr} {degree : Int} (value : Int)
    (h : entries.get? key = some degree) :
    ((entries.set key value).map (·.2.toNat)).sum + degree.toNat
      = (entries.map (·.2.toNat)).sum + value.toNat := by
  induction entries with
  | nil => cases h
  | cons e rest ih =>
      obtain ⟨k, v⟩ := e
      unfold Assoc.get? at h
      unfold Assoc.set
      split at h
      next hk =>
        cases h
        rw [if_pos hk, List.map_cons, List.map_cons, List.sum_cons, List.sum_cons]
        omega
      next hk =>
        rw [if_neg hk, List.map_cons, List.map_cons, List.sum_cons, List.sum_cons]
        have := ih h
        omega

theorem left_relax (st : Kahn) (dependent : PyStr) : (relax st dependent).left ≤ st.left := by
  unfold relax Kahn.left
  split
  next => exact Nat.le_refl _
  next degree hdegree =>
    have hsum := sum_set (degree - 1) hdegree
    by_cases hzero : degree - 1 = 0
    · simp only [if_pos hzero, List.length_append, List.length_singleton]
      omega
    · simp only [if_neg hzero]
      omega

theorem left_foldl (dependents : List PyStr) : ∀ st : Kahn,
    (dependents.foldl relax st).left ≤ st.left := by
  induction dependents with
  | nil => exact fun st => Nat.le_refl _
  | cons dependent dependents ih =>
      exact fun st => Nat.le_trans (ih (relax st dependent)) (left_relax st dependent)

theorem left_round {dag : ExecutionDAG} {st st' : Kahn}
    (h : round iter dag st = some (.ok st')) : st'.left < st.left := by
  unfold round at h
  split at h
  next => cases h
  next current rest hsorted =>
    split at h
    next => cases h
    next step hstep =>
      cases h
      refine Nat.lt_of_le_of_lt (left_foldl _ _) ?_
      have hlength : (sortQueue st.queue).length = st.queue.length := List.length_mergeSort _
      rw [hsorted, List.length_cons] at hlength
      unfold Kahn.left
      simp only
      omega

/-- `while queue`. -/
def kahnLoop (dag : ExecutionDAG) (st : Kahn) : Except PlanError Kahn :=
  match _ : round iter dag st with
  | none => .ok st
  | some (.error e) => .error e
  | some (.ok st') => kahnLoop dag st'
termination_by st.left
decreasing_by exact left_round iter ‹_›

def topologicalSort (dag : ExecutionDAG) : Except PlanError (List TaskStep) :=
  let inDegrees := dag.steps.keys.foldl
    (fun degrees id => ExecutionDAG.setDefault degrees id 0) dag.inDegree
  match kahnLoop iter dag ⟨inDegrees, (inDegrees.filter (·.2 == 0)).map (·.1), []⟩ with
  | .error e => .error e
  | .ok st =>
      if st.sortedSteps.length ≠ dag.steps.length then
        .error (.circular ((st.inDegrees.filter (0 < ·.2)).map (·.1)))
      else .ok st.sortedSteps

def compile (plan : TaskPlan) : Except PlanError ExecutionDAG :=
  let dag := plan.steps.foldl ExecutionDAG.addStep (.new plan.taskId)
  match topologicalSort iter dag with
  | .error e => .error e
  | .ok _ => .ok dag

def compileAndSort (plan : TaskPlan) : Except PlanError (List TaskStep) :=
  match compile iter plan with
  | .error e => .error e
  | .ok dag => topologicalSort iter dag

end Velune.Execution
