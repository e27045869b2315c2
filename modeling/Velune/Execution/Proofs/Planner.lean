/-
The planner puts a plan's steps in order exactly when there is an order.

A plan is compiled step by step, in any order of the plan: each step's
degree is the number of its different dependencies, known or not, and it
depends on exactly those (`Built`). A round of the loop takes the smallest
step that is available and leaves every degree the number of dependencies
not taken yet, and in the queue what is available then (`Stands`). What
the loop has taken when the queue is empty is a greedy order that cannot
go on.
-/
import Velune.Execution.Planner
import Velune.Lib.Topo

namespace Velune.Execution

open Lib Lib.Topo

-- ===== property

def Needs (steps : List TaskStep) (a b : PyStr) : Prop :=
  ∃ step ∈ steps, step.id = b ∧ a ∈ step.dependencies

def ids (steps : List TaskStep) : List PyStr := steps.map (·.id)

/-- There is an order: dependencies are steps, and go round in no circle. -/
def Sound (plan : TaskPlan) : Prop :=
  Closed (Needs plan.steps) (ids plan.steps) ∧ Acyclic (Needs plan.steps)

/-- The steps in an order that puts each step behind what it depends on, the
smallest id first wherever there is a choice. -/
def InOrder (plan : TaskPlan) (steps : List TaskStep) : Prop :=
  steps.Perm plan.steps ∧ Greedy (Needs plan.steps) (ids plan.steps) (ids steps)

-- ===== compiling

variable {dag : ExecutionDAG} {step : TaskStep}

section Compiling

open ExecutionDAG

def ExecutionDAG.dependents (dag : ExecutionDAG) (a : PyStr) : List PyStr :=
  (dag.adjList.get? a).getD []

/-- The steps added are there, with the number of their different
dependencies and behind each of these. -/
structure Built (steps : List TaskStep) (dag : ExecutionDAG) : Prop where
  table : dag.steps = steps.map fun step => (step.id, step)
  keys : dag.inDegree.keys = ids steps
  degree : ∀ step ∈ steps,
    dag.inDegree.get? step.id = some (step.dependencies.toFinset.card : Int)
  mem : ∀ a b, b ∈ dag.dependents a ↔ Needs steps a b
  nodup : ∀ a, (dag.dependents a).Nodup

/-- In the middle of a step: some of its dependencies are there. -/
structure Adding (old : ExecutionDAG) (sid : PyStr) (deps : List PyStr) (dag : ExecutionDAG) :
    Prop where
  table : dag.steps = old.steps
  keys : dag.inDegree.keys = old.inDegree.keys
  own : dag.inDegree.get? sid = some (deps.toFinset.card : Int)
  others : ∀ b, b ≠ sid → dag.inDegree.get? b = old.inDegree.get? b
  mem : ∀ a b, b ∈ dag.dependents a ↔ b ∈ old.dependents a ∨ b = sid ∧ a ∈ deps
  nodup : ∀ a, (dag.dependents a).Nodup

theorem getD_setDefault (entries : Assoc PyStr (List PyStr)) (key a : PyStr) :
    ((setDefault entries key []).get? a).getD [] = (entries.get? a).getD [] := by
  unfold setDefault
  split
  next => rfl
  next hnone =>
    by_cases ha : a = key
    · rw [ha, Assoc.get?_set_self, hnone]
      rfl
    · rw [Assoc.get?_set_of_ne _ _ ha]

theorem Adding.addDependency {old dag : ExecutionDAG} {sid : PyStr} {deps : List PyStr}
    (h : Adding old sid deps dag) (hfresh : ∀ a, sid ∉ old.dependents a) (dep : PyStr) :
    Adding old sid (deps ++ [dep]) (addDependency sid dag dep) := by
  have hiff : sid ∈ dag.dependents dep ↔ dep ∈ deps := by
    rw [h.mem]
    exact ⟨fun hmem => hmem.elim (fun hold => (hfresh dep hold).elim) And.right,
      fun hdep => .inr ⟨rfl, hdep⟩⟩
  have hset : (deps ++ [dep]).toFinset = insert dep deps.toFinset := by
    ext a
    simp [or_comm]
  have hlist : ∀ a, ((setDefault dag.adjList dep []).get? a).getD [] = dag.dependents a :=
    getD_setDefault dag.adjList dep
  unfold ExecutionDAG.addDependency
  simp only [hlist]
  by_cases hmem : sid ∈ dag.dependents dep
  · rw [if_pos hmem]
    have hdep := hiff.1 hmem
    refine ⟨h.table, h.keys, ?_, h.others, fun a b => ?_, fun a => ?_⟩
    · rw [hset, Finset.insert_eq_of_mem (List.mem_toFinset.2 hdep)]
      exact h.own
    · show b ∈ ((setDefault dag.adjList dep []).get? a).getD [] ↔ _
      rw [hlist, h.mem, List.mem_append, List.mem_singleton]
      refine or_congr_right (and_congr_right fun _ => ⟨.inl, fun ha => ha.elim id ?_⟩)
      exact fun heq => heq ▸ hdep
    · show (((setDefault dag.adjList dep []).get? a).getD []).Nodup
      rw [hlist]
      exact h.nodup a
  · rw [if_neg hmem]
    have hdep : dep ∉ deps := fun hdep => hmem (hiff.2 hdep)
    have hdependents : ∀ a, (((setDefault dag.adjList dep []).set dep
        (dag.dependents dep ++ [sid])).get? a).getD []
          = if a = dep then dag.dependents dep ++ [sid] else dag.dependents a := by
      intro a
      by_cases ha : a = dep
      · rw [ha, Assoc.get?_set_self, if_pos rfl]
        rfl
      · rw [Assoc.get?_set_of_ne _ _ ha, if_neg ha, hlist]
    refine ⟨h.table, ?_, ?_, fun b hb => ?_, fun a b => ?_, fun a => ?_⟩
    · have hkey : sid ∈ dag.inDegree.keys := (Assoc.mem_keys_iff _ _).2 ⟨_, h.own⟩
      exact (Assoc.keys_set_old hkey _).trans h.keys
    · rw [Assoc.get?_set_self, h.own, hset,
        Finset.card_insert_of_notMem fun hin => hdep (List.mem_toFinset.1 hin)]
      rfl
    · rw [Assoc.get?_set_of_ne _ _ hb]
      exact h.others b hb
    · show b ∈ (((setDefault dag.adjList dep []).set dep _).get? a).getD [] ↔ _
      rw [hdependents, List.mem_append, List.mem_singleton]
      split
      next ha =>
        rw [ha, List.mem_append, List.mem_singleton, h.mem]
        constructor
        · intro hb
          rcases hb with (hb | ⟨hb, -⟩) | hb
          · exact .inl hb
          · exact .inr ⟨hb, .inr rfl⟩
          · exact .inr ⟨hb, .inr rfl⟩
        · intro hb
          rcases hb with hb | ⟨hb, -⟩
          · exact .inl (.inl hb)
          · exact .inr hb
      next ha =>
        rw [h.mem]
        exact or_congr_right (and_congr_right fun _ => ⟨.inl, fun hin => hin.resolve_right ha⟩)
    · show ((((setDefault dag.adjList dep []).set dep _).get? a).getD []).Nodup
      rw [hdependents]
      split
      next =>
        refine List.nodup_append.2 ⟨h.nodup dep, List.nodup_singleton sid, fun b hb c hc heq => ?_⟩
        rw [List.mem_singleton] at hc
        exact hmem (hc ▸ heq ▸ hb)
      next => exact h.nodup a

theorem Adding.addAll {old : ExecutionDAG} {sid : PyStr} (hfresh : ∀ a, sid ∉ old.dependents a)
    (more : List PyStr) : ∀ {deps : List PyStr} {dag : ExecutionDAG}, Adding old sid deps dag →
      Adding old sid (deps ++ more) (more.foldl (ExecutionDAG.addDependency sid) dag) := by
  induction more with
  | nil =>
      intro deps dag h
      rw [List.append_nil]
      exact h
  | cons dep more ih =>
      intro deps dag h
      have hnext := ih (h.addDependency hfresh dep)
      rwa [List.append_assoc] at hnext

theorem Built.addStep {steps : List TaskStep} (h : Built steps dag) (hnew : step.id ∉ ids steps) :
    Built (steps ++ [step]) (dag.addStep step) := by
  have hnone : dag.inDegree.get? step.id = none := by
    cases hget : dag.inDegree.get? step.id with
    | none => rfl
    | some degree =>
        have hkey := (Assoc.mem_keys_iff dag.inDegree step.id).2 ⟨degree, hget⟩
        exact (hnew (h.keys ▸ hkey)).elim
  have hdegrees : setDefault dag.inDegree step.id 0 = dag.inDegree.set step.id 0 := by
    unfold setDefault
    rw [hnone]
  let old : ExecutionDAG :=
    { dag with
      steps := dag.steps.set step.id step
      adjList := setDefault dag.adjList step.id []
      inDegree := setDefault dag.inDegree step.id 0 }
  have hdependents : ∀ a, old.dependents a = dag.dependents a := getD_setDefault _ _
  have hfresh : ∀ a, step.id ∉ old.dependents a := by
    intro a hmem
    rw [hdependents, h.mem] at hmem
    obtain ⟨other, hother, hid, -⟩ := hmem
    exact hnew (hid ▸ List.mem_map_of_mem hother)
  have hstart : Adding old step.id [] old := by
    refine ⟨rfl, rfl, ?_, fun _ _ => rfl, fun a b => ?_, fun a => ?_⟩
    · show (setDefault dag.inDegree step.id 0).get? step.id = some 0
      rw [hdegrees, Assoc.get?_set_self]
    · exact ⟨.inl, fun hb => hb.elim id fun hb => (List.not_mem_nil hb.2).elim⟩
    · rw [hdependents]
      exact h.nodup a
  have hdone : Adding old step.id step.dependencies (dag.addStep step) :=
    hstart.addAll hfresh step.dependencies
  refine ⟨?_, ?_, fun other hother => ?_, fun a b => ?_, hdone.nodup⟩
  · rw [hdone.table]
    show dag.steps.set step.id step = _
    have hget : dag.steps.get? step.id = none := by
      cases hget : dag.steps.get? step.id with
      | none => rfl
      | some found =>
          have hkey := (Assoc.mem_keys_iff dag.steps step.id).2 ⟨found, hget⟩
          rw [h.table, Assoc.keys, List.map_map] at hkey
          exact (hnew hkey).elim
    rw [Assoc.set_new hget, h.table, List.map_append]
    rfl
  · rw [hdone.keys]
    show (setDefault dag.inDegree step.id 0).keys = _
    rw [hdegrees, Assoc.keys_set_new (h.keys ▸ hnew), h.keys, ids, ids, List.map_append]
    rfl
  · rcases List.mem_append.1 hother with hother | hother
    · have hne : other.id ≠ step.id := fun heq => hnew (heq ▸ List.mem_map_of_mem hother)
      rw [hdone.others _ hne]
      show (setDefault dag.inDegree step.id 0).get? other.id = _
      rw [hdegrees, Assoc.get?_set_of_ne _ _ hne]
      exact h.degree other hother
    · rw [List.mem_singleton.1 hother]
      exact hdone.own
  · rw [hdone.mem, hdependents, h.mem]
    unfold Needs
    simp only [List.mem_append, List.mem_singleton]
    constructor
    · intro hb
      rcases hb with ⟨other, hother, hrest⟩ | ⟨rfl, ha⟩
      · exact ⟨other, .inl hother, hrest⟩
      · exact ⟨step, .inr rfl, rfl, ha⟩
    · intro hb
      obtain ⟨other, hother | rfl, hid, ha⟩ := hb
      · exact .inl ⟨other, hother, hid, ha⟩
      · exact .inr ⟨hid.symm, ha⟩

theorem built_plan (plan : TaskPlan) (hids : (ids plan.steps).Nodup) :
    Built plan.steps (plan.steps.foldl ExecutionDAG.addStep (.new plan.taskId)) := by
  generalize plan.steps = steps at hids
  induction steps using List.reverseRecOn with
  | nil =>
      refine ⟨rfl, rfl, fun step hstep => (List.not_mem_nil hstep).elim, fun a b => ?_, fun a => ?_⟩
      · refine iff_of_false List.not_mem_nil fun h => ?_
        obtain ⟨step, hstep, -⟩ := h
        exact List.not_mem_nil hstep
      · exact List.nodup_nil
  | append_singleton steps step ih =>
      rw [ids, List.map_append, List.nodup_append] at hids
      obtain ⟨hold, -, hdisjoint⟩ := hids
      rw [List.foldl_append]
      refine (ih hold).addStep fun hmem => ?_
      exact hdisjoint _ hmem _ (List.mem_singleton_self step.id) rfl

end Compiling

-- ===== sorting

section Sorting

variable {steps : List TaskStep} {done : List PyStr} {current : PyStr}

def remaining (step : TaskStep) (done : List PyStr) : Finset PyStr :=
  step.dependencies.toFinset \ done.toFinset

theorem card_taken (hdep : current ∈ step.dependencies) (hnew : current ∉ done) :
    ((remaining step done).card : Int) - 1 = (remaining step (done ++ [current])).card := by
  have hset : remaining step (done ++ [current]) = (remaining step done).erase current := by
    ext a
    simp only [remaining, Finset.mem_sdiff, Finset.mem_erase, List.mem_toFinset, List.mem_append,
      List.mem_singleton]
    tauto
  have hmem : current ∈ remaining step done :=
    Finset.mem_sdiff.2 ⟨List.mem_toFinset.2 hdep, fun hin => hnew (List.mem_toFinset.1 hin)⟩
  rw [hset, Finset.card_erase_of_mem hmem]
  have hpos := Finset.card_pos.2 ⟨current, hmem⟩
  omega

theorem remaining_other (hdep : current ∉ step.dependencies) :
    remaining step (done ++ [current]) = remaining step done := by
  ext a
  simp only [remaining, Finset.mem_sdiff, List.mem_toFinset, List.mem_append, List.mem_singleton]
  constructor
  · exact fun h => ⟨h.1, fun hin => h.2 (.inl hin)⟩
  · exact fun h => ⟨h.1, fun hin => hin.elim h.2 fun heq => hdep (heq ▸ h.1)⟩

theorem card_remaining_eq_zero :
    ((remaining step done).card : Int) = 0 ↔ ∀ a ∈ step.dependencies, a ∈ done := by
  rw [Int.natCast_eq_zero, Finset.card_eq_zero, remaining, Finset.sdiff_eq_empty_iff_subset]
  simp only [Finset.subset_iff, List.mem_toFinset]

theorem needs_iff (hids : (ids steps).Nodup) (hstep : step ∈ steps)
    {a : PyStr} : Needs steps a step.id ↔ a ∈ step.dependencies := by
  constructor
  · intro h
    obtain ⟨other, hother, hid, ha⟩ := h
    rwa [List.inj_on_of_nodup_map hids hother hstep hid] at ha
  · exact fun ha => ⟨step, hstep, rfl, ha⟩

/-- Between two rounds: the steps taken are a greedy order, the degrees
count what is not taken yet, and the queue holds what is available. -/
structure Stands (steps : List TaskStep) (st : Kahn) : Prop where
  greedy : Greedy (Needs steps) (ids steps) (ids st.sortedSteps)
  taken : ∀ step ∈ st.sortedSteps, step ∈ steps
  degrees : ∀ step ∈ steps,
    st.inDegrees.get? step.id = some ((remaining step (ids st.sortedSteps)).card : Int)
  waiting : ∀ b, b ∈ st.queue ↔ Available (Needs steps) (ids steps) (ids st.sortedSteps) b
  nodup : st.queue.Nodup

/-- In the middle of a round: `current` is taken, and of the steps that
depend on it those in `seen` know. -/
structure Relaxing (steps : List TaskStep) (done : List PyStr) (current : PyStr)
    (rest : List PyStr) (sorted : List TaskStep) (seen : List PyStr) (st : Kahn) : Prop where
  sorted : st.sortedSteps = sorted
  degrees : ∀ step ∈ steps, st.inDegrees.get? step.id
    = some ((remaining step (if step.id ∈ seen then done ++ [current] else done)).card : Int)
  waiting : ∀ b, b ∈ st.queue ↔
    b ∈ rest ∨ b ∈ seen ∧ Available (Needs steps) (ids steps) (done ++ [current]) b
  nodup : st.queue.Nodup

theorem relax_eq {st : Kahn} {dependent : PyStr} {degree : Int}
    (h : st.inDegrees.get? dependent = some degree) :
    relax st dependent =
      { st with
        inDegrees := st.inDegrees.set dependent (degree - 1)
        queue := if degree - 1 = 0 then st.queue ++ [dependent] else st.queue } := by
  unfold relax
  rw [h]

theorem Relaxing.relax (hids : (ids steps).Nodup) (hcurrent : current ∉ done)
    (hbefore : ∀ b, Needs steps current b → b ∉ done ++ [current]) {rest : List PyStr}
    (hrest : ∀ b ∈ rest, ¬Needs steps current b) {sorted : List TaskStep} {seen : List PyStr}
    {st : Kahn} (h : Relaxing steps done current rest sorted seen st) {dependent : PyStr}
    (hneeds : Needs steps current dependent) (hnew : dependent ∉ seen) :
    Relaxing steps done current rest sorted (seen ++ [dependent]) (relax st dependent) := by
  obtain ⟨step, hstep, rfl, hdep⟩ := hneeds
  have hneeds : Needs steps current step.id := ⟨step, hstep, rfl, hdep⟩
  have hdegree := h.degrees step hstep
  rw [if_neg hnew] at hdegree
  have hzero : ((remaining step done).card : Int) - 1 = 0 ↔
      Available (Needs steps) (ids steps) (done ++ [current]) step.id := by
    rw [card_taken hdep hcurrent, card_remaining_eq_zero]
    unfold Available
    simp only [needs_iff hids hstep]
    exact ⟨fun hall => ⟨List.mem_map_of_mem hstep, hbefore _ hneeds, hall⟩, fun hall => hall.2.2⟩
  rw [relax_eq hdegree]
  refine ⟨h.sorted, fun other hother => ?_, fun b => ?_, ?_⟩
  · by_cases hsame : other.id = step.id
    · have heq : other = step := List.inj_on_of_nodup_map hids hother hstep hsame
      rw [heq, if_pos (List.mem_append_right _ (List.mem_singleton_self _)),
        ← card_taken hdep hcurrent]
      exact Assoc.get?_set_self _ _ _
    · have hseen : other.id ∈ seen ++ [step.id] ↔ other.id ∈ seen := by
        rw [List.mem_append, List.mem_singleton]
        exact or_iff_left hsame
      simp only [hseen]
      exact (Assoc.get?_set_of_ne _ _ hsame).trans (h.degrees other hother)
  · have hmore : (b ∈ rest ∨ b ∈ seen ++ [step.id] ∧
        Available (Needs steps) (ids steps) (done ++ [current]) b) ↔
        b ∈ st.queue ∨ b = step.id ∧ ((remaining step done).card : Int) - 1 = 0 := by
      rw [h.waiting, List.mem_append, List.mem_singleton, hzero]
      constructor
      · intro hb
        rcases hb with hb | ⟨hb | rfl, havailable⟩
        · exact .inl (.inl hb)
        · exact .inl (.inr ⟨hb, havailable⟩)
        · exact .inr ⟨rfl, havailable⟩
      · intro hb
        rcases hb with (hb | ⟨hb, havailable⟩) | ⟨rfl, havailable⟩
        · exact .inl hb
        · exact .inr ⟨.inl hb, havailable⟩
        · exact .inr ⟨.inr rfl, havailable⟩
    rw [hmore]
    dsimp only
    split
    next hcard =>
      rw [List.mem_append, List.mem_singleton]
      exact or_congr_right ⟨fun heq => ⟨heq, hcard⟩, And.left⟩
    next hcard => exact ⟨.inl, fun hb => hb.elim id fun hb => (hcard hb.2).elim⟩
  · dsimp only
    split
    next =>
      refine List.nodup_append.2 ⟨h.nodup, List.nodup_singleton _, fun b hb c hc heq => ?_⟩
      rw [List.mem_singleton] at hc
      rw [heq, hc] at hb
      rcases (h.waiting _).1 hb with hb | ⟨hb, -⟩
      · exact hrest _ hb hneeds
      · exact hnew hb
    next => exact h.nodup

theorem Relaxing.relaxAll (hids : (ids steps).Nodup) (hcurrent : current ∉ done)
    (hbefore : ∀ b, Needs steps current b → b ∉ done ++ [current]) {rest : List PyStr}
    (hrest : ∀ b ∈ rest, ¬Needs steps current b) {sorted : List TaskStep} (more : List PyStr) :
    ∀ {seen : List PyStr} {st : Kahn}, Relaxing steps done current rest sorted seen st →
      (∀ b ∈ more, Needs steps current b) → (seen ++ more).Nodup →
      Relaxing steps done current rest sorted (seen ++ more) (more.foldl Execution.relax st) := by
  induction more with
  | nil =>
      intro seen st h _ _
      rw [List.append_nil]
      exact h
  | cons dependent more ih =>
      intro seen st h hneeds hnodup
      obtain ⟨hfirst, hneeds⟩ := List.forall_mem_cons.1 hneeds
      have hnew : dependent ∉ seen := fun hmem =>
        (List.nodup_append.1 hnodup).2.2 dependent hmem dependent List.mem_cons_self rfl
      rw [List.append_cons] at hnodup ⊢
      exact ih (h.relax hids hcurrent hbefore hrest hfirst hnew) hneeds hnodup

theorem sortQueue_perm (queue : List PyStr) : (sortQueue queue).Perm queue :=
  List.mergeSort_perm _ _

theorem sortQueue_least {queue : List PyStr} {rest : List PyStr}
    (h : sortQueue queue = current :: rest) : ∀ b ∈ queue, current ≤ b := by
  have htrans : ∀ a b c : PyStr, decide (a ≤ b) = true → decide (b ≤ c) = true →
      decide (a ≤ c) = true :=
    fun a b c hab hbc => decide_eq_true (le_trans (of_decide_eq_true hab) (of_decide_eq_true hbc))
  have htotal : ∀ a b : PyStr, (decide (a ≤ b) || decide (b ≤ a)) = true :=
    fun a b => by simpa using le_total a b
  have hsorted : (sortQueue queue).Pairwise fun a b => decide (a ≤ b) = true :=
    List.pairwise_mergeSort htrans htotal queue
  rw [h, List.pairwise_cons] at hsorted
  intro b hb
  have hmem := (sortQueue_perm queue).mem_iff.2 hb
  rw [h] at hmem
  rcases List.mem_cons.1 hmem with rfl | hmem
  · exact le_refl b
  · exact of_decide_eq_true (hsorted.1 b hmem)

/-- A round of the loop: nothing waits, or the smallest available step is
taken. -/
theorem Stands.round {iter : List PyStr → List PyStr} (hiter : ∀ l, (iter l).Perm l)
    (hids : (ids steps).Nodup) (hbuilt : Built steps dag) {st : Kahn} (h : Stands steps st) :
    (round iter dag st = none ∧ st.queue = []) ∨
      ∃ st', round iter dag st = some (.ok st') ∧ Stands steps st' := by
  unfold Execution.round
  rcases hsorted : sortQueue st.queue with _ | ⟨current, rest⟩
  · have hempty := (sortQueue_perm st.queue).symm
    rw [hsorted] at hempty
    exact .inl ⟨rfl, hempty.eq_nil⟩
  have hperm : (current :: rest).Perm st.queue := hsorted ▸ sortQueue_perm st.queue
  have havailable := (h.waiting current).1 (hperm.mem_iff.1 List.mem_cons_self)
  obtain ⟨hnotrest, hrestnodup⟩ := List.nodup_cons.1 (hperm.nodup_iff.2 h.nodup)
  obtain ⟨step, hstep, rfl⟩ := List.mem_map.1 havailable.1
  have hget : dag.steps.get? step.id = some step := by
    have hkeys : dag.steps.keys.Nodup := by
      rw [hbuilt.table, Assoc.keys, List.map_map]
      exact hids
    rw [Assoc.get?_eq_some_iff hkeys, hbuilt.table]
    exact List.mem_map_of_mem hstep
  -- a step that depends on the one taken was not available, and is not taken
  have hself : ¬Needs steps step.id step.id := fun hneeds =>
    havailable.2.1 (havailable.2.2 _ hneeds)
  have hbefore : ∀ b, Needs steps step.id b → b ∉ ids st.sortedSteps ++ [step.id] := by
    intro b hneeds hmem
    rcases List.mem_append.1 hmem with hmem | hmem
    · exact havailable.2.1 (h.greedy.needed hmem hneeds)
    · rw [List.mem_singleton.1 hmem] at hneeds
      exact hself hneeds
  have hrest : ∀ b ∈ rest, ¬Needs steps step.id b := by
    intro b hb hneeds
    have hwaits := (h.waiting b).1 (hperm.mem_iff.1 (List.mem_cons_of_mem _ hb))
    exact havailable.2.1 (hwaits.2.2 _ hneeds)
  have hdependents := hiter (dag.dependents step.id)
  have hstart : Relaxing steps (ids st.sortedSteps) step.id rest (st.sortedSteps ++ [step]) []
      { st with queue := rest, sortedSteps := st.sortedSteps ++ [step] } := by
    refine ⟨rfl, fun other hother => ?_, fun b => ?_, hrestnodup⟩
    · rw [if_neg List.not_mem_nil]
      exact h.degrees other hother
    · exact ⟨.inl, fun hb => hb.elim id fun hb => (List.not_mem_nil hb.1).elim⟩
  have hend := hstart.relaxAll hids havailable.2.1 hbefore hrest (iter (dag.dependents step.id))
    (fun b hb => (hbuilt.mem _ _).1 (hdependents.mem_iff.1 hb))
    (hdependents.nodup_iff.2 (hbuilt.nodup _))
  rw [List.nil_append] at hend
  have hseen : ∀ b, b ∈ iter (dag.dependents step.id) ↔ Needs steps step.id b := fun b =>
    hdependents.mem_iff.trans (hbuilt.mem _ _)
  refine .inr ⟨(iter (dag.dependents step.id)).foldl relax
    { st with queue := rest, sortedSteps := st.sortedSteps ++ [step] }, ?_, ?_⟩
  · simp only [hget]
    rfl
  have hids' : ids (st.sortedSteps ++ [step]) = ids st.sortedSteps ++ [step.id] := List.map_append
  refine ⟨?_, fun other hother => ?_, fun other hother => ?_, fun b => ?_, hend.nodup⟩
  · rw [hend.sorted, hids']
    refine h.greedy.concat havailable fun c hc => ?_
    exact sortQueue_least hsorted c ((h.waiting c).2 hc)
  · rw [hend.sorted] at hother
    rcases List.mem_append.1 hother with hother | hother
    · exact h.taken other hother
    · exact List.mem_singleton.1 hother ▸ hstep
  · rw [hend.degrees other hother, hend.sorted, hids']
    split
    next => rfl
    next hmem =>
      rw [hseen, needs_iff hids hother] at hmem
      rw [remaining_other hmem]
  · rw [hend.waiting, hend.sorted, hids', hseen]
    constructor
    · intro hb
      rcases hb with hb | hb
      · obtain ⟨hin, hnew, hall⟩ := (h.waiting b).1 (hperm.mem_iff.1 (List.mem_cons_of_mem _ hb))
        refine ⟨hin, fun hmem => ?_, fun a ha => List.mem_append_left _ (hall a ha)⟩
        rcases List.mem_append.1 hmem with hmem | hmem
        · exact hnew hmem
        · exact hnotrest (List.mem_singleton.1 hmem ▸ hb)
      · exact hb.2
    · intro hb
      by_cases hneeds : Needs steps step.id b
      · exact .inr ⟨hneeds, hb⟩
      · obtain ⟨hin, hnew, hall⟩ := hb
        have hwaits : b ∈ st.queue := by
          refine (h.waiting b).2 ⟨hin, fun hmem => hnew (List.mem_append_left _ hmem), ?_⟩
          intro a ha
          rcases List.mem_append.1 (hall a ha) with hmem | hmem
          · exact hmem
          · rw [List.mem_singleton.1 hmem] at ha
            exact (hneeds ha).elim
        rcases List.mem_cons.1 (hperm.mem_iff.2 hwaits) with rfl | hrest
        · exact (hnew (List.mem_append_right _ (List.mem_singleton_self _))).elim
        · exact .inl hrest

theorem kahnLoop_spec {iter : List PyStr → List PyStr} (hiter : ∀ l, (iter l).Perm l)
    (hids : (ids steps).Nodup) (hbuilt : Built steps dag) (st : Kahn) (h : Stands steps st) :
    ∃ st', kahnLoop iter dag st = .ok st' ∧ Stands steps st' ∧ st'.queue = [] := by
  rcases h.round hiter hids hbuilt with ⟨hnone, hempty⟩ | ⟨next, hround, hnext⟩
  · refine ⟨st, ?_, h, hempty⟩
    rw [kahnLoop]
    split
    next => rfl
    next heq => cases hnone.symm.trans heq
    next heq => cases hnone.symm.trans heq
  · obtain ⟨st', hloop, hst'⟩ := kahnLoop_spec hiter hids hbuilt next hnext
    refine ⟨st', ?_, hst'⟩
    rw [kahnLoop]
    split
    next heq => cases hround.symm.trans heq
    next heq => cases hround.symm.trans heq
    next heq =>
      cases hround.symm.trans heq
      exact hloop
termination_by st.left
decreasing_by exact left_round iter hround

end Sorting

-- ===== results

section Results

variable {iter : List PyStr → List PyStr} {plan : TaskPlan}

theorem foldl_setDefault {degrees : Assoc PyStr Int} : ∀ {keys : List PyStr},
    (∀ b ∈ keys, b ∈ degrees.keys) →
      keys.foldl (fun degrees b => ExecutionDAG.setDefault degrees b 0) degrees = degrees
  | [], _ => rfl
  | b :: keys, h => by
      obtain ⟨hb, hkeys⟩ := List.forall_mem_cons.1 h
      obtain ⟨degree, hdegree⟩ := (Assoc.mem_keys_iff degrees b).1 hb
      have hsame : ExecutionDAG.setDefault degrees b 0 = degrees := by
        unfold ExecutionDAG.setDefault
        rw [hdegree]
      rw [List.foldl_cons, hsame]
      exact foldl_setDefault hkeys

theorem stands_start {steps : List TaskStep} (hids : (ids steps).Nodup) (hbuilt : Built steps dag) :
    Stands steps ⟨dag.inDegree, (dag.inDegree.filter (·.2 == 0)).map (·.1), []⟩ := by
  have hkeys : dag.inDegree.keys.Nodup := hbuilt.keys ▸ hids
  have hall : ∀ step, remaining step [] = step.dependencies.toFinset := by
    intro step
    rw [remaining, List.toFinset_nil, Finset.sdiff_empty]
  refine ⟨greedy_nil, fun step hstep => (List.not_mem_nil hstep).elim, fun step hstep => ?_,
    fun b => ?_, ?_⟩
  · show _ = some ((remaining step []).card : Int)
    rw [hall]
    exact hbuilt.degree step hstep
  · have hzero : b ∈ (dag.inDegree.filter (·.2 == 0)).map (·.1) ↔
        dag.inDegree.get? b = some 0 := by
      rw [Assoc.get?_eq_some_iff hkeys, List.mem_map]
      constructor
      · intro h
        obtain ⟨⟨c, degree⟩, hentry, rfl⟩ := h
        obtain ⟨hmem, hdegree⟩ := List.mem_filter.1 hentry
        rw [beq_iff_eq] at hdegree
        exact hdegree ▸ hmem
      · exact fun h => ⟨(b, 0), List.mem_filter.2 ⟨h, beq_self_eq_true 0⟩, rfl⟩
    rw [hzero]
    constructor
    · intro h
      have hkey := (Assoc.mem_keys_iff _ b).2 ⟨0, h⟩
      rw [hbuilt.keys] at hkey
      obtain ⟨step, hstep, rfl⟩ := List.mem_map.1 hkey
      rw [hbuilt.degree step hstep, ← hall, Option.some.injEq, card_remaining_eq_zero] at h
      refine ⟨hkey, List.not_mem_nil, fun a ha => h a ?_⟩
      exact (needs_iff hids hstep).1 ha
    · intro h
      obtain ⟨step, hstep, rfl⟩ := List.mem_map.1 h.1
      rw [hbuilt.degree step hstep, ← hall, Option.some.injEq, card_remaining_eq_zero]
      exact fun a ha => h.2.2 a ((needs_iff hids hstep).2 ha)
  · exact hkeys.sublist (List.Sublist.map _ List.filter_sublist)

/-- Sorting a plan that is built: an order if there is one, else an
`ExecutionError`. -/
theorem topologicalSort_spec (hiter : ∀ l, (iter l).Perm l) (hids : (ids plan.steps).Nodup)
    (hbuilt : Built plan.steps dag) :
    (Sound plan ∧ ∃ result, topologicalSort iter dag = .ok result ∧ InOrder plan result) ∨
      (¬Sound plan ∧ ∃ candidates, topologicalSort iter dag = .error (.circular candidates)) := by
  have hdegrees : dag.steps.keys.foldl
      (fun degrees b => ExecutionDAG.setDefault degrees b 0) dag.inDegree = dag.inDegree := by
    refine foldl_setDefault fun b hb => ?_
    rw [hbuilt.table, Assoc.keys, List.map_map] at hb
    exact hbuilt.keys ▸ hb
  have hlength : dag.steps.length = plan.steps.length := by rw [hbuilt.table, List.length_map]
  obtain ⟨st, hloop, hstands, hempty⟩ := kahnLoop_spec hiter hids hbuilt _ (stands_start hids hbuilt)
  have hsort : topologicalSort iter dag
      = if st.sortedSteps.length ≠ dag.steps.length then
          .error (.circular ((st.inDegrees.filter (0 < ·.2)).map (·.1)))
        else .ok st.sortedSteps := by
    unfold topologicalSort
    rw [hdegrees]
    dsimp only
    rw [hloop]
  have hdistinct : st.sortedSteps.Nodup := List.Nodup.of_map _ hstands.greedy.nodup
  have hsubperm : st.sortedSteps.Subperm plan.steps := hdistinct.subperm hstands.taken
  rw [hsort, hlength]
  by_cases hall : st.sortedSteps.length = plan.steps.length
  · have hperm : st.sortedSteps.Perm plan.steps :=
      hsubperm.perm_of_length_le (Nat.le_of_eq hall.symm)
    refine .inl ⟨hstands.greedy.acyclic (fun b hb => ?_) fun a b hab => ?_, st.sortedSteps, ?_,
      hperm, hstands.greedy⟩
    · exact (hperm.map _).mem_iff.2 hb
    · obtain ⟨step, hstep, hid, -⟩ := hab
      exact hid ▸ List.mem_map_of_mem hstep
    · rw [if_neg (not_not_intro hall)]
  · refine .inr ⟨fun hsound => hall ?_, _, if_pos hall⟩
    have hdone := all_of_stuck hsound.1 hsound.2 fun b hb => by
      have hwaits := (hstands.waiting b).2 hb
      rw [hempty] at hwaits
      exact List.not_mem_nil hwaits
    have hle := (hids.subperm hdone).length_le
    unfold ids at hle
    rw [List.length_map, List.length_map] at hle
    exact Nat.le_antisymm hsubperm.length_le hle

/-- A plan whose steps have different ids, compiled and sorted: what is
returned is an order of its steps, smallest ids first; something is returned
exactly when the dependencies are steps of the plan and go round in no
circle; otherwise an `ExecutionError` is raised. -/
theorem compileAndSort_spec (hiter : ∀ l, (iter l).Perm l) (hids : (ids plan.steps).Nodup) :
    (∀ result, compileAndSort iter plan = .ok result → InOrder plan result) ∧
      ((∃ result, compileAndSort iter plan = .ok result) ↔ Sound plan) ∧
      (¬Sound plan → ∃ candidates, compileAndSort iter plan = .error (.circular candidates)) := by
  have hbuilt := built_plan plan hids
  rcases topologicalSort_spec hiter hids hbuilt with
    ⟨hsound, result, hsort, horder⟩ | ⟨hunsound, candidates, hsort⟩
  · have hall : compileAndSort iter plan = .ok result := by
      unfold compileAndSort compile
      simp only [hsort]
    rw [hall]
    refine ⟨fun other hother => ?_, iff_of_true ⟨result, rfl⟩ hsound, fun h => (h hsound).elim⟩
    cases hother
    exact horder
  · have hall : compileAndSort iter plan = .error (.circular candidates) := by
      unfold compileAndSort compile
      simp only [hsort]
    rw [hall]
    refine ⟨fun other hother => (by cases hother), iff_of_false (fun h => ?_) hunsound,
      fun _ => ⟨candidates, rfl⟩⟩
    obtain ⟨other, hother⟩ := h
    cases hother

/-- `b` before its dependency `a`, which is listed twice. -/
def twoSteps : TaskPlan := ⟨[], [⟨['b'], [['a'], ['a']]⟩, ⟨['a'], []⟩]⟩

theorem compileAndSort_spec_two :
    (∀ result, compileAndSort id twoSteps = .ok result → InOrder twoSteps result) ∧
      ((∃ result, compileAndSort id twoSteps = .ok result) ↔ Sound twoSteps) ∧
      (¬Sound twoSteps →
        ∃ candidates, compileAndSort id twoSteps = .error (.circular candidates)) :=
  compileAndSort_spec (fun l => List.Perm.refl l) (by decide)

end Results

end Velune.Execution
