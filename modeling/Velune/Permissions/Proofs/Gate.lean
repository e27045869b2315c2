/-
What gets through the permission gate, over every session.

Two kinds of fact carry it. `Route.passes_cases` lists the ways a check
can return normally; each is refused to a sensitive decision except the
user's own answer, and none is open to a decision with a blocked action.
For batches, `Balanced` counts: every check a batch let through, and
every key still standing, was paid for by an approval of its own.
-/
import Velune.Permissions.Gate

namespace Velune.Permissions

open Lib

-- ===== policy

variable {state : PolicyState}

theorem mem_withVerdict {v : Verdict} {actions : List Action} {entry : Action × PyStr} :
    entry ∈ withVerdict v actions state
      ↔ entry.1 ∈ actions ∧ decideOne entry.1 state = (v, entry.2) := by
  unfold withVerdict
  rw [List.mem_filterMap]
  constructor
  · rintro ⟨a, ha, hsome⟩
    split at hsome
    next hv =>
      cases hsome
      exact ⟨ha, by rw [← hv]⟩
    next => cases hsome
  · rintro ⟨ha, hd⟩
    exact ⟨entry.1, ha, by rw [hd, if_pos rfl]⟩

theorem decideOne_of_not_denied {actions : List Action}
    (h : (authorize actions state).verdict ≠ .deny) :
    ∀ a ∈ actions, (decideOne a state).1 ≠ .deny := by
  intro a ha hdeny
  have hne : actions ≠ [] := List.ne_nil_of_mem ha
  have hmem : (a, (decideOne a state).2) ∈ withVerdict .deny actions state :=
    mem_withVerdict.2 ⟨ha, by rw [← hdeny]⟩
  unfold authorize at h
  rw [if_neg hne] at h
  cases hd : withVerdict .deny actions state with
  | nil =>
      rw [hd] at hmem
      cases hmem
  | cons entry rest =>
      rw [hd] at h
      exact h rfl

theorem decideOne_blocked {a : Action} (h : a.blocked = true) : (decideOne a state).1 = .deny := by
  unfold decideOne
  rw [if_pos h]

/-- While a plan is being made, only reads, network access and plan
files are not refused outright. -/
theorem decideOne_planning {a : Action} (hplan : state.planning = true)
    (h : (decideOne a state).1 ≠ .deny) :
    a.actionType = .read ∨ a.actionType = .network
      ∨ (a.actionType = .writePlan ∧ inPlansDir a state = true) := by
  unfold decideOne at h
  by_cases hblocked : a.blocked = true
  · rw [if_pos hblocked] at h
    exact absurd rfl h
  · rw [if_neg hblocked] at h
    by_cases hwrite : a.actionType = .writePlan
    · rw [if_pos hwrite] at h
      by_cases hdir : inPlansDir a state = false
      · rw [if_pos hdir] at h
        exact absurd rfl h
      · exact Or.inr (Or.inr ⟨hwrite, by simpa using hdir⟩)
    · rw [if_neg hwrite] at h
      by_cases hread : a.actionType = .read
      · exact Or.inl hread
      · rw [if_neg hread] at h
        by_cases hnet : a.actionType = .network
        · exact Or.inr (Or.inl hnet)
        · rw [if_neg hnet, if_pos hplan] at h
          exact absurd rfl h

-- ===== checks

variable {g : PermissionGate} {toolName : PyStr} {actions : List Action}
variable {answer : Option Approval}

theorem Route.passes_cases (h : (g.route toolName actions answer).passes = true) :
    (authorize actions g.state).verdict = .allow
      ∨ ((authorize actions g.state).verdict = .ask
          ∧ (sensitive (authorize actions g.state) = false
            ∨ ∃ a, g.route toolName actions answer = .answered a ∧ a ≠ .deny)) := by
  unfold PermissionGate.route at h ⊢
  cases hv : (authorize actions g.state).verdict with
  | allow => exact Or.inl rfl
  | deny =>
      simp only [hv] at h
      cases h
  | ask =>
      simp only [hv] at h ⊢
      refine Or.inr ⟨trivial, ?_⟩
      by_cases hpre : batchKey toolName actions ∈ g.preapproved
          ∧ sensitive (authorize actions g.state) = false
      · exact Or.inl hpre.2
      · rw [if_neg hpre] at h ⊢
        by_cases hrej : batchKey toolName actions ∈ g.prerejected
        · rw [if_pos hrej] at h
          cases h
        · rw [if_neg hrej] at h ⊢
          by_cases hgrant : toolName ∈ g.sessionGrants
              ∧ sensitive (authorize actions g.state) = false ∧ g.forceConfirm = false
          · exact Or.inl hgrant.2.1
          · rw [if_neg hgrant] at h ⊢
            by_cases hask : g.canAsk = false
            · rw [if_pos hask] at h
              cases h
            · rw [if_neg hask] at h ⊢
              cases answer with
              | none => cases h
              | some a => exact Or.inr ⟨a, rfl, by simpa [Route.passes] using h⟩

theorem not_denied_of_passes (h : (g.route toolName actions answer).passes = true) :
    (authorize actions g.state).verdict ≠ .deny := by
  rcases Route.passes_cases h with hv | ⟨hv, -⟩ <;> rw [hv] <;> simp

structure LetThrough (state : PolicyState) (actions : List Action) (result : CheckResult) :
    Prop where
  unblocked : ∀ a ∈ actions, a.blocked = false
  confirmed : (authorize actions state).verdict = .ask →
    sensitive (authorize actions state) = true →
      ∃ a, result.route = .answered a ∧ a ≠ .deny
  planning : state.planning = true → ∀ a ∈ actions,
    a.actionType = .read ∨ a.actionType = .network
      ∨ (a.actionType = .writePlan ∧ inPlansDir a state = true)

theorem check_letThrough {rootFor : PyStr → PurePath}
    (h : (g.check rootFor toolName actions answer).1.route.passes = true) :
    LetThrough g.state actions (g.check rootFor toolName actions answer).1 := by
  have hroute : (g.route toolName actions answer).passes = true := h
  have hone := decideOne_of_not_denied (not_denied_of_passes hroute)
  refine ⟨fun a ha => ?_, fun hask hsens => ?_, fun hplan a ha => ?_⟩
  · by_contra hb
    exact hone a ha (decideOne_blocked (by simpa using hb))
  · rcases Route.passes_cases hroute with hv | ⟨-, hplain | hanswer⟩
    · rw [hv] at hask
      cases hask
    · rw [hplain] at hsens
      cases hsens
    · exact hanswer
  · exact decideOne_planning hplan (hone a ha)

-- ===== batches

/-- A check under `key` that a batch approval let through. -/
def GateEvent.usesBatch (key : BatchKey) : GateEvent → Bool
  | .checked _ toolName actions result =>
      batchKey toolName actions == key && result.route == .batchApproved
  | .batchApproved _ => false

/-- A batch approval that covers `key`. -/
def GateEvent.covers (key : BatchKey) : GateEvent → Bool
  | .batchApproved keys => decide (key ∈ keys)
  | .checked _ _ _ _ => false

/-- How many approvals of `key` still stand: a set holds one at most. -/
def standing (g : PermissionGate) (key : BatchKey) : Nat := if key ∈ g.preapproved then 1 else 0

/-- Every use of a batch approval, and every approval still standing,
was given. -/
def Balanced (key : BatchKey) (s : Session) : Prop :=
  s.log.countP (GateEvent.usesBatch key) + standing s.gate key
    ≤ s.log.countP (GateEvent.covers key)

theorem standing_le_one (g : PermissionGate) (key : BatchKey) : standing g key ≤ 1 := by
  unfold standing
  split_ifs <;> omega

theorem standing_le {g g' : PermissionGate} {key : BatchKey}
    (h : g'.preapproved ⊆ g.preapproved) : standing g' key ≤ standing g key := by
  unfold standing
  by_cases hk : key ∈ g'.preapproved
  · rw [if_pos hk, if_pos (h hk)]
  · rw [if_neg hk]
    exact Nat.zero_le _

/-- An operation that logs nothing and approves nothing keeps the
balance. -/
theorem Balanced.of_subset {key : BatchKey} {s : Session} {g' : PermissionGate}
    (hs : Balanced key s) (h : g'.preapproved ⊆ s.gate.preapproved) :
    Balanced key { s with gate := g' } := by
  have hle : standing g' key ≤ standing s.gate key := standing_le h
  have hbal : s.log.countP (GateEvent.usesBatch key) + standing s.gate key
      ≤ s.log.countP (GateEvent.covers key) := hs
  show s.log.countP (GateEvent.usesBatch key) + standing g' key
    ≤ s.log.countP (GateEvent.covers key)
  omega

/-- The log after a batch prompt that approved `keys`. -/
def logBatch (log : List GateEvent) (keys : Finset BatchKey) : List GateEvent :=
  if keys = ∅ then log else log ++ [.batchApproved keys]

theorem checked_of_mem_logBatch {log : List GateEvent} {keys : Finset BatchKey} {toolName : PyStr}
    {actions : List Action} {result : CheckResult}
    (h : GateEvent.checked state toolName actions result ∈ logBatch log keys) :
    GateEvent.checked state toolName actions result ∈ log := by
  unfold logBatch at h
  split at h
  next => exact h
  next => simpa using h

theorem preauthorize_cases (g : PermissionGate) (calls : List (PyStr × List Action))
    (reply : Option Bool) :
    ((g.preauthorize calls reply).1.preapproved = g.preapproved
        ∧ (g.preauthorize calls reply).2 = ∅)
      ∨ (g.preauthorize calls reply).1.preapproved
          = g.preapproved ∪ (g.preauthorize calls reply).2 := by
  unfold PermissionGate.preauthorize
  split
  next => exact Or.inl ⟨rfl, rfl⟩
  next =>
    cases reply with
    | none => exact Or.inl ⟨rfl, rfl⟩
    | some approved =>
        cases approved with
        | true => exact Or.inr rfl
        | false => exact Or.inl ⟨rfl, rfl⟩

theorem Balanced.preauthorize {key : BatchKey} {s : Session} (hs : Balanced key s)
    (calls : List (PyStr × List Action)) (reply : Option Bool) :
    Balanced key ⟨(s.gate.preauthorize calls reply).1,
      logBatch s.log (s.gate.preauthorize calls reply).2⟩ := by
  have hcases := preauthorize_cases s.gate calls reply
  generalize (s.gate.preauthorize calls reply).1 = g' at hcases ⊢
  generalize (s.gate.preauthorize calls reply).2 = keys at hcases ⊢
  unfold logBatch
  rcases hcases with ⟨hsame, hnone⟩ | happroved
  · rw [if_pos hnone]
    exact hs.of_subset (by rw [hsame])
  · by_cases hnone : keys = ∅
    · rw [if_pos hnone]
      exact hs.of_subset (by rw [happroved, hnone, Finset.union_empty])
    · rw [if_neg hnone]
      unfold Balanced at hs ⊢
      simp only [List.countP_append, List.countP_singleton, GateEvent.usesBatch,
        GateEvent.covers, decide_eq_true_eq, Bool.false_eq_true, if_false, Nat.add_zero]
      by_cases hk : key ∈ keys
      · have hone : standing g' key ≤ 1 := standing_le_one g' key
        rw [if_pos hk]
        omega
      · have hle : standing g' key ≤ standing s.gate key := by
          unfold standing
          by_cases hin : key ∈ g'.preapproved
          · rw [happroved, Finset.mem_union, or_iff_left hk] at hin
            rw [if_pos hin]
            split_ifs <;> omega
          · rw [if_neg hin]
            exact Nat.zero_le _
        rw [if_neg hk]
        omega

theorem Balanced.check {key : BatchKey} {s : Session} {rootFor : PyStr → PurePath}
    (hs : Balanced key s) (toolName : PyStr) (actions : List Action)
    (answer : Option Approval) :
    Balanced key ⟨(s.gate.check rootFor toolName actions answer).2,
      s.log ++ [.checked s.gate.state toolName actions
        (s.gate.check rootFor toolName actions answer).1]⟩ := by
  unfold Balanced at hs ⊢
  simp only [List.countP_append, List.countP_singleton, GateEvent.covers, Bool.false_eq_true,
    if_false, Nat.add_zero]
  by_cases huse : GateEvent.usesBatch key (.checked s.gate.state toolName actions
      (s.gate.check rootFor toolName actions answer).1) = true
  · -- the use takes down the key that stood for it
    have huse' := huse
    simp only [GateEvent.usesBatch, PermissionGate.check, Bool.and_eq_true, beq_iff_eq] at huse'
    obtain ⟨hkey, hroute⟩ := huse'
    have hstood : key ∈ s.gate.preapproved := by
      unfold PermissionGate.route at hroute
      cases hv : (authorize actions s.gate.state).verdict with
      | allow => simp [hv] at hroute
      | deny => simp [hv] at hroute
      | ask =>
          simp only [hv] at hroute
          by_cases hpre : batchKey toolName actions ∈ s.gate.preapproved
              ∧ sensitive (authorize actions s.gate.state) = false
          · exact hkey ▸ hpre.1
          · rw [if_neg hpre] at hroute
            split_ifs at hroute
            cases answer <;> cases hroute
    have hgone : standing (s.gate.check rootFor toolName actions answer).2 key = 0 := by
      unfold PermissionGate.check PermissionGate.after standing
      rw [hroute, hkey]
      simp
    have hone : standing s.gate key = 1 := if_pos hstood
    rw [if_pos huse, hgone]
    omega
  · rw [if_neg huse]
    have hsub : (s.gate.check rootFor toolName actions answer).2.preapproved
        ⊆ s.gate.preapproved := by
      unfold PermissionGate.check PermissionGate.after
      cases s.gate.route toolName actions answer with
      | batchApproved => exact Finset.erase_subset _ _
      | answered a =>
          cases a with
          | allowTask =>
              simp only
              split_ifs <;> exact Finset.Subset.refl _
          | _ => exact Finset.Subset.refl _
      | _ => exact Finset.Subset.refl _
    have hle : standing (s.gate.check rootFor toolName actions answer).2 key
        ≤ standing s.gate key := standing_le hsub
    omega

-- ===== sessions

/-- Every check in the log that returned normally let through only what
it may, and every batch approval let at most one check through. -/
structure Session.Guarded (s : Session) : Prop where
  letThrough : ∀ state toolName actions result,
    GateEvent.checked state toolName actions result ∈ s.log → result.route.passes = true →
      LetThrough state actions result
  balanced : ∀ key, Balanced key s

theorem Session.Guarded.of_subset {s : Session} {g' : PermissionGate} (hs : s.Guarded)
    (h : g'.preapproved ⊆ s.gate.preapproved) : Session.Guarded { s with gate := g' } :=
  ⟨hs.letThrough, fun key => (hs.balanced key).of_subset h⟩

theorem Session.Guarded.step {rootFor : PyStr → PurePath} {op : GateOp} {s s' : Session}
    (hs : s.Guarded) (h : Session.step rootFor op s = some s') : s'.Guarded := by
  cases op with
  | preauthorize calls reply =>
      cases h
      refine ⟨fun state toolName actions result hmem hpass => ?_,
        fun key => (hs.balanced key).preauthorize calls reply⟩
      exact hs.letThrough state toolName actions result (checked_of_mem_logBatch hmem) hpass
  | check toolName actions answer =>
      cases h
      refine ⟨fun state name acts result hmem hpass => ?_,
        fun key => (hs.balanced key).check toolName actions answer⟩
      rcases List.mem_append.1 hmem with hold | hnew
      · exact hs.letThrough state name acts result hold hpass
      · cases List.mem_singleton.1 hnew
        exact check_letThrough hpass
  | clearBatch =>
      cases h
      exact hs.of_subset (Finset.empty_subset _)
  | setState state =>
      cases h
      exact hs.of_subset (Finset.Subset.refl _)
  | setForceConfirm on =>
      cases h
      exact hs.of_subset (Finset.Subset.refl _)
  | setCallbacks canAsk canAskBatch =>
      cases h
      exact hs.of_subset (Finset.Subset.refl _)
  | setGrants grants =>
      cases h
      exact hs.of_subset (Finset.Subset.refl _)
  | setRoots roots =>
      cases h
      exact hs.of_subset (Finset.Subset.refl _)

/-- In every session of a gate that starts without standing batch
approvals: a check that returns normally has no blocked action, and for
a sensitive decision it asked the user itself and was not refused; while
a plan is being made nothing but reads, network access and plan files
gets through; and under every key no more checks used a batch approval
than batches with that key were approved. -/
theorem sensitive_asks_each_time {rootFor : PyStr → PurePath} {g : PermissionGate}
    {ops : List GateOp} {s : Session} (hg : g.preapproved = ∅)
    (hrun : run (Session.step rootFor) ops ⟨g, []⟩ = some s) :
    (∀ state toolName actions result,
        GateEvent.checked state toolName actions result ∈ s.log →
          result.route.passes = true → LetThrough state actions result)
      ∧ ∀ key, s.log.countP (GateEvent.usesBatch key)
          ≤ s.log.countP (GateEvent.covers key) := by
  have hstart : Session.Guarded ⟨g, []⟩ := by
    refine ⟨fun _ _ _ _ hmem => (List.not_mem_nil hmem).elim, fun key => ?_⟩
    simp [Balanced, standing, hg]
  have hend : s.Guarded :=
    run_preserves (P := Session.Guarded) (fun _ _ _ hP hstep => hP.step hstep) hstart hrun
  refine ⟨hend.letThrough, fun key => ?_⟩
  have hbal := hend.balanced key
  unfold Balanced at hbal
  omega

def edit (target : PyStr) (secret : Bool) : Action :=
  { actionType := .modifyFile, target := target, risk := .medium, secret := secret }

/-- Two edits approved as a batch; one of them is checked twice, then a
secret file is changed under a session grant. -/
def oneTurn : List GateOp :=
  [.preauthorize
      [("edit".toList, [edit "/w/a".toList false]), ("edit".toList, [edit "/w/b".toList false])]
      (some true),
    .check "edit".toList [edit "/w/a".toList false] (some .deny),
    .check "edit".toList [edit "/w/a".toList false] (some .allowTask),
    .check "edit".toList [edit "/w/.env".toList true] (some .allowOnce)]

/-- The turn uses its batch once, and what it let through is as the
theorem says. -/
theorem sensitive_asks_each_time_one_turn :
    ∃ s, run (Session.step PurePath.parse) oneTurn ⟨{ state := {} }, []⟩ = some s
      ∧ s.log.countP (GateEvent.usesBatch
          (batchKey "edit".toList [edit "/w/a".toList false])) = 1
      ∧ (∀ state toolName actions result,
          GateEvent.checked state toolName actions result ∈ s.log →
            result.route.passes = true → LetThrough state actions result) := by
  have hdone : (run (Session.step PurePath.parse) oneTurn ⟨{ state := {} }, []⟩).map
      (fun s => s.log.countP (GateEvent.usesBatch
        (batchKey "edit".toList [edit "/w/a".toList false]))) = some 1 := by decide +kernel
  obtain ⟨s, hs, hone⟩ := Option.map_eq_some_iff.1 hdone
  exact ⟨s, hs, hone, (sensitive_asks_each_time rfl hs).1⟩

-- ===== grants

def GateEvent.ForTask (toolName : PyStr) (decision : Decision) (log : List GateEvent) : Prop :=
  ∃ state actions result, GateEvent.checked state toolName actions result ∈ log
    ∧ result.route = .answered .allowTask ∧ result.decision = decision

/-- Whatever is granted beyond one call was so at the start, was granted
elsewhere in the session, or is what the user answered for the task: a
tool about nothing sensitive, a directory about a target in it. -/
structure Session.Granted (rootFor : PyStr → PurePath) (ops : List GateOp) (g : PermissionGate)
    (s : Session) : Prop where
  tools : ∀ tool ∈ s.gate.sessionGrants, tool ∈ g.sessionGrants
    ∨ (∃ grants, GateOp.setGrants grants ∈ ops ∧ tool ∈ grants)
    ∨ ∃ decision, GateEvent.ForTask tool decision s.log ∧ sensitive decision = false
  roots : ∀ root ∈ s.gate.extraRoots, root ∈ g.extraRoots
    ∨ (∃ roots, GateOp.setRoots roots ∈ ops ∧ root ∈ roots)
    ∨ ∃ tool decision, GateEvent.ForTask tool decision s.log
        ∧ root ∈ decision.outsideTargets.map rootFor

section Grants

variable {rootFor : PyStr → PurePath} {ops : List GateOp} {g : PermissionGate} {s s' : Session}

theorem GateEvent.ForTask.mono {tool : PyStr} {decision : Decision} {log log' : List GateEvent}
    (h : ForTask tool decision log) (hlog : log ⊆ log') : ForTask tool decision log' := by
  obtain ⟨state, actions, result, hmem, hrest⟩ := h
  exact ⟨state, actions, result, hlog hmem, hrest⟩

theorem Session.Granted.mono (h : s.Granted rootFor ops g) (hlog : s.log ⊆ s'.log)
    (htools : s'.gate.sessionGrants = s.gate.sessionGrants)
    (hroots : s'.gate.extraRoots = s.gate.extraRoots) : s'.Granted rootFor ops g where
  tools tool htool := (h.tools tool (htools ▸ htool)).imp_right fun hgiven =>
    hgiven.imp_right fun ⟨decision, htask, hplain⟩ => ⟨decision, htask.mono hlog, hplain⟩
  roots root hroot := (h.roots root (hroots ▸ hroot)).imp_right fun hgiven =>
    hgiven.imp_right fun ⟨tool, decision, htask, hin⟩ => ⟨tool, decision, htask.mono hlog, hin⟩

theorem Session.Granted.check (h : s.Granted rootFor ops g) (toolName : PyStr)
    (actions : List Action) (answer : Option Approval) :
    Session.Granted rootFor ops g ⟨(s.gate.check rootFor toolName actions answer).2,
      s.log ++ [.checked s.gate.state toolName actions
        (s.gate.check rootFor toolName actions answer).1]⟩ := by
  have hold : Session.Granted rootFor ops g ⟨s.gate, s.log ++ [.checked s.gate.state toolName
      actions (s.gate.check rootFor toolName actions answer).1]⟩ :=
    h.mono (List.subset_append_left _ _) rfl rfl
  have htask : s.gate.route toolName actions answer = .answered .allowTask →
      GateEvent.ForTask toolName (authorize actions s.gate.state) (s.log ++
        [.checked s.gate.state toolName actions (s.gate.check rootFor toolName actions answer).1]) :=
    fun hroute => ⟨_, _, _, List.mem_append_right _ (List.mem_singleton_self _), hroute, rfl⟩
  generalize hlog : s.log ++ [.checked s.gate.state toolName actions
    (s.gate.check rootFor toolName actions answer).1] = log at hold htask ⊢
  unfold PermissionGate.check PermissionGate.after
  dsimp only
  cases hroute : s.gate.route toolName actions answer with
  | answered a =>
      cases a with
      | allowTask =>
          dsimp only
          split_ifs with houtside hplain
          · refine ⟨hold.tools, fun root hroot => ?_⟩
            rcases List.mem_append.1 hroot with hin | hnew
            · exact hold.roots root hin
            · exact Or.inr (Or.inr ⟨toolName, _, htask hroute, hnew⟩)
          · refine ⟨fun tool htool => ?_, hold.roots⟩
            rcases Finset.mem_insert.1 htool with rfl | hin
            · exact Or.inr (Or.inr ⟨_, htask hroute, hplain⟩)
            · exact hold.tools tool hin
          · exact hold
      | _ => exact hold
  | _ => exact ⟨hold.tools, hold.roots⟩

theorem preauthorize_grants (gate : PermissionGate) (calls : List (PyStr × List Action))
    (reply : Option Bool) :
    (gate.preauthorize calls reply).1.sessionGrants = gate.sessionGrants
      ∧ (gate.preauthorize calls reply).1.extraRoots = gate.extraRoots := by
  unfold PermissionGate.preauthorize
  split
  · exact ⟨rfl, rfl⟩
  · cases reply with
    | none => exact ⟨rfl, rfl⟩
    | some yes => cases yes <;> exact ⟨rfl, rfl⟩

theorem Session.Granted.step {op : GateOp} (hop : op ∈ ops) (h : s.Granted rootFor ops g)
    (hstep : Session.step rootFor op s = some s') : s'.Granted rootFor ops g := by
  cases op with
  | preauthorize calls reply =>
      simp only [Session.step, Option.some.injEq] at hstep
      obtain ⟨htools, hroots⟩ := preauthorize_grants s.gate calls reply
      subst hstep
      refine h.mono ?_ htools hroots
      dsimp only
      split_ifs
      · exact List.Subset.refl _
      · exact List.subset_append_left _ _
  | check toolName actions answer =>
      cases hstep
      exact h.check toolName actions answer
  | setGrants grants =>
      cases hstep
      exact ⟨fun tool htool => Or.inr (Or.inl ⟨grants, hop, htool⟩), h.roots⟩
  | setRoots roots =>
      cases hstep
      exact ⟨h.tools, fun root hroot => Or.inr (Or.inl ⟨roots, hop, hroot⟩)⟩
  | _ =>
      cases hstep
      exact ⟨h.tools, h.roots⟩

end Grants

theorem grants_given {rootFor : PyStr → PurePath} {g : PermissionGate} {ops : List GateOp}
    {s : Session} (hrun : run (Session.step rootFor) ops ⟨g, []⟩ = some s) :
    s.Granted rootFor ops g := by
  have hstart : Session.Granted rootFor ops g ⟨g, []⟩ :=
    ⟨fun _ htool => Or.inl htool, fun _ hroot => Or.inl hroot⟩
  exact run_preserves_of (C := fun op _ => op ∈ ops) (fun _ _ _ hop h hstep => h.step hop hstep)
    (meets_of_forall _ fun _ hop _ => hop) hstart hrun

theorem grants_given_one_turn :
    ∃ s, run (Session.step PurePath.parse) oneTurn ⟨{ state := {} }, []⟩ = some s
      ∧ "edit".toList ∈ s.gate.sessionGrants
      ∧ s.Granted PurePath.parse oneTurn { state := {} } := by
  have hdone : (run (Session.step PurePath.parse) oneTurn ⟨{ state := {} }, []⟩).map
      (fun s => decide ("edit".toList ∈ s.gate.sessionGrants)) = some true := by decide +kernel
  obtain ⟨s, hs, hgranted⟩ := Option.map_eq_some_iff.1 hdone
  exact ⟨s, hs, of_decide_eq_true hgranted, grants_given hs⟩

end Velune.Permissions
