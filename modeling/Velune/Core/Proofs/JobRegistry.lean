/-
When the record of a background job tells how it ended.

A record is truthful as long as its status is an active one exactly while
its task runs (`JobRecord.Settled`). The body of the task keeps that on
every exit but one, an exception that is no `SandboxError`; a task that is
cancelled before its body runs loses it, and so does every `cancel` of a
registered job, which writes its status at once, whatever the task does.
-/
import Velune.Core.TaskRegistry

namespace Velune.Core

open Lib

-- ===== property

/-- Once the task has ended, the status says how, and since when. -/
def JobRecord.Truthful (job : JobRecord) : Prop :=
  ∀ how, job.task = .ended how → job.status = how.status ∧ job.completedAt.isSome

def JobRegistry.Truthful (s : JobRegistry) : Prop :=
  (∀ job ∈ s, job.Truthful) ∧ s.activeCount = s.unfinishedCount

def JobRegistry.Final (s s' : JobRegistry) : Prop :=
  ∀ (id : Nat) (job : JobRecord), s[id]? = some job → job.isActive = false →
    ∃ job' : JobRecord, s'[id]? = some job' ∧ job'.status = job.status ∧ job'.completedAt = job.completedAt

/-- `cancel` returns `True` only of a job that is stopped by it. -/
def Stops (s : JobRegistry) : JobStep → Prop
  | .cancel id _ => JobRegistry.cancelReturns id s = true →
      ∃ job, s[id]? = some job ∧ job.isActive ∧ job.isUnfinished
  | _ => True

def FinalStep (step : JobStep) (s : JobRegistry) : Prop :=
  (∀ s', jobStep step s = some s' → JobRegistry.Final s s') ∧ Stops s step

def Told : JobStep → JobRegistry → Prop
  | .start id, s => ∀ job, s[id]? = some job → job.cancelling = false
  | .raise _ sandboxError _, _ => sandboxError = true
  | .cancel id _, s => s[id]? = none
  | _, _ => True

-- ===== records

/-- The status is an active one while the task runs, and then tells how
it ended. -/
def JobRecord.Settled (job : JobRecord) : Prop :=
  (job.isUnfinished → job.isActive) ∧ job.Truthful

/-- Among records that are truthful none is active without its task. -/
theorem unfinished_of_active {job : JobRecord} (h : job.Truthful) (hactive : job.isActive) :
    job.isUnfinished := by
  unfold JobRecord.Truthful at h
  unfold JobRecord.isActive at hactive
  unfold JobRecord.isUnfinished
  cases htask : job.task with
  | created => simp
  | running => simp
  | ended how =>
      rw [(h how htask).1] at hactive
      cases how <;> cases hactive

/-- Two counts agree, where one test implies the other, only if the tests
agree. -/
theorem countP_eq_iff {α : Type} {p q : α → Bool} :
    ∀ {l : List α}, (∀ x ∈ l, p x → q x) → (l.countP p = l.countP q ↔ ∀ x ∈ l, q x → p x)
  | [], _ => by simp
  | a :: l, h => by
      have hle : l.countP p ≤ l.countP q :=
        List.countP_mono_left fun x hx => h x (List.mem_cons_of_mem a hx)
      have ih := countP_eq_iff (p := p) (q := q) fun x hx => h x (List.mem_cons_of_mem a hx)
      have ha := h a (List.mem_cons_self ..)
      rw [List.countP_cons, List.countP_cons, List.forall_mem_cons, ← ih]
      cases hp : p a <;> cases hq : q a
      · simp
      · simp
        omega
      · rw [hp, hq] at ha
        cases ha rfl
      · simp

theorem truthful_iff {s : JobRegistry} : s.Truthful ↔ ∀ job ∈ s, job.Settled := by
  refine ⟨fun ⟨htold, hcount⟩ job hjob => ⟨?_, htold job hjob⟩, fun h => ⟨fun job hjob => (h job hjob).2, ?_⟩⟩
  · exact (countP_eq_iff fun x hx => unfinished_of_active (htold x hx)).1 hcount job hjob
  · exact (countP_eq_iff fun x hx => unfinished_of_active (h x hx).2).2 fun x hx => (h x hx).1

theorem settled_set {s : JobRegistry} {id : Nat} {old job : JobRecord} (hold : s[id]? = some old)
    (h : ∀ job ∈ s, job.Settled) : (∀ j ∈ s.set id job, j.Settled) ↔ job.Settled := by
  obtain ⟨hlt, -⟩ := List.getElem?_eq_some_iff.1 hold
  refine ⟨fun hall => hall job (List.mem_set hlt job), fun hjob j hj => ?_⟩
  rcases List.mem_or_eq_of_mem_set hj with hmem | heq
  · exact h j hmem
  · exact heq ▸ hjob

theorem final_set {s : JobRegistry} {id : Nat} {old job : JobRecord} (hold : s[id]? = some old)
    (h : old.isActive = false → job.status = old.status ∧ job.completedAt = old.completedAt) :
    JobRegistry.Final s (s.set id job) := by
  obtain ⟨hlt, -⟩ := List.getElem?_eq_some_iff.1 hold
  intro i j hj hdone
  by_cases hi : id = i
  · subst hi
    cases hold.symm.trans hj
    exact ⟨job, by rw [List.getElem?_set_self hlt], h hdone⟩
  · exact ⟨j, by rw [List.getElem?_set_ne hi, hj], rfl, rfl⟩

theorem final_refl (s : JobRegistry) : JobRegistry.Final s s :=
  fun _ job hjob _ => ⟨job, hjob, rfl, rfl⟩

-- ===== steps

section Steps

variable {s s' : JobRegistry} {id : Nat} {job : JobRecord}

/-- Only the body of a task that runs changes its record, and only a task
that runs has one. -/
theorem body_active {step : JobStep} {job' : JobRecord} (h : job.Settled)
    (hbody : bodyStep step job = some job') (hjob : step.job = some id) :
    (∃ now, step = .cancel id now) ∨ (job.status = job'.status ∧ job.completedAt = job'.completedAt)
      ∨ job.isActive := by
  have hrunning : ∀ {p : Prop}, job.task = .running ∧ p → job.isActive := fun hand =>
    h.1 (by simp [JobRecord.isUnfinished, hand.1])
  cases step with
  | execute => cases hjob
  | start =>
      simp only [bodyStep] at hbody
      split at hbody
      · rename_i htask
        exact Or.inr (Or.inr (h.1 (by simp [JobRecord.isUnfinished, htask])))
      · cases hbody
  | complete =>
      simp only [bodyStep] at hbody
      split at hbody
      · exact Or.inr (Or.inr (hrunning ‹_›))
      · cases hbody
  | raise =>
      simp only [bodyStep] at hbody
      split at hbody
      · exact Or.inr (Or.inr (hrunning ‹_›))
      · cases hbody
  | interrupt =>
      simp only [bodyStep] at hbody
      split at hbody
      · exact Or.inr (Or.inr (hrunning ‹_›))
      · cases hbody
  | cancelTask =>
      cases hbody
      exact Or.inr (Or.inl ⟨rfl, rfl⟩)
  | cancel _ now =>
      cases hjob
      exact Or.inl ⟨now, rfl⟩

theorem settled_running (hstatus : job.status = .running) (htask : job.task = .running) :
    job.Settled := by
  refine ⟨fun _ => by simp [JobRecord.isActive, hstatus], fun how hhow => ?_⟩
  cases htask.symm.trans hhow

theorem settled_ended {how : JobEnd} (htask : job.task = .ended how) :
    job.Settled ↔ job.status = how.status ∧ job.completedAt.isSome := by
  refine ⟨fun h => h.2 how htask, fun h => ⟨fun hunfinished => ?_, fun how' hhow => ?_⟩⟩
  · simp [JobRecord.isUnfinished, htask] at hunfinished
  · cases htask.symm.trans hhow
    exact h

theorem not_settled {how : JobEnd} (htask : job.task = .ended how) (hactive : job.isActive) :
    ¬ job.Settled := by
  intro h
  have hstatus := ((settled_ended htask).1 h).1
  rw [JobRecord.isActive, hstatus] at hactive
  cases how <;> cases hactive

/-- What the body leaves is settled again, except after the exits that
`Told` excludes. -/
theorem body_settled_iff {step : JobStep} {job' : JobRecord} (h : job.Settled)
    (hget : s[id]? = some job) (hjob : step.job = some id) (hnot : ∀ now, step ≠ .cancel id now)
    (hbody : bodyStep step job = some job') : job'.Settled ↔ Told step s := by
  cases step with
  | execute => cases hjob
  | start =>
      cases hjob
      simp only [bodyStep] at hbody
      split at hbody
      · rename_i htask
        have hactive := h.1 (by simp [JobRecord.isUnfinished, htask])
        cases hcancelling : job.cancelling with
        | true =>
            rw [hcancelling] at hbody
            cases hbody
            refine iff_of_false (not_settled rfl hactive) fun htold => ?_
            cases hcancelling.symm.trans (htold job hget)
        | false =>
            rw [hcancelling] at hbody
            cases hbody
            refine iff_of_true (settled_running rfl rfl) fun other hother => ?_
            cases hget.symm.trans hother
            exact hcancelling
      · cases hbody
  | complete =>
      simp only [bodyStep] at hbody
      split at hbody
      · cases hbody
        exact iff_of_true ((settled_ended rfl).2 ⟨rfl, rfl⟩) trivial
      · cases hbody
  | raise _ sandboxError =>
      simp only [bodyStep] at hbody
      split at hbody
      · rename_i hand
        have hactive := h.1 (by simp [JobRecord.isUnfinished, hand.1])
        cases sandboxError with
        | true =>
            cases hbody
            exact iff_of_true ((settled_ended rfl).2 ⟨rfl, rfl⟩) rfl
        | false =>
            cases hbody
            exact iff_of_false (not_settled rfl hactive) fun htold => by cases htold
      · cases hbody
  | interrupt =>
      simp only [bodyStep] at hbody
      split at hbody
      · cases hbody
        exact iff_of_true ((settled_ended rfl).2 ⟨rfl, rfl⟩) trivial
      · cases hbody
  | cancelTask =>
      cases hbody
      exact iff_of_true h trivial
  | cancel _ now =>
      cases hjob
      exact (hnot now rfl).elim

/-- `cancel` of a job that is registered writes a status while the task
runs, or answers that it stopped one that does not. -/
theorem cancel_untruthful {now : Nat} (hget : s[id]? = some job)
    (hstep : jobStep (.cancel id now) s = some s') (hstops : Stops s (.cancel id now))
    (h : s'.Truthful) : False := by
  obtain ⟨hlt, -⟩ := List.getElem?_eq_some_iff.1 hget
  obtain ⟨other, hother, -, hunfinished⟩ := hstops (by rw [JobRegistry.cancelReturns, hget]; rfl)
  cases hget.symm.trans hother
  simp only [jobStep, JobStep.job, hget, bodyStep, Option.map_some] at hstep
  cases hstep
  have hactive := (truthful_iff.1 h _ (List.mem_set hlt _)).1 hunfinished
  cases hactive

theorem truthful_step {step : JobStep} (h : s.Truthful) (hstep : jobStep step s = some s') :
    FinalStep step s ∧ s'.Truthful ↔ Told step s := by
  have hsettled := truthful_iff.1 h
  have hfinal : ∀ {u : JobRegistry}, jobStep step s = some u → s' = u := fun hu =>
    Option.some.inj (hstep.symm.trans hu)
  cases hjob : step.job with
  | none =>
      cases step with
      | execute =>
          cases hstep
          refine iff_of_true ⟨⟨fun u hu => ?_, trivial⟩, truthful_iff.2 fun job hmem => ?_⟩ trivial
          · cases hfinal hu
            intro id job hget _
            exact ⟨job, List.getElem?_append_left (List.getElem?_eq_some_iff.1 hget).1 ▸ hget, rfl, rfl⟩
          · rcases List.mem_append.1 hmem with hold | hnew
            · exact hsettled job hold
            · cases List.mem_singleton.1 hnew
              exact ⟨fun _ => rfl, fun how hhow => by cases hhow⟩
      | _ => cases hjob
  | some id =>
      cases hget : s[id]? with
      | none =>
          simp only [jobStep, hjob, hget] at hstep
          cases step with
          | cancel _ now =>
              cases hjob
              cases hstep
              refine iff_of_true ⟨⟨fun u hu => ?_, fun hreturns => ?_⟩, h⟩ hget
              · cases hfinal hu
                exact final_refl s
              · rw [JobRegistry.cancelReturns, hget] at hreturns
                cases hreturns
          | _ => cases hstep
      | some job =>
          have hold := hsettled job (List.mem_of_getElem? hget)
          have hstep' := hstep
          simp only [jobStep, hjob, hget] at hstep'
          obtain ⟨job', hbody, hs'⟩ := Option.map_eq_some_iff.1 hstep'
          by_cases hcancel : ∃ now, step = .cancel id now
          · obtain ⟨now, rfl⟩ := hcancel
            refine iff_of_false (fun ⟨⟨_, hstops⟩, htruthful⟩ => ?_) fun htold => ?_
            · exact cancel_untruthful hget hstep hstops htruthful
            · cases hget.symm.trans htold
          · have hnot : ∀ now, step ≠ .cancel id now := fun now heq => hcancel ⟨now, heq⟩
            rw [truthful_iff, ← hs', settled_set hget hsettled,
              body_settled_iff hold hget hjob hnot hbody, and_iff_right_iff_imp]
            refine fun _ => ⟨fun u hu => ?_, ?_⟩
            · cases hfinal hu
              rw [← hs']
              refine final_set hget fun hdone => ?_
              rcases body_active hold hbody hjob with hc | hsame | hactive
              · exact (hcancel hc).elim
              · exact ⟨hsame.1.symm, hsame.2.symm⟩
              · rw [hdone] at hactive
                cases hactive
            · cases step with
              | cancel _ now =>
                  cases hjob
                  exact (hnot now rfl).elim
              | _ => trivial

end Steps

-- ===== claim

/-- In a run the records are truthful throughout, and final once they are,
exactly when every step is one that leaves them so. -/
theorem jobs_told_iff {steps : List JobStep} {t : JobRegistry}
    (hrun : run jobStep steps [] = some t) :
    Meets jobStep (fun step s => s.Truthful ∧ FinalStep step s) steps [] ∧ t.Truthful
      ↔ Meets jobStep Told steps [] :=
  upheld_iff_meets (I := fun _ => True) (fun _ _ _ _ _ _ _ => trivial)
    (fun _ _ _ _ h hstep => truthful_step h hstep) trivial
    ⟨fun _ hjob => (by cases hjob), rfl⟩ hrun

def completing : List JobStep := [.execute, .start 0, .complete 0 5]

theorem completing_told :
    run jobStep completing [] = some [{ status := .completed, completedAt := some 5, task := .ended .completed }]
      ∧ (Meets jobStep (fun step s => s.Truthful ∧ FinalStep step s) completing []
        ∧ JobRegistry.Truthful [{ status := .completed, completedAt := some 5, task := .ended .completed }]
          ↔ Meets jobStep Told completing []) :=
  ⟨rfl, jobs_told_iff rfl⟩

/-- The job of a command ends with an exception that is no `SandboxError`,
and is then cancelled twice. -/
def misreported : List JobStep :=
  [.execute, .start 0, .raise 0 false 5, .cancel 0 7, .cancel 0 9]

theorem job_misreported :
    run jobStep (misreported.take 3) [] = some [{ status := .running, task := .ended .failed }]
      ∧ run jobStep misreported [] = some
          [{ status := .cancelled, completedAt := some 9, cancelEvent := true, task := .ended .failed }]
      ∧ ¬ Meets jobStep (fun step s => s.Truthful ∧ FinalStep step s) misreported [] := by
  refine ⟨rfl, rfl, fun h => ?_⟩
  have hended : jobStep (.raise 0 false 5) [{ status := .running, task := .running }]
      = some [{ status := .running, task := .ended .failed }] := rfl
  have hthird := (((h.2 _ rfl).2 _ rfl).2 _ hended).1.1.1 _ (List.mem_singleton_self _) .failed rfl
  cases hthird.1

end Velune.Core
