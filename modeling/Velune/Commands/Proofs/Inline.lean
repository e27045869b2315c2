/-
When refusing and running program text are the same (`refusedAsRun_iff`).

Every word that makes python take text is found (`isCluster_of_taking`), and
of node's words those that stand alone; but all words are searched, those of
the script too.
-/
import Velune.Commands.Inline

namespace Velune.Commands

open Lib Lib.Options

/-- A call is refused, as the one reason left for an allowed program, exactly
when the interpreter would run text. -/
def RefusedAsRun (options : PyStr → NodeOption) (given configured : Option (List PyStr))
    (spec : CommandSpec) (interpreter : Interpreter) : Prop :=
  (∃ e, spec.validateCommand given configured = .error e) ↔ runsText options interpreter spec.args = true

def Interpreter.suspects : Interpreter → PyStr → Bool
  | .python, w => isCluster w
  | .node, w => nodeInlineFlags.contains w

/-- A call that runs text has a suspect word (for python it always has); one
that does not has none, not even for the script. -/
def SuspectsOnlyText (options : PyStr → NodeOption) (interpreter : Interpreter)
    (args : List PyStr) : Prop :=
  if runsText options interpreter args then
    interpreter = .node → ∃ w ∈ args, w ∈ nodeInlineFlags
  else ∀ w ∈ args, interpreter.suspects w = false

-- ===== the check

theorem findInlineCodeFlag_of {executable : PyStr} {interpreter : Interpreter}
    (h : interpreterOf executable = some interpreter) (args : List PyStr) :
    findInlineCodeFlag executable args = args.find? interpreter.suspects := by
  unfold interpreterOf at h
  unfold findInlineCodeFlag
  split at h
  next hpython =>
    cases h
    exact if_pos hpython
  next hpython =>
    split at h
    next hnode =>
      cases h
      rw [if_neg hpython, hnode]
      rfl
    next => cases h

theorem refused_iff {given configured : Option (List PyStr)} {spec : CommandSpec}
    {interpreter : Interpreter} (hallowed : spec.executable ∈ allowedOf given configured)
    (h : interpreterOf spec.executable = some interpreter) :
    (∃ e, spec.validateCommand given configured = .error e)
      ↔ ∃ w ∈ spec.args, interpreter.suspects w = true := by
  rw [CommandSpec.validateCommand, if_neg (not_not_intro hallowed), findInlineCodeFlag_of h,
    ← List.find?_isSome]
  cases spec.args.find? interpreter.suspects with
  | some flag => simp
  | none => simp

-- ===== python

theorem cluster_of_taking : ∀ {letters : List Char}, (pythonCluster letters).taking = true →
    'c' ∈ letters ∧ letters.head? ≠ some '-' := by
  intro letters
  induction letters with
  | nil => exact fun h => by cases h
  | cons c rest ih =>
      intro h
      unfold pythonCluster at h
      by_cases hc : c = 'c'
      · rw [hc]
        exact ⟨List.mem_cons_self .., by simp⟩
      · rw [if_neg hc] at h
        by_cases hvalued : c = 'W' ∨ c = 'X'
        · rw [if_pos hvalued] at h
          split at h
          next => cases h
          next => cases h
        · rw [if_neg hvalued] at h
          by_cases hdash : c = '-'
          · rw [if_pos hdash] at h
            split at h
            next => cases h
            next => cases h
          · rw [if_neg hdash] at h
            split at h
            next =>
              refine ⟨List.mem_cons_of_mem c (ih h).1, fun heq => ?_⟩
              exact hdash (Option.some.inj heq)
            next => cases h

theorem isCluster_of_taking {w : PyStr} (h : (pythonRead w).taking = true) : isCluster w = true := by
  unfold pythonRead at h
  split at h
  next => cases h
  next letters hne =>
    obtain ⟨hmem, hdash⟩ := cluster_of_taking h
    cases letters with
    | nil => cases hmem
    | cons c rest =>
        have hc : c ≠ '-' := fun heq => hdash (congrArg some heq)
        simp [isCluster, hc, List.mem_cons.1 hmem]
  next => cases h

theorem exists_suspect_of_python {args : List PyStr} (h : python.takes args = true) :
    ∃ w ∈ args, isCluster w = true := by
  obtain ⟨w, hw, hread⟩ := Grammar.exists_taking h
  exact ⟨w, hw, isCluster_of_taking hread⟩

-- ===== the theorem

theorem refusedAsRun_iff (options : PyStr → NodeOption) (given configured : Option (List PyStr))
    (spec : CommandSpec) (interpreter : Interpreter)
    (hallowed : spec.executable ∈ allowedOf given configured)
    (h : interpreterOf spec.executable = some interpreter) :
    RefusedAsRun options given configured spec interpreter
      ↔ SuspectsOnlyText options interpreter spec.args := by
  unfold RefusedAsRun SuspectsOnlyText
  rw [refused_iff hallowed h]
  split
  next hruns =>
    rw [iff_true_right hruns]
    cases interpreter with
    | python => exact iff_of_true (exists_suspect_of_python hruns) fun heq => by cases heq
    | node => simp [Interpreter.suspects]
  next hruns =>
    rw [iff_false_right hruns]
    simp

/-- A cluster of flags that takes text is refused. -/
theorem refusedAsRun_iff_cluster :
    RefusedAsRun (fun _ => .alone) none none ⟨"python".toList, ["-Ic".toList, "1".toList]⟩ .python
      ↔ SuspectsOnlyText (fun _ => .alone) .python ["-Ic".toList, "1".toList] :=
  refusedAsRun_iff (fun _ => .alone) none none ⟨"python".toList, ["-Ic".toList, "1".toList]⟩ .python
    (by decide) (by decide)

/-- A script's own flag is refused, and two ways to hand node its text are
not. -/
theorem not_refusedAsRun :
    ¬ RefusedAsRun (fun _ => .alone) none none
        ⟨"python".toList, ["manage.py".toList, "-c".toList]⟩ .python
      ∧ ¬ RefusedAsRun (fun _ => .alone) none none ⟨"node".toList, ["-pe".toList, "1".toList]⟩ .node
      ∧ ¬ RefusedAsRun (fun _ => .alone) none none ⟨"node".toList, ["--eval=1".toList]⟩ .node := by
  refine ⟨fun h => ?_, fun h => ?_, fun h => ?_⟩
  · have hruns := h.1 ⟨.inlineFlag "-c".toList "python".toList, by decide⟩
    exact absurd hruns (by decide)
  · obtain ⟨e, he⟩ := h.2 (by decide)
    have hok : (CommandSpec.mk "node".toList ["-pe".toList, "1".toList]).validateCommand none none
        = .ok () := by decide
    rw [hok] at he
    cases he
  · obtain ⟨e, he⟩ := h.2 (by decide)
    have hok : (CommandSpec.mk "node".toList ["--eval=1".toList]).validateCommand none none
        = .ok () := by decide
    rw [hok] at he
    cases he

end Velune.Commands
