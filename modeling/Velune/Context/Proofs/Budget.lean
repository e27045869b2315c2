/-
Which windows a budget fits into (`budgets_feasible_iff`).

A split is fair wherever there is something to split (`split_le`). What is
left to split is what a mode takes less a quarter of it, and grows with the
window: below 682 tokens the fixed overheads take more than there is, and a
chat takes 1024 tokens of any window.
-/
import Velune.Context.Budget

namespace Velune.Context

-- ===== the claim

structure Feasible (window : Int) (budget : ContextBudget) : Prop where
  total : budget.totalTokens ≤ window
  retrieval : 0 ≤ budget.retrievalAllocation
  working : 0 ≤ budget.workingMemoryAllocation
  output : 0 ≤ budget.outputReservation
  system : 0 ≤ budget.systemAllocation
  split : budget.retrievalAllocation + budget.workingMemoryAllocation ≤ budget.usableTokens
  usable : 0 ≤ budget.usableTokens

-- ===== the split

theorem clampBias_mem (bias : Rat) : 0 ≤ clampBias bias ∧ clampBias bias ≤ 1 := by
  unfold clampBias
  refine ⟨le_min (by norm_num) (le_max_of_le_left (by norm_num)), ?_⟩
  exact (min_le_left _ _).trans (by norm_num)

theorem truncate_of_nonneg {x : Rat} (h : 0 ≤ x) : 0 ≤ truncate x ∧ (truncate x : Rat) ≤ x := by
  rw [truncate, if_pos h]
  exact ⟨Int.floor_nonneg.2 h, Int.floor_le x⟩

theorem split_le {usable : Int} (h : 0 ≤ usable) (bias : Rat) :
    0 ≤ truncate (usable * clampBias bias) ∧ 0 ≤ truncate (usable * (1 - clampBias bias))
      ∧ truncate (usable * clampBias bias) + truncate (usable * (1 - clampBias bias)) ≤ usable := by
  obtain ⟨hlow, hhigh⟩ := clampBias_mem bias
  have husable : (0 : Rat) ≤ usable := by exact_mod_cast h
  obtain ⟨hr, hr'⟩ := truncate_of_nonneg (mul_nonneg husable hlow)
  obtain ⟨hw, hw'⟩ := truncate_of_nonneg (mul_nonneg husable (sub_nonneg.2 hhigh))
  refine ⟨hr, hw, ?_⟩
  have hsum : ((truncate (usable * clampBias bias) + truncate (usable * (1 - clampBias bias)) : Int)
      : Rat) ≤ usable := by
    push_cast
    linarith
  exact_mod_cast hsum

/-- A budget that splits what it has left is feasible where there is
something left. -/
theorem feasible_budgetOf_iff {window total reserve : Int} (bias : Rat) (hreserve : 0 ≤ reserve)
    (htotal : total ≤ window) :
    Feasible window (budgetOf total reserve (total - reserve - 512) bias)
      ↔ 0 ≤ total - reserve - 512 := by
  have heq : (budgetOf total reserve (total - reserve - 512) bias).usableTokens
      = total - reserve - 512 := by
    show total - 512 - reserve = total - reserve - 512
    omega
  constructor
  · intro h
    have husable := h.usable
    rwa [heq] at husable
  · intro h
    obtain ⟨hr, hw, hsum⟩ := split_le h bias
    exact ⟨htotal, hr, hw, hreserve, by show (0 : Int) ≤ 512; omega, by rwa [heq], by rwa [heq]⟩

-- ===== the totals

theorem totalOf_le (mode : SessionMode) (window : Int) : totalOf mode window ≤ window := by
  cases mode with
  | normal => exact min_le_right _ _
  | optimus => exact min_le_right _ _
  | godly => exact le_refl _

theorem totalOf_mono (mode : SessionMode) {window window' : Int} (h : window ≤ window') :
    totalOf mode window ≤ totalOf mode window' := by
  cases mode with
  | normal => exact min_le_min_left _ h
  | optimus => exact min_le_min_left _ h
  | godly => exact h

theorem le_totalOf_iff (mode : SessionMode) {n window : Int} (hn : n ≤ 4096) :
    n ≤ totalOf mode window ↔ n ≤ window := by
  cases mode <;> simp only [totalOf, le_min_iff] <;> omega

theorem usableTokens_fromMode (mode : SessionMode) (window : Int) (bias : Rat) :
    (fromMode mode window bias).usableTokens
      = totalOf mode window - min 2048 (totalOf mode window / 4) - 512 := by
  show totalOf mode window - 512 - min 2048 (totalOf mode window / 4) = _
  omega

theorem feasible_fromMode_iff (mode : SessionMode) (window : Int) (bias : Rat) :
    Feasible window (fromMode mode window bias) ↔ 682 ≤ window := by
  have htotal := totalOf_le mode window
  rw [← le_totalOf_iff mode (by omega : (682 : Int) ≤ 4096)]
  constructor
  · intro h
    have husable := h.usable
    rw [usableTokens_fromMode] at husable
    omega
  · intro h
    unfold fromMode
    rw [feasible_budgetOf_iff bias (by omega) htotal]
    omega

/-- The special case for tiny windows is never taken: a chat's window is not
tiny. -/
theorem forChat_eq (mode : SessionMode) (window : Int) (bias : Rat) :
    forChat mode window bias
      = budgetOf (totalOf mode (chatWindow window))
          (min 4096 (max 256 (totalOf mode (chatWindow window) / 4)))
          (totalOf mode (chatWindow window)
            - min 4096 (max 256 (totalOf mode (chatWindow window) / 4)) - 512) bias := by
  have hwindow : 1024 ≤ totalOf mode (chatWindow window) :=
    (le_totalOf_iff mode (by omega)).2 (le_max_left _ _)
  unfold forChat
  rw [if_neg (by omega)]

theorem usableTokens_forChat (mode : SessionMode) (window : Int) (bias : Rat) :
    (forChat mode window bias).usableTokens
      = totalOf mode (chatWindow window)
          - min 4096 (max 256 (totalOf mode (chatWindow window) / 4)) - 512 := by
  rw [forChat_eq]
  show totalOf mode (chatWindow window) - 512
    - min 4096 (max 256 (totalOf mode (chatWindow window) / 4)) = _
  omega

theorem chatWindow_le_iff {window : Int} (hwindow : 1 ≤ window) :
    chatWindow window ≤ window ↔ 1024 ≤ window := by
  unfold chatWindow
  rw [if_neg (by omega), max_le_iff]
  omega

theorem feasible_forChat_iff (mode : SessionMode) {window : Int} (hwindow : 1 ≤ window)
    (bias : Rat) : Feasible window (forChat mode window bias) ↔ 1024 ≤ window := by
  have htotal : 1024 ≤ totalOf mode (chatWindow window) :=
    (le_totalOf_iff mode (by omega)).2 (le_max_left _ _)
  constructor
  · intro h
    have hle := h.total
    rw [forChat_eq] at hle
    exact htotal.trans hle
  · intro h
    have hle := (totalOf_le mode (chatWindow window)).trans ((chatWindow_le_iff hwindow).2 h)
    rw [forChat_eq, feasible_budgetOf_iff bias (by omega) hle]
    omega

-- ===== the theorem

def Growing (make : Int → ContextBudget) (window : Int) : Prop :=
  ∀ window', window ≤ window' → (make window).usableTokens ≤ (make window').usableTokens

theorem growing_fromMode (mode : SessionMode) (window : Int) (bias : Rat) :
    Growing (fun window => fromMode mode window bias) window := by
  intro window' h
  have htotal := totalOf_mono mode h
  simp only [usableTokens_fromMode]
  omega

theorem growing_forChat (mode : SessionMode) {window : Int} (hwindow : 1 ≤ window) (bias : Rat) :
    Growing (fun window => forChat mode window bias) window := by
  intro window' h
  have hchat : chatWindow window ≤ chatWindow window' := by
    unfold chatWindow
    rw [if_neg (by omega), if_neg (by omega)]
    exact max_le_max_left _ h
  have htotal := totalOf_mono mode hchat
  simp only [usableTokens_forChat]
  omega

/-- A window serves both budgets exactly when it has 1024 tokens, and the
first of them when it has 682; what they leave grows with it. -/
theorem budgets_feasible_iff (mode : SessionMode) (window : Int) (hwindow : 1 ≤ window)
    (bias : Rat) :
    ((Feasible window (fromMode mode window bias) ∧ Feasible window (forChat mode window bias)
        ∧ Growing (fun window => fromMode mode window bias) window
        ∧ Growing (fun window => forChat mode window bias) window) ↔ 1024 ≤ window)
      ∧ (Feasible window (fromMode mode window bias) ↔ 682 ≤ window) := by
  refine ⟨?_, feasible_fromMode_iff mode window bias⟩
  rw [feasible_fromMode_iff, feasible_forChat_iff mode hwindow]
  constructor
  · intro h
    exact h.2.1
  · intro h
    exact ⟨by omega, h, growing_fromMode mode window bias, growing_forChat mode hwindow bias⟩

theorem budgets_feasible_iff_local :
    Feasible 8192 (fromMode .normal 8192 (11 / 20)) ∧ Feasible 8192 (forChat .normal 8192 (11 / 20)) := by
  have h := (budgets_feasible_iff .normal 8192 (by decide) (11 / 20)).1.2 (by decide)
  exact ⟨h.1, h.2.1⟩

/-- A window of 512 tokens: less than nothing is left of it, and a chat
takes twice as much. -/
theorem not_feasible_small :
    (fromMode .normal 512 (11 / 20)).usableTokens = -128
      ∧ (fromMode .normal 512 (11 / 20)).retrievalAllocation = -70
      ∧ (forChat .normal 512 (11 / 20)).totalTokens = 1024
      ∧ ¬ Feasible 512 (fromMode .normal 512 (11 / 20))
      ∧ ¬ Feasible 512 (forChat .normal 512 (11 / 20)) := by
  have husable : (fromMode .normal 512 (11 / 20)).usableTokens = -128 := by decide +kernel
  have htotal : (forChat .normal 512 (11 / 20)).totalTokens = 1024 := by decide +kernel
  refine ⟨husable, by decide +kernel, htotal, fun h => ?_, fun h => ?_⟩
  · exact absurd h.usable (by rw [husable]; decide)
  · exact absurd h.total (by rw [htotal]; decide)

end Velune.Context
