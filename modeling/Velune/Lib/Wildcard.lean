/-
Patterns of single items and free runs, over any kind of item: what it
means that a list is split by a pattern, and what a pattern in front of
another can be told apart from (`splits_block`).
-/
import Mathlib.Data.List.Forall2

namespace Lib.Wildcard

variable {α : Type}

/-- The list is one run for each `none`, of any length, and one item for
each predicate, in order. -/
def Splits : List (Option (α → Bool)) → List α → Prop
  | [], xs => xs = []
  | none :: items, xs => ∃ run rest, xs = run ++ rest ∧ Splits items rest
  | some p :: items, xs => ∃ x rest, xs = x :: rest ∧ p x = true ∧ Splits items rest

def Walks (block : List (Option (α → Bool))) (xs : List α) : Prop :=
  List.Forall₂ (fun item x => ∃ p, item = some p ∧ p x = true) block xs

variable {block items : List (Option (α → Bool))} {xs ys rest : List α} {p : α → Bool} {x : α}

theorem Walks.concat (h : Walks block xs) (hp : p x = true) :
    Walks (block ++ [some p]) (xs ++ [x]) :=
  List.rel_append h (List.Forall₂.cons ⟨p, rfl, hp⟩ List.Forall₂.nil)

theorem splits_free : Splits (none :: items) xs ↔ ∃ n, n ≤ xs.length ∧ Splits items (xs.drop n) := by
  constructor
  · intro ⟨run, rest, hxs, h⟩
    refine ⟨run.length, by simp [hxs], ?_⟩
    rw [hxs, List.drop_left]
    exact h
  · intro ⟨n, _, h⟩
    exact ⟨xs.take n, xs.drop n, (List.take_append_drop n xs).symm, h⟩

theorem splits_nil : Splits items ([] : List α) ↔ ∀ item ∈ items, item = none := by
  induction items with
  | nil => exact iff_of_true rfl fun item hitem => absurd hitem List.not_mem_nil
  | cons item items ih =>
      cases item with
      | none =>
          rw [splits_free, List.forall_mem_cons]
          constructor
          · intro ⟨n, _, h⟩
            rw [List.drop_nil] at h
            exact ⟨rfl, ih.1 h⟩
          · intro ⟨_, h⟩
            exact ⟨0, Nat.le_refl 0, ih.2 h⟩
      | some p =>
          refine iff_of_false ?_ fun h => ?_
          · intro ⟨x, rest, hnil, _⟩
            cases hnil
          · have hnone := h (some p) List.mem_cons_self
            cases hnone

theorem splits_block (h : Walks block xs) : Splits (block ++ items) (xs ++ rest) ↔ Splits items rest := by
  induction h with
  | nil => exact Iff.rfl
  | cons hitem htail ih =>
      obtain ⟨p, rfl, hp⟩ := hitem
      refine Iff.trans ?_ ih
      constructor
      · intro ⟨y, ys, heq, _, hrest⟩
        cases heq
        exact hrest
      · intro hrest
        exact ⟨_, _, rfl, hp, hrest⟩

theorem splits_predicates (h : Walks block xs) (hsplits : Splits (block ++ items) ys) :
    ∃ taken rest, ys = taken ++ rest ∧ taken.length = xs.length ∧ Splits items rest := by
  induction h generalizing ys with
  | nil => exact ⟨[], ys, rfl, rfl, hsplits⟩
  | cons hitem htail ih =>
      obtain ⟨p, rfl, hp⟩ := hitem
      obtain ⟨y, tail, rfl, _, htail⟩ := hsplits
      obtain ⟨taken, rest, rfl, hlength, hrest⟩ := ih htail
      exact ⟨y :: taken, rest, rfl, congrArg (· + 1) hlength, hrest⟩

/-- Where an item stands that does not accept the next element, nothing
is split. -/
theorem not_splits_rejected (h : p x = false) : ¬Splits (some p :: items) (x :: rest) := by
  intro ⟨y, ys, heq, hy, _⟩
  cases heq
  rw [h] at hy
  cases hy

end Lib.Wildcard
