/-
A counting semaphore and the parties that queue at it, as plain data:
the semaphore's value, a list of parties, and a test that says of a party
whether it holds a permit.

- `Gate`: what one step of a party does to the value, `none` where it
  would have to wait;
- `Booked`: the value and the permits held make up the `n` there are.
  A step keeps it when what it does to the value is what it does to the
  party (`Fits`); a party that joins holds no permit;
- `Booked.countP_le`: where each party has at most one item of a kind
  and only while it holds a permit, there are at most `n` of them.
-/
import Mathlib.Order.Basic
import Mathlib.Data.List.Basic

namespace Lib

variable {α β : Type*}

/-- What a step does at the semaphore: nothing, take a permit, give one
back, or both at once. -/
inductive Gate
  | keep
  | take
  | give
  | pass
  deriving DecidableEq, Repr

/-- The value after the step; a permit is taken only while one is free. -/
def Gate.apply : Gate → Nat → Option Nat
  | .keep, value => some value
  | .take, 0 => none
  | .take, value + 1 => some value
  | .give, value => some (value + 1)
  | .pass, 0 => none
  | .pass, value + 1 => some (value + 1)

/-- What the step does at the semaphore is what it does to its party. -/
def Gate.Fits (before after : Bool) : Gate → Prop
  | .keep => after = before
  | .take => before = false ∧ after = true
  | .give => before = true ∧ after = false
  | .pass => before = false ∧ after = false

/-- `value` permits are free and the parties hold the rest of `n`. -/
def Booked (holds : α → Bool) (n value : Nat) (parties : List α) : Prop :=
  value + parties.countP holds = n

namespace Booked

variable {holds : α → Bool} {n value : Nat} {parties : List α}

theorem join (h : Booked holds n value parties) {x : α} (hx : holds x = false) :
    Booked holds n value (parties ++ [x]) := by
  unfold Booked at h ⊢
  rw [List.countP_append, List.countP_singleton, hx]
  exact h

theorem step (h : Booked holds n value parties) {i : Nat} {x y : α} {gate : Gate} {value' : Nat}
    (hx : parties[i]? = some x) (hfits : gate.Fits (holds x) (holds y))
    (hvalue : gate.apply value = some value') : Booked holds n value' (parties.set i y) := by
  obtain ⟨hlt, hget⟩ := List.getElem?_eq_some_iff.1 hx
  have hpos : holds x = true → 0 < parties.countP holds := fun hh =>
    List.countP_pos_iff.2 ⟨x, List.mem_of_getElem? hx, hh⟩
  unfold Booked at h ⊢
  rw [List.countP_set hlt, hget]
  cases gate with
  | keep =>
      have hsame : holds y = holds x := hfits
      cases hvalue
      rw [hsame]
      cases hh : holds x with
      | false => simpa using h
      | true =>
          have := hpos hh
          simp only [if_true]
          omega
  | take =>
      obtain ⟨hfree, hheld⟩ := hfits
      cases value with
      | zero => cases hvalue
      | succ value =>
          cases hvalue
          simp only [hfree, hheld, Bool.false_eq_true, if_false, if_true]
          omega
  | give =>
      obtain ⟨hheld, hfree⟩ := hfits
      have := hpos hheld
      cases hvalue
      simp only [hfree, hheld, Bool.false_eq_true, if_false, if_true]
      omega
  | pass =>
      obtain ⟨hfree, hfree'⟩ := hfits
      cases value with
      | zero => cases hvalue
      | succ value =>
          cases hvalue
          simp only [hfree, hfree', Bool.false_eq_true, if_false]
          omega

theorem held_le (h : Booked holds n value parties) : parties.countP holds ≤ n := by
  unfold Booked at h
  omega

/-- What the parties may have one of each, and only with a permit, there
are at most `n` of. -/
theorem countP_le (h : Booked holds n value parties) {items : α → List β} {live : β → Bool}
    (hone : ∀ x ∈ parties, (items x).countP live ≤ (holds x).toNat) :
    (parties.flatMap items).countP live ≤ n := by
  refine Nat.le_trans ?_ h.held_le
  clear h
  induction parties with
  | nil => exact Nat.le_refl 0
  | cons x parties ih =>
      have hx := hone x (List.mem_cons_self ..)
      have hrest := ih fun y hy => hone y (List.mem_cons_of_mem x hy)
      rw [List.flatMap_cons, List.countP_append, List.countP_cons]
      cases hh : holds x with
      | false =>
          rw [hh] at hx
          simp only [Bool.false_eq_true, if_false, Bool.toNat_false] at hx ⊢
          omega
      | true =>
          rw [hh] at hx
          simp only [if_true, Bool.toNat_true] at hx ⊢
          omega

end Booked

end Lib
