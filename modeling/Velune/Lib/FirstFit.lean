/-
First fit: of items in an order, each that fits into the room left is kept,
the others are passed over.

What is kept is within the room and loses the order of none (`keep_sublist`,
`total_keep_le`). It begins the list exactly when nothing behind the first
item passed over fits where that did not (`keep_prefix_iff`); more generally,
nothing is kept behind a part of the list exactly when nothing there fits
what that part leaves (`keep_append`, `keep_eq_nil_iff`).
-/
import Mathlib.Data.List.Perm.Basic

namespace Lib.FirstFit

variable {α : Type*} (size : α → Nat)

def total : List α → Nat
  | [] => 0
  | x :: xs => size x + total xs

def keep : Int → List α → List α
  | _, [] => []
  | room, x :: xs => if size x ≤ room then x :: keep (room - size x) xs else keep room xs

def skip : Int → List α → List α
  | _, [] => []
  | room, x :: xs => if size x ≤ room then skip (room - size x) xs else x :: skip room xs

def left (room : Int) (xs : List α) : Int := room - total size (keep size room xs)

variable {size}

-- ===== totals

@[simp] theorem total_nil : total size [] = 0 := rfl

@[simp] theorem total_cons (x : α) (xs : List α) :
    total size (x :: xs) = size x + total size xs := rfl

@[simp] theorem total_append (xs ys : List α) :
    total size (xs ++ ys) = total size xs + total size ys := by
  induction xs with
  | nil => simp
  | cons x xs ih => simp [ih, Nat.add_assoc]

theorem total_perm {xs ys : List α} (h : xs.Perm ys) : total size xs = total size ys := by
  induction h with
  | nil => rfl
  | cons x _ ih => simp [ih]
  | swap x y xs =>
      simp only [total_cons]
      omega
  | trans _ _ ih₁ ih₂ => exact ih₁.trans ih₂

theorem total_reverse (xs : List α) : total size xs.reverse = total size xs :=
  total_perm (List.reverse_perm xs)

-- ===== kept

theorem keep_cons (room : Int) (x : α) (xs : List α) :
    keep size room (x :: xs)
      = if size x ≤ room then x :: keep size (room - size x) xs else keep size room xs := rfl

theorem skip_cons (room : Int) (x : α) (xs : List α) :
    skip size room (x :: xs)
      = if size x ≤ room then skip size (room - size x) xs else x :: skip size room xs := rfl

theorem keep_sublist : ∀ (xs : List α) (room : Int), (keep size room xs).Sublist xs := by
  intro xs
  induction xs with
  | nil => exact fun _ => List.Sublist.refl _
  | cons x xs ih =>
      intro room
      rw [keep_cons]
      split
      next => exact (ih _).cons_cons x
      next => exact (ih _).cons x

theorem keep_skip_perm : ∀ (xs : List α) (room : Int),
    (keep size room xs ++ skip size room xs).Perm xs := by
  intro xs
  induction xs with
  | nil => exact fun _ => List.Perm.refl _
  | cons x xs ih =>
      intro room
      rw [keep_cons, skip_cons]
      split
      next => exact (ih _).cons x
      next => exact List.perm_middle.trans ((ih _).cons x)

theorem left_nonneg : ∀ (xs : List α) {room : Int}, 0 ≤ room → 0 ≤ left size room xs := by
  intro xs
  induction xs with
  | nil =>
      intro room h
      exact le_of_le_of_eq h (Int.sub_zero room).symm
  | cons x xs ih =>
      intro room h
      unfold left
      rw [keep_cons]
      split
      next hfits =>
        have hrest := @ih (room - size x) (by omega)
        unfold left at hrest
        rw [total_cons]
        omega
      next => exact ih h

theorem total_keep_le_iff (xs : List α) (room : Int) :
    (total size (keep size room xs) : Int) ≤ room ↔ 0 ≤ room := by
  constructor
  · intro h
    omega
  · intro h
    have hleft := @left_nonneg _ size xs _ h
    unfold left at hleft
    omega

theorem keep_eq_self : ∀ {xs : List α} {room : Int},
    (total size xs : Int) ≤ room → keep size room xs = xs := by
  intro xs
  induction xs with
  | nil => exact fun _ => rfl
  | cons x xs ih =>
      intro room h
      rw [total_cons] at h
      rw [keep_cons, if_pos (by omega), ih (by omega)]

theorem size_le_of_mem_keep {x : α} : ∀ {xs : List α} {room : Int}, x ∈ keep size room xs →
    (size x : Int) ≤ room := by
  intro xs
  induction xs with
  | nil => exact fun h => by cases h
  | cons y xs ih =>
      intro room h
      rw [keep_cons] at h
      split at h
      next hfits =>
        rcases List.mem_cons.1 h with rfl | h
        · exact hfits
        · have hx := ih h
          omega
      next => exact ih h

theorem keep_append (xs ys : List α) (room : Int) :
    keep size room (xs ++ ys) = keep size room xs ++ keep size (left size room xs) ys := by
  induction xs generalizing room with
  | nil => exact (congrArg (keep size · ys) (Int.sub_zero room)).symm
  | cons x xs ih =>
      rw [List.cons_append, keep_cons, keep_cons, left, keep_cons]
      split
      next =>
        rw [ih, left, total_cons, List.cons_append]
        congr 2
        congr 1
        omega
      next => exact ih room

theorem skip_append (xs ys : List α) (room : Int) :
    skip size room (xs ++ ys) = skip size room xs ++ skip size (left size room xs) ys := by
  induction xs generalizing room with
  | nil => exact (congrArg (skip size · ys) (Int.sub_zero room)).symm
  | cons x xs ih =>
      rw [List.cons_append, skip_cons, skip_cons, left, keep_cons]
      split
      next =>
        rw [ih, left, total_cons]
        congr 2
        omega
      next =>
        rw [ih, List.cons_append]
        rfl

theorem keep_eq_nil_iff (xs : List α) (room : Int) :
    keep size room xs = [] ↔ ∀ x ∈ xs, room < size x := by
  induction xs with
  | nil => exact iff_of_true rfl fun x hx => by cases hx
  | cons x xs ih =>
      rw [keep_cons]
      split
      next hfits =>
        refine iff_of_false (by simp) fun h => ?_
        have hx := h x (List.mem_cons_self ..)
        omega
      next hfits =>
        rw [ih, List.forall_mem_cons]
        exact ⟨fun h => ⟨by omega, h⟩, fun h => h.2⟩

-- ===== prefixes

theorem exists_first {xs : List α} {room : Int} (hroom : 0 ≤ room)
    (h : room < (total size xs : Int)) :
    ∃ front x back, xs = front ++ x :: back ∧ (total size front : Int) ≤ room
      ∧ room < total size front + size x := by
  induction xs generalizing room with
  | nil =>
      rw [total_nil] at h
      omega
  | cons y xs ih =>
      by_cases hfits : (size y : Int) ≤ room
      · rw [total_cons] at h
        obtain ⟨front, x, back, rfl, hfront, hx⟩ :=
          @ih (room - size y) (by omega) (by omega)
        refine ⟨y :: front, x, back, rfl, ?_, ?_⟩
        · rw [total_cons]
          omega
        · rw [total_cons]
          omega
      · exact ⟨[], y, xs, rfl, by simpa using hroom, by simpa using hfits⟩

theorem keep_at_first {front back : List α} {x : α} {room : Int}
    (hfront : (total size front : Int) ≤ room) (hx : room < total size front + size x) :
    keep size room (front ++ x :: back)
        = front ++ keep size (room - total size front) back
      ∧ skip size room (front ++ x :: back)
        = x :: skip size (room - total size front) back := by
  have hkeep := keep_eq_self hfront
  have hleft : left size room front = room - total size front := by rw [left, hkeep]
  have hskip : skip size room front = [] := by
    have hlen := (@keep_skip_perm _ size front room).length_eq
    rw [hkeep, List.length_append] at hlen
    exact List.length_eq_zero_iff.1 (by omega)
  constructor
  · rw [keep_append, hkeep, hleft, keep_cons, if_neg (by omega)]
  · rw [skip_append, hskip, hleft, skip_cons, if_neg (by omega), List.nil_append]

/-- What is kept begins the list exactly when everything fits, or nothing
behind the first item passed over does. -/
theorem keep_prefix_iff {front back : List α} {x : α} {room : Int}
    (hfront : (total size front : Int) ≤ room) (hx : room < total size front + size x) :
    keep size room (front ++ x :: back) <+: front ++ x :: back
      ↔ ∀ y ∈ back, room < total size front + size y := by
  rw [(keep_at_first hfront hx).1, List.prefix_append_right_inj]
  have hnil := @keep_eq_nil_iff _ size back (room - total size front)
  constructor
  · intro h y hy
    cases hkeep : keep size (room - total size front) back with
    | nil =>
        have hbig := hnil.1 hkeep y hy
        omega
    | cons z zs =>
        rw [hkeep] at h
        -- it would be the one passed over, which is too large
        obtain ⟨rfl, -⟩ := List.cons_prefix_cons.1 h
        have hfits : (size z : Int) ≤ room - total size front :=
          @size_le_of_mem_keep _ _ _ back _ (by rw [hkeep]; exact List.mem_cons_self ..)
        omega
  · intro h
    rw [hnil.2 fun y hy => by have := h y hy; omega]
    exact List.nil_prefix

end Lib.FirstFit
