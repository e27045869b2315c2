/-
Entries that are known by their place in a list, which only grows: what is
found at a place after an entry was set or added.
-/
import Mathlib.Logic.Basic

namespace Lib.Numbered

variable {α : Type*} {l : List α} {i j : Nat} {x y z : α}

theorem set_cases (h : (l.set i x)[j]? = some y) :
    (j = i ∧ y = x) ∨ (j ≠ i ∧ l[j]? = some y) := by
  rcases eq_or_ne j i with rfl | hne
  · have hlt : j < (l.set j x).length := (List.getElem?_eq_some_iff.1 h).1
    rw [List.length_set] at hlt
    rw [List.getElem?_set_self hlt] at h
    exact Or.inl ⟨rfl, (Option.some.inj h).symm⟩
  · rw [List.getElem?_set_ne fun heq => hne heq.symm] at h
    exact Or.inr ⟨hne, h⟩

theorem set_self (h : l[i]? = some y) : (l.set i x)[i]? = some x :=
  List.getElem?_set_self (List.getElem?_eq_some_iff.1 h).1

theorem set_other (hne : j ≠ i) (h : l[j]? = some y) : (l.set i x)[j]? = some y :=
  (List.getElem?_set_ne fun heq => hne heq.symm).trans h

theorem set_same (h : l[i]? = some x) : l.set i x = l := by
  refine List.ext_getElem? fun j => ?_
  rcases eq_or_ne j i with rfl | hne
  · exact (set_self h).trans h.symm
  · exact List.getElem?_set_ne fun heq => hne heq.symm

theorem map_set_same {β : Type*} {f : α → β} (h : l[i]? = some x) (hf : f y = f x) :
    (l.set i y).map f = l.map f := by
  rw [List.map_set, hf]
  exact set_same (by rw [List.getElem?_map, h]; rfl)

theorem mem_set (h : z ∈ l.set i x) : z = x ∨ z ∈ l := (List.mem_or_eq_of_mem_set h).symm

theorem modify_self {f : α → α} (h : l[i]? = some x) : (l.modify i f)[i]? = some (f x) := by
  rw [List.getElem?_modify, h]
  simp

theorem modify_other {f : α → α} (hne : j ≠ i) : (l.modify i f)[j]? = l[j]? := by
  rw [List.getElem?_modify]
  cases l[j]? with
  | none => rfl
  | some x =>
      show some (if i = j then f x else x) = some x
      rw [if_neg fun heq => hne heq.symm]

theorem modify_cases {f : α → α} (h : (l.modify i f)[j]? = some y) :
    ∃ x, l[j]? = some x ∧ ((j = i ∧ y = f x) ∨ (j ≠ i ∧ y = x)) := by
  rcases eq_or_ne j i with rfl | hne
  · cases hx : l[j]? with
    | none =>
        rw [List.getElem?_modify, hx] at h
        cases h
    | some x =>
        rw [modify_self hx] at h
        exact ⟨x, rfl, Or.inl ⟨rfl, (Option.some.inj h).symm⟩⟩
  · rw [modify_other hne] at h
    exact ⟨y, h, Or.inr ⟨hne, rfl⟩⟩

theorem mem_modify {f : α → α} (h : z ∈ l.modify i f) : (∃ x ∈ l, z = f x) ∨ z ∈ l := by
  obtain ⟨j, hj⟩ := List.mem_iff_getElem?.1 h
  obtain ⟨x, hx, ⟨-, rfl⟩ | ⟨-, rfl⟩⟩ := modify_cases hj
  · exact Or.inl ⟨x, List.mem_of_getElem? hx, rfl⟩
  · exact Or.inr (List.mem_of_getElem? hx)

theorem concat_cases (h : (l ++ [x])[j]? = some y) : (j = l.length ∧ y = x) ∨ l[j]? = some y := by
  rcases Nat.lt_or_ge j l.length with hlt | hge
  · rw [List.getElem?_append_left hlt] at h
    exact Or.inr h
  · rw [List.getElem?_append_right hge] at h
    obtain ⟨hlt, heq⟩ := List.getElem?_eq_some_iff.1 h
    have hzero : j - l.length = 0 := Nat.lt_one_iff.1 hlt
    have hj : j = l.length := Nat.le_antisymm (Nat.sub_eq_zero_iff_le.1 hzero) hge
    subst hj
    rw [← heq]
    simp

theorem concat_last : (l ++ [x])[l.length]? = some x := by
  rw [List.getElem?_append_right (Nat.le_refl _), Nat.sub_self]
  rfl

theorem concat_old (h : l[j]? = some y) : (l ++ [x])[j]? = some y := by
  rw [List.getElem?_append_left (List.getElem?_eq_some_iff.1 h).1]
  exact h

end Lib.Numbered
