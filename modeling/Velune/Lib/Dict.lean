/-
Dictionaries as lookup functions: `d k` is the value under key `k`,
`none` when the key is absent. Order and size are not observable, which
is all a program sees of a dictionary it only looks up, inserts into
and deletes from; in exchange two dictionaries with the same lookups
are equal, so "nothing changed" is an equation.
-/
import Mathlib.Logic.Function.Basic

namespace Lib

variable {κ ν : Type*}

/-- A dictionary from `κ` to `ν`. -/
abbrev Dict (κ ν : Type*) := κ → Option ν

namespace Dict

def empty : Dict κ ν := fun _ => none

@[simp] theorem empty_apply (k : κ) : (empty : Dict κ ν) k = none := rfl

/-- A dictionary that remembers values of a function: what it holds is
what the function gives. -/
def Remembers (d : Dict κ ν) (f : κ → ν) : Prop := ∀ k v, d k = some v → v = f k

theorem remembers_empty (f : κ → ν) : Remembers empty f := fun _ _ h => by cases h

variable [DecidableEq κ]

def insert (d : Dict κ ν) (k : κ) (v : ν) : Dict κ ν := fun j => if j = k then some v else d j

def erase (d : Dict κ ν) (k : κ) : Dict κ ν := fun j => if j = k then none else d j

@[simp] theorem insert_self (d : Dict κ ν) (k : κ) (v : ν) : d.insert k v k = some v :=
  if_pos rfl

theorem insert_of_ne (d : Dict κ ν) {j k : κ} (v : ν) (h : j ≠ k) : d.insert k v j = d j :=
  if_neg h

@[simp] theorem erase_self (d : Dict κ ν) (k : κ) : d.erase k k = none := if_pos rfl

theorem erase_of_ne (d : Dict κ ν) {j k : κ} (h : j ≠ k) : d.erase k j = d j := if_neg h

/-- What a lookup finds after an insertion was there before, or is the
inserted value. -/
theorem insert_eq_some {d : Dict κ ν} {j k : κ} {v w : ν} (h : d.insert k v j = some w) :
    (j = k ∧ w = v) ∨ (j ≠ k ∧ d j = some w) := by
  by_cases hjk : j = k
  · subst hjk
    rw [insert_self] at h
    exact Or.inl ⟨rfl, (Option.some.inj h).symm⟩
  · rw [insert_of_ne d v hjk] at h
    exact Or.inr ⟨hjk, h⟩

theorem Remembers.insert {d : Dict κ ν} {f : κ → ν} (h : Remembers d f) (k : κ) :
    Remembers (d.insert k (f k)) f := by
  intro j v hj
  rcases insert_eq_some hj with ⟨rfl, rfl⟩ | ⟨-, hj⟩
  · rfl
  · exact h j v hj

/-- What a lookup finds after a deletion was there before, under another
key. -/
theorem erase_eq_some {d : Dict κ ν} {j k : κ} {w : ν} (h : d.erase k j = some w) :
    j ≠ k ∧ d j = some w := by
  by_cases hjk : j = k
  · subst hjk
    rw [erase_self] at h
    cases h
  · rw [erase_of_ne d hjk] at h
    exact ⟨hjk, h⟩

theorem erase_of_none {d : Dict κ ν} {k : κ} (h : d k = none) : d.erase k = d := by
  funext j
  by_cases hjk : j = k
  · rw [hjk, erase_self, h]
  · exact erase_of_ne d hjk

@[simp] theorem erase_insert (d : Dict κ ν) (k : κ) (v : ν) :
    (d.insert k v).erase k = d.erase k := by
  funext j
  by_cases hjk : j = k
  · rw [hjk, erase_self, erase_self]
  · rw [erase_of_ne _ hjk, erase_of_ne _ hjk, insert_of_ne d v hjk]

@[simp] theorem insert_insert (d : Dict κ ν) (k : κ) (v w : ν) :
    (d.insert k v).insert k w = d.insert k w := by
  funext j
  by_cases hjk : j = k
  · rw [hjk, insert_self, insert_self]
  · rw [insert_of_ne _ w hjk, insert_of_ne _ w hjk, insert_of_ne d v hjk]

end Dict

end Lib
