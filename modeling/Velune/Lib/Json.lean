/-
JSON values as a scripting language's parser returns them: whole
numbers apart from numbers with a fraction or an exponent, and objects
as their fields in order.

Two equalities live on them. `same` is JSON's: numbers by their value,
objects by their fields in any order, booleans apart from numbers.
`pyEq` is the language's own, in which a truth value is the number one
or zero. They are one recursion over two readings of a number, and
differ on nothing else.
-/
import Mathlib.Data.Rat.Defs

namespace Lib

/-- A JSON value. A field's name stands once in an object; `get?` reads
the first, should it stand there twice. -/
inductive Json
  | null
  | bool (b : Bool)
  | int (n : Int)
  | float (q : Rat)
  | str (s : List Char)
  | arr (items : List Json)
  | obj (fields : List (List Char × Json))

namespace Json

-- ===== reading

def lookup : List (List Char × Json) → List Char → Option Json
  | [], _ => none
  | (name, value) :: rest, key => if name = key then some value else lookup rest key

def get? : Json → String → Option Json
  | .obj fields, key => lookup fields key.toList
  | _, _ => none

theorem lookup_mem : ∀ {fields : List (List Char × Json)} {key : List Char} {value : Json},
    lookup fields key = some value → (key, value) ∈ fields
  | (name, w) :: rest, key, value, h => by
      by_cases hname : name = key
      · rw [lookup, if_pos hname] at h
        cases h
        exact hname ▸ List.mem_cons_self
      · rw [lookup, if_neg hname] at h
        exact List.mem_cons_of_mem _ (lookup_mem h)

theorem lookup_isSome : ∀ {fields : List (List Char × Json)} {key : List Char},
    (lookup fields key).isSome = true ↔ ∃ value, (key, value) ∈ fields
  | [], key => by simp [lookup]
  | (name, w) :: rest, key => by
      by_cases hname : name = key
      · subst hname
        simp [lookup]
      · have hne : ¬key = name := fun h => hname h.symm
        simp [lookup, hname, hne, lookup_isSome]

def number? : Json → Option Rat
  | .int n => some n
  | .float q => some q
  | _ => none

def ofBool (b : Bool) : Rat := if b then 1 else 0

/-- A number as the language's arithmetic takes it: a truth value is one
or zero. -/
def pyNumber? : Json → Option Rat
  | .bool b => some (ofBool b)
  | value => value.number?

/-- Whether the language gives the value a hash: a list and a dictionary
have none. -/
def hashable : Json → Bool
  | .arr _ | .obj _ => false
  | _ => true

def count? : Json → Option Nat
  | .int n => if 0 ≤ n then some n.toNat else none
  | _ => none

theorem count?_number? {value : Json} {n : Nat} (h : value.count? = some n) :
    value.number? = some (n : Rat) := by
  cases value with
  | int k =>
      by_cases hk : 0 ≤ k
      · simp only [count?, if_pos hk, Option.some.injEq] at h
        have hcast : (k : Rat) = ((k.toNat : Int) : Rat) := by rw [Int.toNat_of_nonneg hk]
        rw [number?, hcast, h]
        rfl
      · simp [count?, hk] at h
  | _ => cases h

theorem pyNumber?_of_number? {value : Json} {q : Rat} (h : value.number? = some q) :
    value.pyNumber? = some q := by
  cases value with
  | bool b => cases h
  | _ => exact h

-- ===== equality

mutual

def eqBy (num : Json → Option Rat) : Json → Json → Bool
  | .null, .null => true
  | .bool a, .bool b => a == b
  | .str s, .str t => s == t
  | .arr xs, .arr ys => eqItems num xs ys
  | .obj fs, .obj gs => fs.length == gs.length && eqFields num fs gs
  | v, w =>
      match num v, num w with
      | some p, some q => p == q
      | _, _ => false

def eqItems (num : Json → Option Rat) : List Json → List Json → Bool
  | [], [] => true
  | x :: xs, y :: ys => eqBy num x y && eqItems num xs ys
  | _, _ => false

def eqFields (num : Json → Option Rat) :
    List (List Char × Json) → List (List Char × Json) → Bool
  | [], _ => true
  | (name, x) :: rest, gs =>
      (match lookup gs name with
        | some y => eqBy num x y
        | none => false) && eqFields num rest gs

end

def same : Json → Json → Bool := eqBy number?

/-- The language's `==`. -/
def pyEq : Json → Json → Bool := eqBy pyNumber?

example : pyEq (.arr [.bool true]) (.arr [.int 1]) = true := by decide

example : same (.arr [.bool true]) (.arr [.int 1]) = false := by decide

theorem eqBy_str {num : Json → Option Rat} (hnum : ∀ s, num (.str s) = none) {s : List Char}
    {w : Json} : eqBy num (.str s) w = true ↔ w = .str s := by
  cases w with
  | str t =>
      change (s == t) = true ↔ _
      rw [beq_iff_eq, str.injEq]
      exact eq_comm
  | _ => simp [eqBy, hnum]

theorem same_str {s : List Char} {w : Json} : same (.str s) w = true ↔ w = .str s :=
  eqBy_str fun _ => rfl

theorem pyEq_str {s : List Char} {w : Json} : pyEq (.str s) w = true ↔ w = .str s :=
  eqBy_str fun _ => rfl

theorem pyEq_of_str {w : Json} {s : List Char} : pyEq w (.str s) = true ↔ w = .str s := by
  cases w <;> simp [pyEq, eqBy, pyNumber?, number?]

theorem same_bool {b : Bool} {w : Json} : same (.bool b) w = true ↔ w = .bool b := by
  cases w with
  | bool c => simpa [same, eqBy] using (eq_comm : b = c ↔ c = b)
  | _ => simp [same, eqBy, number?]

theorem pyEq_bool {b : Bool} {w : Json} :
    pyEq (.bool b) w = true ↔ w = .bool b ∨ w.number? = some (ofBool b) := by
  cases w with
  | bool c => simpa [pyEq, eqBy, number?] using (eq_comm : b = c ↔ c = b)
  | int n => simpa [pyEq, eqBy, pyNumber?, number?] using eq_comm
  | float q => simpa [pyEq, eqBy, pyNumber?, number?] using eq_comm
  | _ => simp [pyEq, eqBy, pyNumber?, number?]

theorem eqBy_number {num : Json → Option Rat} {v w : Json} {q : Rat} (hv : v.number? = some q)
    (hnum : num v = some q) : eqBy num v w = true ↔ num w = some q := by
  have hby : eqBy num v w = (match num v, num w with
      | some p, some q => p == q
      | _, _ => false) := by
    cases v with
    | int n => cases w <;> rfl
    | float p => cases w <;> rfl
    | _ => cases hv
  rw [hby, hnum]
  cases num w with
  | none => simp
  | some p => simpa using eq_comm

theorem same_number {v w : Json} {q : Rat} (hv : v.number? = some q) :
    same v w = true ↔ w.number? = some q :=
  eqBy_number hv hv

/-- A number equals the numbers of its value, and a truth value read as
it. -/
theorem pyEq_number {v w : Json} {q : Rat} (hv : v.number? = some q) :
    pyEq v w = true ↔ w.number? = some q ∨ ∃ b, w = .bool b ∧ ofBool b = q := by
  refine (eqBy_number hv (pyNumber?_of_number? hv)).trans ?_
  cases w <;> simp [pyNumber?, number?]

end Json

end Lib
