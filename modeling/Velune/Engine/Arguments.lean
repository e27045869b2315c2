/-
The canonical text of a tool call's arguments (`canonical_arguments` in
`orchestration/engine/toolschema.py`, `call_digest` in `toolvalidate.py`).

A value is a reference that is looked at, one level at a time: what it holds
are references again, so a list may hold itself. Numbers with a fraction are
left out. The hash is not computed; what it is taken of is `callPreimage`.
-/
import Velune.Engine.ToolSchema
import Velune.Lib.JsonSort
import Velune.Lib.Utf8

namespace Velune.Engine.Arguments

open Lib Lib.JsonText

-- ===== values

inductive Node (ρ : Type)
  | none
  | bool (b : Bool)
  | int (n : Int)
  | str (s : Str)
  | list (items : List ρ)
  /-- In the order of insertion; a key that is no string is `none`. -/
  | dict (entries : List (Option Str × ρ))
  /-- Any other type. -/
  | other (kind : String)

/-- The values of a program, with no key of a dictionary there twice. -/
structure Heap (ρ : Type) where
  look : ρ → Node ρ
  distinct : ∀ r entries, look r = .dict entries → (entries.filterMap Prod.fst).Nodup

-- ===== checks

def MAX_DEPTH : Nat := 6

def MAX_NODES : Nat := 256

def MAX_KEYS : Nat := 32

def MAX_ARRAY_ITEMS : Nat := 64

def MAX_STRING_CHARS : Nat := 4096

def MAX_ARGUMENT_BYTES : Nat := 16 * 1024

def MAX_SAFE_INT : Nat := 2 ^ 53

inductive Kind
  | notJson | tooLarge | tooDeep
  deriving DecidableEq, Repr

structure ArgumentError where
  kind : Kind
  message : String
  deriving DecidableEq, Repr

def chars? : Str → Option PyStr
  | [] => some []
  | .char c :: rest => (chars? rest).map (c :: ·)
  | _ :: _ => none

/-- `_KEY.match`. -/
def matchesKey (key : Str) : Bool :=
  match chars? key with
  | some text => ToolSchema.isKey text
  | none => false

def checkString (value : Str) : Except ArgumentError Unit :=
  if MAX_STRING_CHARS < value.length then
    .error ⟨.tooLarge, s!"a string is longer than {MAX_STRING_CHARS} characters"⟩
  else if CodePoint.char (Char.ofNat 0) ∈ value then
    .error ⟨.notJson, "a string contains a NUL character"⟩
  else if chars? value = none then .error ⟨.notJson, "a string is not valid Unicode"⟩
  else .ok ()

section Walk

variable {ρ : Type} (heap : Heap ρ)

/-- The loop over the stack, whose top is first; so many values may still be
seen. -/
def walk : Nat → List (ρ × Nat) → Except ArgumentError Unit
  | _, [] => .ok ()
  | 0, _ :: _ => .error ⟨.tooLarge, s!"arguments have more than {MAX_NODES} values"⟩
  | left + 1, (value, depth) :: stack =>
      if MAX_DEPTH < depth then
        .error ⟨.tooDeep, s!"arguments nest deeper than {MAX_DEPTH} levels"⟩
      else
        match heap.look value with
        | .dict entries =>
            if MAX_KEYS < entries.length then
              .error ⟨.tooLarge, s!"an object has more than {MAX_KEYS} keys"⟩
            else if entries.all fun e => e.1.any matchesKey then
              walk left ((entries.map fun e => (e.2, depth + 1)).reverse ++ stack)
            else .error ⟨.notJson, "argument names must be simple identifiers"⟩
        | .list items =>
            if MAX_ARRAY_ITEMS < items.length then
              .error ⟨.tooLarge, s!"a list has more than {MAX_ARRAY_ITEMS} items"⟩
            else walk left ((items.map fun item => (item, depth + 1)).reverse ++ stack)
        | .str s =>
            match checkString s with
            | .error e => .error e
            | .ok () => walk left stack
        | .bool _ => walk left stack
        | .none => walk left stack
        | .int n =>
            if MAX_SAFE_INT < n.natAbs then
              .error ⟨.notJson, "an integer is outside the safe range"⟩
            else walk left stack
        | .other kind => .error ⟨.notJson, s!"a {kind} value is not JSON-compatible"⟩

/-- The value as a tree, if it is one of at most so many levels. -/
def Heap.tree : Nat → ρ → Option Value
  | 0, _ => none
  | levels + 1, r =>
      match heap.look r with
      | .none => some .null
      | .bool b => some (.bool b)
      | .int n => some (.int n)
      | .str s => some (.str s)
      | .list items => (items.mapM (Heap.tree levels)).map .list
      | .dict entries =>
          (entries.mapM fun (e : Option Str × ρ) => e.1.bind fun key =>
            (Heap.tree levels e.2).map fun v => (key, v)).map .dict
      | .other _ => none

/-- `canonical_arguments`. What `json.dumps` does with a value that is no
tree never shows: the walk has been there before. -/
def canonicalArguments (root : ρ) : Except ArgumentError PyStr :=
  match heap.look root with
  | .dict _ =>
      match walk heap MAX_NODES [(root, 1)] with
      | .error e => .error e
      | .ok () =>
          match heap.tree MAX_DEPTH root with
          | none => .error ⟨.notJson, "Circular reference detected"⟩
          | some value =>
              let text := dumps compact value
              if MAX_ARGUMENT_BYTES < (Utf8.encode text).length then
                .error ⟨.tooLarge, s!"arguments exceed {MAX_ARGUMENT_BYTES} bytes"⟩
              else .ok text
  | _ => .error ⟨.notJson, "arguments must be a JSON object"⟩

end Walk

/-- What `call_digest` hashes. -/
def callPreimage (name canonicalJson : PyStr) : PyStr :=
  dumps compact (.dict [(ofText "tool".toList, .str (ofText name)),
    (ofText "arguments".toList, .str (ofText canonicalJson))])

end Velune.Engine.Arguments
