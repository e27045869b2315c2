/-
The OpenAI wire helpers of the adapters (`providers/adapters/_toolcalls.py`):
tool calls read from a whole message and put together from the fragments of
a stream.

A message is what `json.loads` makes of a response. Of the fragments a
stream brings only what is read of them is kept: the index, the id and the
function's name and arguments, `none` where missing or null. The ids that
`uuid4` makes up come from a supply.
-/
import Mathlib.Data.Char
import Velune.Lib.JsonText

namespace Velune.Adapters

open Lib Lib.JsonText

-- ===== interpreter

inductive LoadsError
  /-- A `JSONDecodeError`. -/
  | decode
  /-- Anything else: nesting too deep, an integer of too many digits. -/
  | other
  deriving DecidableEq, Repr

structure Interpreter where
  /-- `json.loads` of a string. -/
  loads : Str → Except LoadsError Value
  /-- `str`, of anything but a string. -/
  str : Value → Str
  /-- A literal of a float that is zero. -/
  isZero : List Char → Bool

inductive Raised
  /-- An `AttributeError`, of a value that has no `get`. -/
  | attribute
  /-- A `TypeError`, of a value that cannot be iterated. -/
  | type
  /-- A `ValidationError` of `ToolCall`. -/
  | validation
  /-- What `json.loads` raised. -/
  | loads
  deriving DecidableEq, Repr

section Reading

variable (py : Interpreter)

def truthy : Value → Bool
  | .null => false
  | .bool b => b
  | .int n => n != 0
  | .float literal => !py.isZero literal
  | .str s => !s.isEmpty
  | .list items => !items.isEmpty
  | .dict entries => !entries.isEmpty

abbrev Fields := Assoc Str Value

def field (fields : Fields) (name : String) : Option Value := fields.get? (ofText name.toList)

structure ToolCall where
  id : Str
  name : Str
  arguments : Fields

/-- The validator: `id` and `name` are strings. -/
def ToolCall.of : Value → Value → Fields → Except Raised ToolCall
  | .str id, .str name, arguments => .ok { id := id, name := name, arguments := arguments }
  | _, _, _ => .error .validation

-- ===== messages

def rawArguments (v : Value) : Fields := [(ofText "_raw_arguments".toList, v)]

/-- `if not isinstance(args, dict)`. -/
def asArguments : Value → Fields
  | .dict entries => entries
  | v => rawArguments v

def messageArguments : Value → Except Raised Fields
  | .dict entries => .ok entries
  | .str s =>
      if s = [] then .ok []
      else
        match py.loads s with
        | .ok v => .ok (asArguments v)
        | .error .decode => .ok (rawArguments (.str s))
        | .error .other => .error .loads
  | v => if truthy py v then .ok (rawArguments (.str (py.str v))) else .ok []

/-- `raw.get("function", {}) or {}`, as what has a `get`. -/
def functionOf (raw : Fields) : Except Raised Fields :=
  let fn := (field raw "function").getD (.dict [])
  if truthy py fn then
    match fn with
    | .dict fields => .ok fields
    | _ => .error .attribute
  else .ok []

/-- `f"call_{uuid.uuid4().hex[:12]}"`, the `n`-th that is made up. -/
def callId (fresh : Nat → Str) (n : Nat) : Str := ofText "call_".toList ++ fresh n

/-- The loop of `parse_openai_tool_calls`, `n` ids having been made up. -/
def callsOf (fresh : Nat → Str) : Nat → List Value → Except Raised (List ToolCall)
  | _, [] => .ok []
  | n, .dict raw :: rest =>
      match functionOf py raw with
      | .error e => .error e
      | .ok fn =>
          match messageArguments py ((field fn "arguments").getD (.str [])) with
          | .error e => .error e
          | .ok arguments =>
              let given := (field raw "id").getD .null
              let id := if truthy py given then given else .str (callId fresh n)
              match ToolCall.of id ((field fn "name").getD (.str [])) arguments with
              | .error e => .error e
              | .ok call =>
                  (callsOf fresh (if truthy py given then n else n + 1) rest).map (call :: ·)
  | _, _ :: _ => .error .attribute

def parseOpenaiToolCalls (fresh : Nat → Str) (message : Fields) :
    Except Raised (Option (List ToolCall)) :=
  let rawCalls := (field message "tool_calls").getD .null
  if truthy py rawCalls then
    match rawCalls with
    | .list raws => (callsOf py fresh 0 raws).map some
    -- the keys and the characters have no `get`
    | .dict _ | .str _ => .error .attribute
    | _ => .error .type
  else .ok none

-- ===== streams

/-- An item of `delta.tool_calls`. -/
structure Fragment where
  index : Int := 0
  id : Option Str := none
  name : Option Str := none
  arguments : Option Str := none

structure Slot where
  id : Str := []
  name : Str := []
  arguments : Str := []

/-- A slot with one fragment more: an id takes the place of the old one, the
name and the arguments go on. -/
def Slot.take (slot : Slot) (frag : Fragment) : Slot where
  id := if frag.id.getD [] = [] then slot.id else frag.id.getD []
  name := slot.name ++ frag.name.getD []
  arguments := slot.arguments ++ frag.arguments.getD []

/-- The `_slots` of an `OpenAIStreamToolAccumulator`. -/
abbrev Slots := Assoc Int Slot

def Slots.add (slots : Slots) (delta : Option (List Fragment)) : Slots :=
  (delta.getD []).foldl (fun slots frag =>
    slots.set frag.index (((Assoc.get? slots frag.index).getD {}).take frag)) slots

def streamArguments (s : Str) : Except Raised Fields :=
  if s = [] then .ok []
  else
    match py.loads s with
    | .ok v => .ok (asArguments v)
    | .error .decode => .ok (rawArguments (.str s))
    | .error .other => .error .loads

/-- The loop of `finalize`. -/
def slotCalls (fresh : Nat → Str) : Nat → List (Int × Slot) → Except Raised (List ToolCall)
  | _, [] => .ok []
  | n, (_, slot) :: rest =>
      match streamArguments py slot.arguments with
      | .error e => .error e
      | .ok arguments =>
          let call : ToolCall := {
            id := if slot.id = [] then callId fresh n else slot.id
            name := slot.name
            arguments := arguments }
          (slotCalls fresh (if slot.id = [] then n + 1 else n) rest).map (call :: ·)

def Slots.finalize (fresh : Nat → Str) (slots : Slots) : Except Raised (Option (List ToolCall)) :=
  if slots = [] then .ok none
  else
    (slotCalls py fresh 0 (slots.mergeSort fun a b => decide (a.1 ≤ b.1))).map some

end Reading

end Velune.Adapters
