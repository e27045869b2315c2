/-
Checking tool arguments against the tools' own schemas
(`orchestration/engine/toolschema.py`): which schemas can be enforced,
and whether an arguments object satisfies one that can.

Both functions may raise `TypeError` where the source applies an
operation to a value it is not defined on: hashing a list or an object,
ordering a number against a text, searching a container that is none.
`canonical_arguments`, the walk that bounds the arguments before, is in
`Arguments`: nothing here needs its bounds.
-/
import Mathlib.Data.Char
import Mathlib.Data.List.Infix
import Mathlib.Data.List.Lex
import Mathlib.Data.List.Sort
import Velune.Domain
import Velune.Lib.Json

namespace Velune.Engine.ToolSchema

open Lib

-- ===== keywords

def ROOT_KEYWORDS : List String :=
  ["type", "properties", "required", "description", "title", "additionalProperties"]

def PROPERTY_KEYWORDS : List String :=
  ["type", "description", "title", "minimum", "maximum", "minLength", "maxLength", "enum",
    "default", "items", "minItems", "maxItems"]

def SCALAR_TYPES : List String := ["string", "integer", "number", "boolean"]

/-- `_KEY.match`: `^[A-Za-z_][A-Za-z0-9_]{0,63}$`, where `$` also stands
before a line feed at the end. -/
def isKey (name : PyStr) : Bool :=
  let simple := Text.headed (fun c => Text.isLower c || Text.isUpper c || c == '_')
    (fun c => Text.isAlnum c || c == '_') 63
  simple name || (name.getLast? == some '\n' && simple name.dropLast)

structure TypeError
  deriving DecidableEq

-- ===== problems

inductive PropertyProblem
  | notObject
  | unsupportedKeyword (keyword : PyStr)
  | noItems
  | nestedArrays
  | unsupportedType (kind : Json)

inductive SchemaProblem
  | notObject
  | unsupportedKeyword (keyword : PyStr)
  | rootType
  | additionalProperties
  | propertiesNotObject
  | propertyName
  | property (name : PyStr) (problem : PropertyProblem)
  | required

def PropertyProblem.text (repr : Json → PyStr) : PropertyProblem → PyStr
  | .notObject => "the property schema is not an object".toList
  | .unsupportedKeyword keyword => "unsupported keyword ".toList ++ repr (.str keyword)
  | .noItems => "an array needs an 'items' schema".toList
  | .nestedArrays => "arrays nested in arrays are not supported".toList
  | .unsupportedType kind => "unsupported type ".toList ++ repr kind

def SchemaProblem.text (repr : Json → PyStr) : SchemaProblem → PyStr
  | .notObject => "the schema is not an object".toList
  | .unsupportedKeyword keyword => "unsupported schema keyword ".toList ++ repr (.str keyword)
  | .rootType => "the root schema is not type 'object'".toList
  | .additionalProperties => "additionalProperties must be false or absent".toList
  | .propertiesNotObject => "'properties' is not an object".toList
  | .propertyName => "a property name is not a simple identifier".toList
  | .property name problem =>
      "property ".toList ++ repr (.str name) ++ ": ".toList ++ problem.text repr
  | .required => "'required' names a property that is not declared".toList

/-- `sorted(unknown)[0]`, with the fields no keyword names as `unknown`. -/
def firstUnknown (keywords : List String) (fields : List (PyStr × Json)) : Option PyStr :=
  let unknown := (fields.map (·.1)).filter fun name =>
    !keywords.any fun keyword => keyword.toList == name
  (unknown.insertionSort fun a b => a ≤ b).head?

/-- `kind in _SCALAR_TYPES`. -/
def isScalarType (kind : Json) : Except TypeError Bool :=
  if kind.hashable then
    .ok (SCALAR_TYPES.any fun scalar => Json.pyEq kind (.str scalar.toList))
  else .error ⟨⟩

/-- `spec.get(key)`: null where the field is absent. -/
def getOrNull (spec : Json) (key : String) : Json := (spec.get? key).getD .null

/-- The problem of a list's schema; `nested` is what the source makes of
the schema under `items`. -/
def arrayProblem (nested : Json → Except TypeError (Option PropertyProblem)) (spec : Json) :
    Except TypeError (Option PropertyProblem) :=
  match getOrNull spec "items" with
  | .null => .ok (some .noItems)
  | items => nested items

/-- `_property_problem` past the check of the keywords. -/
def kindProblem (nested : Json → Except TypeError (Option PropertyProblem)) (spec : Json) :
    Except TypeError (Option PropertyProblem) := do
  if ← isScalarType (getOrNull spec "type") then return none
  if Json.pyEq (getOrNull spec "type") (.str "array".toList) then arrayProblem nested spec
  else return some (.unsupportedType (getOrNull spec "type"))

/-- `_property_problem`, with `nested` for its call on the items. -/
def problemWith (nested : Json → Except TypeError (Option PropertyProblem)) :
    Json → Except TypeError (Option PropertyProblem)
  | .obj fields =>
      match firstUnknown PROPERTY_KEYWORDS fields with
      | some keyword => .ok (some (.unsupportedKeyword keyword))
      | none => kindProblem nested (.obj fields)
  | _ => .ok (some .notObject)

/-- `_property_problem(spec, top=False)`. -/
def itemsProblem : Json → Except TypeError (Option PropertyProblem) :=
  problemWith fun _ => .ok (some .nestedArrays)

/-- `_property_problem(spec, top=True)`. -/
def propertyProblem : Json → Except TypeError (Option PropertyProblem) :=
  problemWith itemsProblem

/-- The loop of `schema_problem` over the properties. -/
def propertiesProblem : List (PyStr × Json) → Except TypeError (Option SchemaProblem)
  | [] => .ok none
  | (name, spec) :: rest =>
      if isKey name then do
        match ← propertyProblem spec with
        | some problem => return some (.property name problem)
        | none => propertiesProblem rest
      else .ok (some .propertyName)

/-- `item in properties`. -/
def declared (properties : List (PyStr × Json)) (item : Json) : Except TypeError Bool :=
  match item with
  | .str name => .ok (Json.lookup properties name).isSome
  | _ => if item.hashable then .ok false else .error ⟨⟩

/-- `any(item not in properties for item in required)`. -/
def anyUndeclared (properties : List (PyStr × Json)) : List Json → Except TypeError Bool
  | [] => .ok false
  | item :: rest => do
      if ← declared properties item then anyUndeclared properties rest else return true

/-- The last check of `schema_problem`. -/
def requiredProblem (properties : List (PyStr × Json)) :
    Json → Except TypeError (Option SchemaProblem)
  | .arr items => do
      if ← anyUndeclared properties items then return some .required else return none
  | _ => .ok (some .required)

def schemaProblem : Json → Except TypeError (Option SchemaProblem)
  | .obj [] => .ok none
  | .obj fields =>
      match firstUnknown ROOT_KEYWORDS fields with
      | some keyword => .ok (some (.unsupportedKeyword keyword))
      | none =>
          if !Json.pyEq (getOrNull (.obj fields) "type") (.str "object".toList) then
            .ok (some .rootType)
          else
            match (Json.get? (.obj fields) "additionalProperties").getD (.bool false) with
            | .bool false =>
                match (Json.get? (.obj fields) "properties").getD (.obj []) with
                | .obj properties => do
                    match ← propertiesProblem properties with
                    | some problem => return some problem
                    | none =>
                        requiredProblem properties
                          ((Json.get? (.obj fields) "required").getD (.arr []))
                | _ => .ok (some .propertiesNotObject)
            | _ => .ok (some .additionalProperties)
  | _ => .ok (some .notObject)

-- ===== checking

/-- The rules an `ArgumentError` names. -/
inductive Rejection
  | unenforceable (problem : SchemaProblem)
  | unknown (name : PyStr)
  | missing (name : PyStr)
  | notList (label : PyStr)
  | notType (label kind : PyStr)
  | fewer (label : PyStr) (bound : Json) (unit : String)
  | more (label : PyStr) (bound : Json) (unit : String)
  | below (label : PyStr) (bound : Json)
  | above (label : PyStr) (bound : Json)
  | notAllowed (label : PyStr)

/-- `ArgumentError.message`; its kind is always `schema`. -/
def Rejection.text (repr str : Json → PyStr) : Rejection → PyStr
  | .unenforceable problem =>
      "the tool's schema cannot be enforced: ".toList ++ problem.text repr
  | .unknown name => "unknown argument ".toList ++ repr (.str name)
  | .missing name => "missing required argument ".toList ++ repr (.str name)
  | .notList label => repr (.str label) ++ " must be a list".toList
  | .notType label kind => repr (.str label) ++ " must be of type ".toList ++ kind
  | .fewer label bound unit =>
      repr (.str label) ++ " has fewer than ".toList ++ str bound ++ " ".toList ++ unit.toList
  | .more label bound unit =>
      repr (.str label) ++ " has more than ".toList ++ str bound ++ " ".toList ++ unit.toList
  | .below label bound => repr (.str label) ++ " is below the minimum of ".toList ++ str bound
  | .above label bound => repr (.str label) ++ " is above the maximum of ".toList ++ str bound
  | .notAllowed label => repr (.str label) ++ " is not one of the allowed values".toList

inductive Raised
  | argumentError (rejection : Rejection)
  | typeError
  | keyError

/-- A bound as a number; ordering a number against anything else raises. -/
def comparable (bound : Json) : Except Raised Rat :=
  match bound.pyNumber? with
  | some q => .ok q
  | none => .error .typeError

/-- `if low in spec and x < spec[low]: raise`. -/
def atLeast (spec : Json) (low : String) (x : Rat) (rejection : Json → Rejection) :
    Except Raised Unit :=
  match spec.get? low with
  | none => .ok ()
  | some bound => do
      if x < (← comparable bound) then throw (.argumentError (rejection bound))

/-- `if high in spec and x > spec[high]: raise`. -/
def atMost (spec : Json) (high : String) (x : Rat) (rejection : Json → Rejection) :
    Except Raised Unit :=
  match spec.get? high with
  | none => .ok ()
  | some bound => do
      if (← comparable bound) < x then throw (.argumentError (rejection bound))

def bound (label : PyStr) (spec : Json) (size : Nat) (low high unit : String) :
    Except Raised Unit := do
  atLeast spec low size fun b => .fewer label b unit
  atMost spec high size fun b => .more label b unit

/-- `value in container`. -/
def isIn (value : Json) : Json → Except Raised Bool
  | .arr items => .ok (items.any fun item => Json.pyEq value item)
  | .obj fields =>
      match value with
      | .str key => .ok (Json.lookup fields key).isSome
      | _ => if value.hashable then .ok false else .error .typeError
  | .str text =>
      match value with
      | .str part => .ok (decide (part <:+: text))
      | _ => .error .typeError
  | _ => .error .typeError

/-- The last check of `_check_value`. -/
def checkEnum (label : PyStr) (spec value : Json) : Except Raised Unit :=
  match spec.get? "enum" with
  | none => .ok ()
  | some allowed => do
      if !(← isIn value allowed) then throw (.argumentError (.notAllowed label))

/-- Whether a scalar type takes the value. What is no type the source
names is a boolean to it. -/
def hasType (kind : PyStr) (value : Json) : Bool :=
  if kind = "string".toList then
    match value with
    | .str _ => true
    | _ => false
  else if kind = "integer".toList then
    match value with
    | .int _ => true
    | _ => false
  else if kind = "number".toList then
    match value with
    | .int _ | .float _ => true
    | _ => false
  else
    match value with
    | .bool _ => true
    | _ => false

/-- `spec["type"]`; a supported schema has it, as a text. -/
def typeOf (spec : Json) : Except Raised PyStr :=
  match spec.get? "type" with
  | some (.str kind) => .ok kind
  | _ => .error .keyError

/-- `if not ok: raise`, the check of a scalar's type. -/
def checkType (label kind : PyStr) (value : Json) : Except Raised Unit :=
  if hasType kind value then .ok () else .error (.argumentError (.notType label kind))

/-- The bounds of a text. Past `checkType` a value is a text just when
its type is string. -/
def checkLength (label : PyStr) (spec : Json) : Json → Except Raised Unit
  | .str text => bound label spec text.length "minLength" "maxLength" "characters"
  | _ => .ok ()

/-- The bounds of a number. Past `checkType` a value is a number just
when its type is integer or number. -/
def checkRange (label : PyStr) (spec value : Json) : Except Raised Unit :=
  match value.number? with
  | some x => do
      atLeast spec "minimum" x (.below label)
      atMost spec "maximum" x (.above label)
  | none => .ok ()

/-- `_check_value` past the arrays. -/
def checkScalar (label : PyStr) (spec : Json) (kind : PyStr) (value : Json) :
    Except Raised Unit := do
  checkType label kind value
  checkLength label spec value
  checkRange label spec value
  checkEnum label spec value

mutual

def checkValue (label : PyStr) (spec : Json) : Json → Except Raised Unit
  | .arr items => do
      let kind ← typeOf spec
      if kind = "array".toList then
        bound label spec items.length "minItems" "maxItems" "items"
        checkItems (label ++ "[]".toList) (getOrNull spec "items") items
      else checkScalar label spec kind (.arr items)
  | value => do
      let kind ← typeOf spec
      if kind = "array".toList then throw (.argumentError (.notList label))
      checkScalar label spec kind value

def checkItems (label : PyStr) (spec : Json) : List Json → Except Raised Unit
  | [] => .ok ()
  | item :: rest => do
      checkValue label spec item
      checkItems label spec rest

end

def checkKnown (properties : List (PyStr × Json)) : List (PyStr × Json) → Except Raised Unit
  | [] => .ok ()
  | (name, _) :: rest =>
      if (Json.lookup properties name).isSome then checkKnown properties rest
      else .error (.argumentError (.unknown name))

def checkRequired (arguments : List (PyStr × Json)) : List Json → Except Raised Unit
  | [] => .ok ()
  | .str name :: rest =>
      if (Json.lookup arguments name).isSome then checkRequired arguments rest
      else .error (.argumentError (.missing name))
  | _ :: _ => .error .typeError

def checkValues (properties : List (PyStr × Json)) : List (PyStr × Json) → Except Raised Unit
  | [] => .ok ()
  | (name, value) :: rest =>
      match Json.lookup properties name with
      | some spec => do
          checkValue name spec value
          checkValues properties rest
      | none => .error .keyError

/-- `schema.get("properties", {})` of a supported schema. -/
def propertiesOf (schema : Json) : List (PyStr × Json) :=
  match schema.get? "properties" with
  | some (.obj properties) => properties
  | _ => []

/-- `schema.get("required", [])` of a supported schema. -/
def requiredOf (schema : Json) : List Json :=
  match schema.get? "required" with
  | some (.arr items) => items
  | _ => []

def checkArguments (schema : Json) (arguments : List (PyStr × Json)) : Except Raised Unit :=
  match schemaProblem schema with
  | .error _ => .error .typeError
  | .ok (some problem) => .error (.argumentError (.unenforceable problem))
  | .ok none => do
      checkKnown (propertiesOf schema) arguments
      checkRequired arguments (requiredOf schema)
      checkValues (propertiesOf schema) arguments

end Velune.Engine.ToolSchema
