/-
The tool definitions the loop shows the model and the routes it keeps
for them (`orchestration/tool_loop.py`, `build_tool_definitions` and the
routing of `_execute_call`).

A definition is kept beside the tool it describes, so that it can be
said which tool a name was given for; the source keeps the definition.
-/
import Velune.Mcp.Registry

namespace Velune.ToolLoop

open Lib
open Mcp (ToolInfo Registry ConnId)

-- ===== names

/-- `[a-zA-Z0-9_-]`. -/
def isNameSafe (c : Char) : Bool := Text.isAlnum c || c == '_' || c == '-'

/-- `_NAME_SAFE.sub("_", name)[:64]`. -/
def exposedName (name : PyStr) : PyStr := (name.map fun c => if isNameSafe c then c else '_').take 64

def qualifiedName (info : ToolInfo) : PyStr :=
  if info.serverName = [] then info.name else info.serverName ++ '_' :: info.name

-- ===== definitions

/-- A local tool: the object, by its identity, with its texts. -/
structure BaseTool where
  id : Nat
  description : PyStr
  schema : Json

inductive Source
  | local (tool : BaseTool)
  | mcp (info : ToolInfo)

inductive Target
  | local (tool : BaseTool)
  | mcp (qualified : PyStr)

structure Offer where
  name : PyStr
  source : Source

structure Definition where
  name : PyStr
  description : PyStr
  parameters : Json

/-- `{"type": "object", "properties": {}}`. -/
def noParameters : Json :=
  .obj [("type".toList, .str "object".toList), ("properties".toList, .obj [])]

/-- `schema or {...}`. -/
def orNoParameters : Json → Json
  | .obj [] | .null => noParameters
  | schema => schema

def Offer.definition (offer : Offer) : Definition :=
  match offer.source with
  | .local tool => ⟨offer.name, tool.description, orNoParameters tool.schema⟩
  | .mcp info =>
      ⟨offer.name,
        if info.description = [] then "MCP tool from ".toList ++ info.serverName
        else info.description,
        orNoParameters info.inputSchema⟩

/-- What `build_tool_definitions` builds. -/
structure Built where
  route : Dict PyStr Target := Dict.empty
  offers : List Offer := []

def addLocal (built : Built) (entry : PyStr × BaseTool) : Built :=
  let exposed := exposedName entry.1
  { route := built.route.insert exposed (.local entry.2)
    offers := built.offers ++ [⟨exposed, .local entry.2⟩] }

/-- The loop's body for an MCP tool: what is routed already is skipped. -/
def addMcp (built : Built) (info : ToolInfo) : Built :=
  let exposed := exposedName (qualifiedName info)
  if (built.route exposed).isSome then built
  else
    { route := built.route.insert exposed (.mcp (qualifiedName info))
      offers := built.offers ++ [⟨exposed, .mcp info⟩] }

/-- `build_tool_definitions`. `locals` are the local registry's tools by
name, in registration order. -/
def buildToolDefinitions (locals : List (PyStr × BaseTool)) (mcp : List ToolInfo) : Built :=
  mcp.foldl addMcp (locals.foldl addLocal {})

def Built.definitions (built : Built) : List Definition := built.offers.map (·.definition)

-- ===== execution

/-- What a call reaches: a local tool object, or a tool's name on a
connection. -/
inductive Reached
  | local (tool : BaseTool)
  | remote (connection : ConnId) (tool : PyStr)

/-- What `_execute_call` reaches under an exposed name, once approved;
`none` is an error result instead of a call. -/
def Built.reach (built : Built) (registry : Registry) (name : PyStr) : Option Reached :=
  match built.route name with
  | none => none
  | some (.local tool) => some (.local tool)
  | some (.mcp qualified) =>
      match registry.route qualified with
      | .ok (connection, tool) => some (.remote connection tool)
      | .error _ => none

end Velune.ToolLoop
