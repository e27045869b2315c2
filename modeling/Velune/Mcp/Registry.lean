/-
The registry of MCP servers (`mcp/registry.py`): its entries, the flat
view of their tools and the index that routes a call by name.

The entries are the values of the source's dictionary in insertion
order, each filed under its own configuration's name. Resources are left
out: nothing that routes a tool reads them.
-/
import Velune.Domain
import Velune.Lib.Dict
import Velune.Lib.Json

namespace Velune.Mcp

open Lib

-- ===== servers

inductive TransportType
  | stdio | sse | http | ws
  deriving DecidableEq, Repr

/-- One server's definition, as a configuration source spells it. -/
structure ServerConfig where
  name : PyStr
  transport : TransportType := .sse
  command : PyStr := []
  args : List PyStr := []
  url : PyStr := []
  headers : List (PyStr × PyStr) := []
  env : List (PyStr × PyStr) := []
  timeout : Int := 30
  deriving DecidableEq

structure ToolInfo where
  name : PyStr
  description : PyStr
  inputSchema : Json
  serverName : PyStr

inductive ServerState
  | disconnected | connecting | connected | error
  deriving DecidableEq, Repr

abbrev ConnId := Nat

structure ServerEntry where
  config : ServerConfig
  state : ServerState := .disconnected
  connection : Option ConnId := none
  tools : List ToolInfo := []

def ServerEntry.name (entry : ServerEntry) : PyStr := entry.config.name

def ServerEntry.isConnected (entry : ServerEntry) : Bool := entry.state == .connected

-- ===== index

/-- `f"{entry.name}_{tool.name}"`. -/
def indexKey (entry : ServerEntry) (tool : ToolInfo) : PyStr := entry.name ++ '_' :: tool.name

def indexEntry (index : Dict PyStr PyStr) (entry : ServerEntry) : Dict PyStr PyStr :=
  if entry.isConnected then
    entry.tools.foldl (fun index tool => index.insert (indexKey entry tool) entry.name) index
  else index

/-- The index after the loop over the entries: a later entry overwrites
an earlier one. -/
def qualifiedIndex (entries : List ServerEntry) : Dict PyStr PyStr :=
  entries.foldl indexEntry Dict.empty

def bareOwners (entries : List ServerEntry) (tool : PyStr) : List PyStr :=
  (entries.filter fun entry => entry.isConnected && entry.tools.any (·.name == tool)).map
    (·.name)

/-- `_rebuild_tool_index`: a bare name is entered by `setdefault`, where
exactly one server exposes it. -/
def rebuildToolIndex (entries : List ServerEntry) : Dict PyStr PyStr := fun name =>
  match qualifiedIndex entries name with
  | some server => some server
  | none =>
      match bareOwners entries name with
      | [server] => some server
      | _ => none

def allTools (entries : List ServerEntry) : List ToolInfo :=
  (entries.filter (·.isConnected)).flatMap (·.tools)

-- ===== routing

def stripServerPrefix (qualified server : PyStr) : PyStr :=
  if (server ++ ['_']).isPrefixOf qualified then qualified.drop (server.length + 1) else qualified

/-- The loop of `call_tool` over the entries, for a name the index does
not have. `found` is what an earlier entry set; only a name that is not
empty ends the loop. -/
def scanOwner (name : PyStr) : List ServerEntry → Option PyStr → Option PyStr
  | [], found => found
  | entry :: rest, found =>
      let found :=
        if entry.isConnected && entry.tools.any (·.name == name) then some entry.name else found
      match found with
      | some (c :: cs) => some (c :: cs)
      | _ => scanOwner name rest found

/-- Why `call_tool` reaches no server. -/
inductive RouteError
  | noOwner (name : PyStr)
  | notConnected (server : PyStr)

def RouteError.text : RouteError → PyStr
  | .noOwner name => "No MCP server owns tool '".toList ++ name ++ "'.".toList
  | .notConnected server => "MCP server '".toList ++ server ++ "' is not connected.".toList

/-- `call_tool` up to the call on the connection: which connection it is
made on, and with which tool's name. -/
def route (entries : List ServerEntry) (index : Dict PyStr PyStr) (qualified : PyStr) :
    Except RouteError (ConnId × PyStr) :=
  match (index qualified).or (scanOwner qualified entries none) with
  | none => .error (.noOwner qualified)
  | some server =>
      match entries.find? (·.name == server) with
      | some entry =>
          match entry.isConnected, entry.connection with
          | true, some connection => .ok (connection, stripServerPrefix qualified server)
          | _, _ => .error (.notConnected server)
      | none => .error (.notConnected server)

-- ===== connected

/-- A registry at rest: the index is the one of its entries, a connected
entry has its connection, which is no other's, and each tool carries its
server's name, as every transport's `list_tools` sets it. -/
structure Registry where
  entries : List ServerEntry
  names_nodup : (entries.map (·.name)).Nodup
  live : ∀ e ∈ entries, e.isConnected = true → e.connection.isSome = true
  apart : ∀ e ∈ entries, ∀ e' ∈ entries, e.connection.isSome = true →
    e.connection = e'.connection → e.name = e'.name
  owned : ∀ e ∈ entries, ∀ t ∈ e.tools, t.serverName = e.name

def Registry.allTools (r : Registry) : List ToolInfo := Mcp.allTools r.entries

/-- `call_tool` on a registry at rest. -/
def Registry.route (r : Registry) (qualified : PyStr) : Except RouteError (ConnId × PyStr) :=
  Mcp.route r.entries (rebuildToolIndex r.entries) qualified

end Velune.Mcp
