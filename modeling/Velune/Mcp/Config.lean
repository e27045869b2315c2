/-
Where the registry's entries come from (`mcp/registry.py`): the merge of
the configuration sources, the environment's servers and the hot reload.

A source is given by the definitions read from it, in its own order: no
definition where the file is absent or does not parse. What the readers
make of one definition's fields is theirs, not the merge's. A hot reload
runs between other operations on the registry; here it is one step, and
`connects` says what becomes of each connect it makes.
-/
import Velune.Lib.Runs
import Velune.Mcp.Registry

namespace Velune.Mcp

open Lib

-- ===== sources

structure Sources where
  /-- `<workspace>/.mcp.json` -/
  workspace : List ServerConfig
  /-- `~/.mcp.json` -/
  user : List ServerConfig
  /-- `[mcp.servers]` of `<workspace>/velune.toml` -/
  toml : List ServerConfig
  /-- `MCP_SERVERS_JSON` -/
  env : List ServerConfig

def entryOf (entries : List ServerEntry) (name : PyStr) : Option ServerEntry :=
  entries.find? (·.name == name)

def mergeConfig (entries : List ServerEntry) (cfg : ServerConfig) : List ServerEntry :=
  if (entryOf entries cfg.name).isSome then
    entries.map fun e => if e.name = cfg.name then { e with config := cfg } else e
  else entries ++ [{ config := cfg }]

/-- The definitions `load_config` goes through. -/
def loadedConfigs (trusted : Bool) (s : Sources) (extras : List ServerConfig) :
    List ServerConfig :=
  (if trusted then s.workspace else []) ++ s.user ++ (if trusted then s.toml else []) ++ extras

def loadConfig (entries : List ServerEntry) (trusted : Bool) (s : Sources)
    (extras : List ServerConfig) : List ServerEntry :=
  (loadedConfigs trusted s extras).foldl mergeConfig entries

/-- The body of the loop of `load_env`. -/
def addConfig (entries : List ServerEntry) (cfg : ServerConfig) : List ServerEntry :=
  if (entryOf entries cfg.name).isSome then entries else entries ++ [{ config := cfg }]

def loadEnv (entries : List ServerEntry) (s : Sources) : List ServerEntry :=
  s.env.foldl addConfig entries

-- ===== hot reload

def setEntry (entries : List ServerEntry) (name : PyStr) (f : ServerEntry → ServerEntry) :
    List ServerEntry :=
  entries.map fun e => if e.name = name then f e else e

/-- What becomes of a connect: the connection and its tools, or a
failure. -/
abbrev Connects := PyStr → Option (ConnId × List ToolInfo)

/-- An entry after its `connect` has run to its end. -/
def ServerEntry.afterConnect (e : ServerEntry) (outcome : Option (ConnId × List ToolInfo)) :
    ServerEntry :=
  if e.isConnected then e
  else
    match outcome with
    | some (connection, tools) =>
        { e with state := .connected, connection := some connection, tools := tools }
    | none => { e with state := .error }

/-- `connect`, run to its end. -/
def connectEntry (connects : Connects) (entries : List ServerEntry) (name : PyStr) :
    List ServerEntry :=
  setEntry entries name fun e => e.afterConnect (connects name)

/-- `disconnect` and the `pop` after it, with the connections that have
been disconnected. -/
def removeEntry (st : List ServerEntry × List ConnId) (name : PyStr) :
    List ServerEntry × List ConnId :=
  let connection := (entryOf st.1 name).bind (·.connection)
  (st.1.filter (·.name != name), st.2 ++ connection.toList)

def hotReload (entries : List ServerEntry) (trusted : Bool) (s : Sources) (connects : Connects) :
    List ServerEntry × List ConnId :=
  let old := entries.map (·.name)
  let loaded := loadEnv (loadConfig entries trusted s []) s
  let new := loaded.map (·.name)
  let removed := old.filter fun name => !new.contains name
  let added := new.filter fun name => !old.contains name
  let kept := removed.foldl removeEntry (loaded, [])
  (added.foldl (connectEntry connects) kept.1, kept.2)

-- ===== runs

/-- The registry as its configuration sees it: the entries, what the last
`load_config` was given, and the connections a reload has disconnected. -/
structure Configured where
  entries : List ServerEntry := []
  trusted : Bool := true
  extras : List ServerConfig := []
  closed : List ConnId := []

/-- What happens to the entries: a load by the caller, the environment's
servers, an edit of the sources followed by a hot reload, and changes of
an entry's runtime state, which leave its configuration alone. -/
inductive ConfigStep
  | loadConfig (sources : Sources) (extras : List ServerConfig) (trusted : Bool)
  | loadEnv (sources : Sources)
  | hotReload (sources : Sources) (connects : Connects)
  | runtime (name : PyStr) (state : ServerState) (connection : Option ConnId)
      (tools : List ToolInfo)

def configStep : ConfigStep → Configured → Option Configured
  | .loadConfig sources extras trusted, st =>
      some { st with
        entries := loadConfig st.entries trusted sources extras
        trusted := trusted
        extras := extras }
  | .loadEnv sources, st => some { st with entries := loadEnv st.entries sources }
  | .hotReload sources connects, st =>
      let reloaded := hotReload st.entries st.trusted sources connects
      some { st with entries := reloaded.1, closed := st.closed ++ reloaded.2 }
  | .runtime name state connection tools, st =>
      some { st with
        entries := setEntry st.entries name fun e =>
          { e with state := state, connection := connection, tools := tools } }

end Velune.Mcp
