/-
How a conversation from elsewhere becomes a session (`import_session` of
`cli/sessions.py`), with what it uses of the store: reading a session's
metadata, saving it, and listing the sessions.

The id comes from the file that is imported and becomes a part of a path,
so paths are resolved here name by name: directories are there or not,
`..` leads to the parent, an absolute path leaves the store. Links and
what a file system refuses for other reasons than a name's length are left
out; the store's directory is there.
-/
import Mathlib.Data.Char
import Mathlib.Data.List.Infix
import Mathlib.Data.List.Lex
import Velune.Lib.Assoc
import Velune.Sessions.Store

namespace Velune.Sessions.Import

open Lib Lib.Json

-- ===== file system

abbrev Path := List PyStr

inductive Entry
  /-- With its value, if the file can be read and is JSON. -/
  | file (value : Option Json)
  | directory

abbrev Disk := Assoc Path Entry

/-- What comes from outside: which names the file system takes, where a
path leads, and how a value that is no text is written. -/
structure Host where
  fits : PyStr → Bool
  resolve : PyStr → Option PyStr
  repr : Json → PyStr

def Host.format (host : Host) : Json → PyStr
  | .str s => s
  | value => host.repr value

def enter (disk : Disk) (here : Path) (part : PyStr) : Option Path :=
  if part = "..".toList then some here.dropLast
  else
    match disk.get? (here ++ [part]) with
    | some .directory => some (here ++ [part])
    | _ => none

/-- The directory that `root / text` is in. -/
def parentOf (root : Path) (disk : Disk) (text : PyStr) : Option Path :=
  let path := PurePath.parse text
  path.parts.dropLast.foldlM (enter disk) (if path.root = [] then root else [])

def nameOf (text : PyStr) : PyStr := (PurePath.parse text).name

def fileText (host : Host) (id : Json) : PyStr := host.format id ++ ".json".toList

/-- `with_suffix(".json.tmp")` of a name that ends in `.json`: the name
`.json` has no suffix. -/
def tempName (name : PyStr) : PyStr :=
  if name = ".json".toList then ".json.json.tmp".toList else name ++ ".tmp".toList

-- ===== reading

/-- `_read`; `none` where it raises. A NUL in the path is no error here. -/
def readSession (host : Host) (root : Path) (disk : Disk) (id : Json) : Option (Option Json) :=
  let text := fileText host id
  if '\x00' ∈ text then some none
  else
    match parentOf root disk text with
    | none => some none
    | some parent =>
        if host.fits (nameOf text) then
          match disk.get? (parent ++ [nameOf text]) with
          | some (.file (some .null)) => some none
          | some (.file value) => some value
          | _ => some none
        else none

def loadMeta (host : Host) (now : PyStr) (root : Path) (disk : Disk) (id : Json) :
    Option (Option SessionMeta) :=
  match readSession host root disk id with
  | none => none
  | some none => some none
  | some (some data) => (metaFrom now data).map some

def load (host : Host) (now : PyStr) (root : Path) (disk : Disk) (id : Json) :
    Option (Option (SessionMeta × Json)) :=
  match readSession host root disk id with
  | none => none
  | some none => some none
  | some (some data) => (metaFrom now data).map fun m => some (m, conversationOf data)

-- ===== listing

mutual

/-- `v < w`; `none` where it raises. -/
def less? : Json → Json → Option Bool
  | .str s, .str t => some (decide (s < t))
  | .arr xs, .arr ys => lessItems? xs ys
  | v, w =>
      match v.pyNumber?, w.pyNumber? with
      | some p, some q => some (decide (p < q))
      | _, _ => none

def lessItems? : List Json → List Json → Option Bool
  | [], ys => some !ys.isEmpty
  | _ :: _, [] => some false
  | x :: xs, y :: ys => if pyEq x y then lessItems? xs ys else less? x y

end

def place (m : SessionMeta) : List SessionMeta → Option (List SessionMeta)
  | [] => some [m]
  | other :: rest => do
      if ← less? m.updatedAt other.updatedAt then return other :: (← place m rest)
      else return m :: other :: rest

/-- `metas.sort(key=…, reverse=True)`: stable. -/
def newestFirst : List SessionMeta → Option (List SessionMeta)
  | [] => some []
  | m :: rest => do place m (← newestFirst rest)

def sameWorkspace (host : Host) : Json → PyStr → Bool
  | .str a, b =>
      match host.resolve a, host.resolve b with
      | some p, some q => p = q
      | _, _ => a = b
  | _, _ => false

def listed? (host : Host) (now : PyStr) (root : Path) (workspace : PyStr) (archived : Bool)
    (entry : Path × Entry) : Option SessionMeta :=
  match entry with
  | (path, .file (some data)) =>
      if path.dropLast = root ∧ path ≠ [] ∧ ".json".toList <:+ path.getLastD [] then
        match metaFrom now data with
        | some m =>
            if sameWorkspace host m.workspace workspace && (archived || !truthy m.archived) then
              some m
            else none
        | none => none
      else none
  | _ => none

/-- `list` of a workspace; `none` where it raises. -/
def listSessions (host : Host) (now : PyStr) (root : Path) (disk : Disk) (workspace : PyStr)
    (limit : Nat) (includeArchived : Bool := false) : Option (List SessionMeta) :=
  (newestFirst (disk.filterMap (listed? host now root workspace includeArchived))).map (·.take limit)

-- ===== importing

inductive Outcome
  | valueError
  /-- Any other exception. -/
  | raised
  | imported (m : SessionMeta)

/-- `save` with an id. -/
def save (host : Host) (now : PyStr) (root : Path) (disk : Disk) (id : Json) (args : SaveArgs) :
    Outcome × Disk :=
  match loadMeta host now root disk id with
  | none => (.raised, disk)
  | some existing =>
      match buildMeta now id existing args with
      | none => (.raised, disk)
      | some m =>
          let text := fileText host id
          if '\x00' ∈ text then (.valueError, disk)
          else
            match parentOf root disk text with
            | none => (.raised, disk)
            | some parent =>
                let temp := parent ++ [tempName (nameOf text)]
                let target := parent ++ [nameOf text]
                let entry := Entry.file (some (payload m args.conversation))
                if host.fits (tempName (nameOf text)) then
                  match disk.get? temp, disk.get? target with
                  | some .directory, _ => (.raised, disk)
                  -- the temporary file stays
                  | _, some .directory => (.raised, disk.set temp entry)
                  | _, _ => (.imported m, ((disk.set temp entry).pop temp).set target entry)
                else (.raised, disk)

structure ImportCall where
  data : Json
  workspace : PyStr
  sessionId : Option PyStr := none
  /-- The ids that are made, if need be, for a file without one and where
  there is a session already. -/
  fresh : SessionId
  other : SessionId
  now : PyStr

def conversationIn (fields : List (PyStr × Json)) : Option (List Json) :=
  match lookup fields "conversation".toList with
  | some (.arr conversation) => some conversation
  | _ => none

/-- `data.get("meta") or {}`, if it has fields. -/
def metaIn (fields : List (PyStr × Json)) : Option (List (PyStr × Json)) :=
  if truthy (getD fields "meta" .null) then
    match getD fields "meta" .null with
    | .obj raw => some raw
    | _ => none
  else some []

/-- `session_id or meta_raw.get("id") or …`. -/
def ImportCall.wanted (call : ImportCall) (raw : List (PyStr × Json)) : Json :=
  match call.sessionId with
  | some (c :: rest) => .str (c :: rest)
  | _ =>
      if truthy (getD raw "id" .null) then getD raw "id" .null else .str call.fresh.1

/-- The id that the session gets; `none` where there is something that is
no session. -/
def ImportCall.chosen (host : Host) (root : Path) (disk : Disk) (call : ImportCall)
    (raw : List (PyStr × Json)) : Option Json :=
  match loadMeta host call.now root disk (call.wanted raw) with
  | none => none
  | some none => some (call.wanted raw)
  | some (some _) => some (.str call.other.1)

def ImportCall.args (call : ImportCall) (raw : List (PyStr × Json)) (conversation : List Json) :
    SaveArgs where
  conversation := .arr conversation
  workspace := .str call.workspace
  modelId := getD raw "model_id" (text "unknown")
  mode := getD raw "mode" (text "normal")
  title := getD raw "title" .null
  tags := getD raw "tags" .null
  totalTokens := getD raw "total_tokens" (.int 0)
  summary := getD raw "summary" .null

def importSession (host : Host) (root : Path) (disk : Disk) (call : ImportCall) : Outcome × Disk :=
  match call.data with
  | .obj fields =>
      match conversationIn fields with
      | none => (.valueError, disk)
      | some conversation =>
          match metaIn fields with
          | none => (.raised, disk)
          | some raw =>
              match call.chosen host root disk raw with
              | none => (.raised, disk)
              | some id => save host call.now root disk id (call.args raw conversation)
  | _ => (.raised, disk)

end Velune.Sessions.Import
