/-
What a session file says (`cli/sessions.py`): its metadata, read from any
JSON value that a file can hold, and the title made from a conversation.

A value is read without checking its type, as the source does, so the
fields are JSON values; `none` stands for an exception. Numbers that are
not finite are left out.
-/
import Velune.Domain
import Velune.Lib.Json
import Velune.Lib.Path

namespace Velune.Sessions

open Lib Lib.Json

-- ===== values

/-- `bool(value)`. -/
def truthy : Json → Bool
  | .null => false
  | .bool b => b
  | .int n => n ≠ 0
  | .float q => q ≠ 0
  | .str s => s ≠ []
  | .arr items => !items.isEmpty
  | .obj fields => !fields.isEmpty

def text (s : String) : Json := .str s.toList

/-- `fields.get(key, default)`. -/
def getD (fields : List (PyStr × Json)) (key : String) (default : Json) : Json :=
  (lookup fields key.toList).getD default

/-- What iterating over a value gives; it has a length exactly when it can
be iterated over. -/
def iterate : Json → Option (List Json)
  | .arr items => some items
  | .obj fields => some (fields.map fun field => .str field.1)
  | .str s => some (s.map fun c => .str [c])
  | _ => none

-- ===== title

def titleStopwords : List PyStr :=
  ["a", "an", "the", "and", "or", "but", "if", "then", "else", "please", "can", "could",
    "would", "should", "you", "your", "i", "we", "me", "my", "our", "us", "it", "its", "this",
    "that", "these", "those", "of", "in", "on", "at", "to", "for", "with", "is", "are", "was",
    "were", "be", "been", "being", "do", "does", "did", "have", "has", "had", "how", "what",
    "why", "when", "where", "which", "who", "whom", "there", "here", "about", "into", "from",
    "as", "by", "want", "need", "help", "hey", "hi", "hello", "okay", "ok", "just", "some",
    "any", "let", "lets"].map String.toList

def isTitleChar (c : Char) : Bool := Text.isAlnum c || c ∈ ['_', '.', '/', '-']

def titleWords (line : PyStr) : List PyStr :=
  (line.splitBy fun a b => isTitleChar a == isTitleChar b).filter fun word => word.all isTitleChar

def firstUser : List Json → Option Json
  | [] => some (.str [])
  | .obj fields :: rest =>
      match lookup fields "role".toList with
      | some (.str role) =>
          if role = "user".toList then some (getD fields "content" (.str [])) else firstUser rest
      | _ => firstUser rest
  | _ :: _ => none

def autoTitle (conversation : List Json) (maxWords : Nat := 6) (maxChars : Nat := 48) :
    Option PyStr :=
  match firstUser conversation with
  | some (.str content) =>
      let stripped := Text.strip content
      let asked :=
        if stripped.head? = some '/' then
          if ' ' ∈ stripped then
            (stripped.dropWhile fun c => !Text.isSpace c).dropWhile Text.isSpace
          else []
        else stripped
      let words := titleWords ((Text.splitlines asked).headD [])
      let significant := words.filter fun w => w.map Char.toLower ∉ titleStopwords
      let chosen := (if significant = [] then words else significant).take maxWords
      let title := Text.join [' '] chosen
      let shown :=
        if maxChars < title.length then
          (((title.take (maxChars - 1)).reverse.dropWhile Text.isSpace).reverse) ++ ['…']
        else title
      match shown with
      | [] => some "Untitled session".toList
      | c :: rest => some (c.toUpper :: rest)
  | _ => none

example : autoTitle [.obj [("role".toList, text "user"),
    ("content".toList, text " /run please fix the JWT refresh\nnow")]]
    = some "Fix JWT refresh".toList := by decide +kernel

-- ===== metadata

structure SessionMeta where
  id : Json
  title : Json
  createdAt : Json
  updatedAt : Json
  workspace : Json
  projectName : Json
  modelId : Json
  mode : Json := text "normal"
  tags : Json := .arr []
  totalTokens : Json := .int 0
  turnCount : Json := .int 0
  summary : Json := .null
  archived : Json := .bool false

/-- `asdict`. -/
def SessionMeta.fields (m : SessionMeta) : List (PyStr × Json) :=
  [("id".toList, m.id), ("title".toList, m.title), ("created_at".toList, m.createdAt),
    ("updated_at".toList, m.updatedAt), ("workspace".toList, m.workspace),
    ("project_name".toList, m.projectName), ("model_id".toList, m.modelId),
    ("mode".toList, m.mode), ("tags".toList, m.tags), ("total_tokens".toList, m.totalTokens),
    ("turn_count".toList, m.turnCount), ("summary".toList, m.summary),
    ("archived".toList, m.archived)]

/-- `Path(workspace).name if workspace else "unknown"`. -/
def projectName (workspace : Json) : Option Json :=
  if truthy workspace then
    match workspace with
    | .str s => some (.str (PurePath.parse s).name)
    | _ => none
  else some (text "unknown")

/-- `SessionMeta(**known)`: seven fields have no default. -/
def ofFields (raw : List (PyStr × Json)) : Option SessionMeta := do
  let id ← lookup raw "id".toList
  let title ← lookup raw "title".toList
  let createdAt ← lookup raw "created_at".toList
  let updatedAt ← lookup raw "updated_at".toList
  let workspace ← lookup raw "workspace".toList
  let projectName ← lookup raw "project_name".toList
  let modelId ← lookup raw "model_id".toList
  some {
    id, title, createdAt, updatedAt, workspace, projectName, modelId
    mode := getD raw "mode" (text "normal")
    tags := getD raw "tags" (.arr [])
    totalTokens := getD raw "total_tokens" (.int 0)
    turnCount := getD raw "turn_count" (.int 0)
    summary := getD raw "summary" .null
    archived := getD raw "archived" (.bool false) }

def ofLegacy (now : PyStr) (data : List (PyStr × Json)) : Option SessionMeta := do
  let items ← iterate (getD data "conversation" (.arr []))
  let title ← autoTitle items
  let project ← projectName (getD data "workspace" (.str []))
  some {
    id := getD data "id" (text "unknown")
    title := .str title
    createdAt := getD data "timestamp" (.str now)
    updatedAt := getD data "timestamp" (.str now)
    workspace := getD data "workspace" (.str [])
    projectName := project
    modelId := getD data "model_id" (text "unknown")
    turnCount := getD data "turn_count" (.int items.length) }

def metaFrom (now : PyStr) : Json → Option SessionMeta
  | .obj data =>
      if truthy (getD data "meta" .null) then
        match getD data "meta" .null with
        | .obj raw => ofFields raw
        | _ => none
      else ofLegacy now data
  | _ => none

/-- `data.get("conversation", [])`. -/
def conversationOf : Json → Json
  | .obj data => getD data "conversation" (.arr [])
  | _ => .null

def payload (m : SessionMeta) (conversation : Json) : Json :=
  .obj [("meta".toList, .obj m.fields), ("conversation".toList, conversation)]

theorem metaFrom_payload (now : PyStr) (m : SessionMeta) (conversation : Json) :
    metaFrom now (payload m conversation) = some m := rfl

-- ===== saving

/-- What `save` is given. -/
structure SaveArgs where
  conversation : Json
  workspace : Json
  modelId : Json
  mode : Json := text "normal"
  title : Json := .null
  tags : Json := .null
  totalTokens : Json := .int 0
  summary : Json := .null

/-- `title or auto_title(conversation)`. -/
def titleOf (args : SaveArgs) : Option Json :=
  if truthy args.title then some args.title
  else do
    let items ← iterate args.conversation
    (autoTitle items).map .str

/-- The metadata that `save` writes. -/
def buildMeta (now : PyStr) (id : Json) (existing : Option SessionMeta) (args : SaveArgs) :
    Option SessionMeta := do
  let title ← titleOf args
  let project ← projectName args.workspace
  let items ← iterate args.conversation
  some {
    id, title
    createdAt := (existing.map (·.createdAt)).getD (.str now)
    updatedAt := .str now
    workspace := args.workspace
    projectName := project
    modelId := args.modelId
    mode := args.mode
    tags := if truthy args.tags then args.tags else .arr []
    totalTokens := args.totalTokens
    turnCount := .int items.length
    summary := args.summary
    archived := (existing.map (·.archived)).getD (.bool false) }

/-- What a save says in the fields that a reader looks at. -/
structure Built (now : PyStr) (id : Json) (existing : Option SessionMeta) (args : SaveArgs)
    (m : SessionMeta) : Prop where
  id : m.id = id
  title : titleOf args = some m.title
  createdAt : m.createdAt = (existing.map (·.createdAt)).getD (.str now)
  updatedAt : m.updatedAt = .str now
  workspace : m.workspace = args.workspace
  mode : m.mode = args.mode
  tags : m.tags = if truthy args.tags then args.tags else .arr []
  totalTokens : m.totalTokens = args.totalTokens
  summary : m.summary = args.summary
  archived : m.archived = (existing.map (·.archived)).getD (.bool false)

theorem built {now : PyStr} {id : Json} {existing : Option SessionMeta} {args : SaveArgs}
    {m : SessionMeta} (h : buildMeta now id existing args = some m) :
    Built now id existing args m := by
  simp only [buildMeta, Option.bind_eq_bind, Option.bind_eq_some_iff] at h
  obtain ⟨title, htitle, project, -, items, -, h⟩ := h
  cases h
  exact ⟨rfl, htitle, rfl, rfl, rfl, rfl, rfl, rfl, rfl, rfl⟩

end Velune.Sessions
