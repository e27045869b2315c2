/-
The session store (`cli/sessions.py`): one file a session, a sidecar that
guards the live conversation against a crash, and writes that go through a
temporary file.

A call is what it reads, and the changes to the disk that it then makes
one after the other; a crash comes between two of them, or in the middle
of a write. Files are JSON values. The store's directory is there.
-/
import Velune.Lib.Runs
import Velune.Sessions.Meta

namespace Velune.Sessions

open Lib Lib.Json

-- ===== disk

/-- A text that is one name, without a dot: letters, digits and hyphens
among others. -/
abbrev SessionId := { s : PyStr // s ≠ [] ∧ ∀ c ∈ s, c ≠ '/' ∧ c ≠ '.' ∧ c ≠ '\x00' }

/-- The files of a session: its own, the sidecar, and the temporary files
that become them. -/
inductive Place
  | session (id : SessionId)
  | sessionTemp (id : SessionId)
  | sidecar (id : SessionId)
  | sidecarTemp (id : SessionId)
  deriving DecidableEq

def Place.path : Place → List PyStr
  | .session id => [id.1 ++ ".json".toList]
  | .sessionTemp id => [id.1 ++ ".json.tmp".toList]
  | .sidecar id => [".autosave".toList, id.1 ++ ".json".toList]
  | .sidecarTemp id => [".autosave".toList, id.1 ++ ".json.tmp".toList]

/-- The value of a file, if its text is JSON, and when its conversation was
handed to the store. -/
structure File where
  value : Option Json
  said : Nat

abbrev Disk := Place → Option File

def put (disk : Disk) (place : Place) (file : Option File) : Disk :=
  fun other => if other = place then file else disk other

inductive Effect
  | write (place : Place) (file : File)
  | replace (source target : Place)
  | unlink (place : Place)

def Effect.apply (disk : Disk) : Effect → Disk
  | .write place file => put disk place (some file)
  | .replace source target => put (put disk target (disk source)) source none
  | .unlink place => put disk place none

def applyAll (disk : Disk) (effects : List Effect) : Disk := effects.foldl Effect.apply disk

/-- A temporary file is written, in pieces that are no JSON, and takes the
place of the file. -/
def writeFile (temp target : Place) (file : File) : List Effect :=
  [.write temp { file with value := none }, .write temp file, .replace temp target]

/-- `_read`: a file with `null` reads as none. -/
def read (disk : Disk) (id : SessionId) : Option Json :=
  match (disk (.session id)).bind (·.value) with
  | some .null => none
  | value => value

-- ===== calls

/-- What `save` is called with; `none` is what the call leaves out. -/
structure SaveCall where
  conversation : List Json
  workspace : PyStr
  modelId : PyStr
  mode : Option PyStr := none
  title : Option PyStr := none
  tags : Option (List PyStr) := none
  totalTokens : Option Int := none
  summary : Option PyStr := none

def orNull : Option PyStr → Json
  | some s => .str s
  | none => .null

def SaveCall.args (call : SaveCall) : SaveArgs where
  conversation := .arr call.conversation
  workspace := .str call.workspace
  modelId := .str call.modelId
  mode := .str (call.mode.getD "normal".toList)
  title := orNull call.title
  tags := match call.tags with
    | some tags => .arr (tags.map .str)
    | none => .null
  totalTokens := .int (call.totalTokens.getD 0)
  summary := orNull call.summary

structure AutosaveCall where
  conversation : List Json
  workspace : PyStr
  modelId : PyStr
  mode : PyStr := "normal".toList
  totalTokens : Int := 0
  pid : Int
  host : PyStr

inductive Call
  /-- With the id that a new session gets. -/
  | save (sessionId : Option SessionId) (minted : SessionId) (call : SaveCall)
  | rename (id : SessionId) (newTitle : PyStr)
  | setArchived (id : SessionId) (archived : Bool)
  | autosave (id : SessionId) (call : AutosaveCall)
  | clearAutosave (id : SessionId)
  | recoverAutosave (id : SessionId)
  | discardAutosave (id : SessionId)
  | delete (id : SessionId)

inductive Result
  | raised
  | nothing
  | flag (value : Bool)
  | saved (written : SessionMeta)

def writeSession (id : SessionId) (m : SessionMeta) (conversation : Json) (said : Nat) :
    List Effect :=
  writeFile (.sessionTemp id) (.session id) { value := some (payload m conversation), said }

/-- `save` with an id that may be there. -/
def saveAs (now : PyStr) (disk : Disk) (id : SessionId) (args : SaveArgs) (said : Nat) :
    Result × List Effect :=
  let existing :=
    match read disk id with
    | some data => (metaFrom now data).map some
    | none => some none
  match existing with
  | some existing =>
      match buildMeta now (.str id.1) existing args with
      | some m => (.saved m, writeSession id m args.conversation said)
      | none => (.raised, [])
  | none => (.raised, [])

/-- A change of the metadata alone, by `rename` or `set_archived`. -/
def edit (now : PyStr) (disk : Disk) (id : SessionId) (change : SessionMeta → SessionMeta)
    (result : SessionMeta → Result) (absent : Result) : Result × List Effect :=
  match disk (.session id), read disk id with
  | some file, some data =>
      match metaFrom now data with
      | some m =>
          (result (change m), writeSession id (change m) (conversationOf data) file.said)
      | none => (.raised, [])
  | _, _ => (absent, [])

def sidecarValue (m : SessionMeta) (call : AutosaveCall) : Json :=
  .obj [("meta".toList, .obj m.fields), ("conversation".toList, .arr call.conversation),
    ("crash_guard".toList, .bool true), ("pid".toList, .int call.pid), ("host".toList, .str call.host)]

def autosave (now : PyStr) (id : SessionId) (call : AutosaveCall) (said : Nat) :
    Result × List Effect :=
  match autoTitle call.conversation, projectName (.str call.workspace) with
  | some title, some project =>
      let m : SessionMeta :=
        { id := .str id.1, title := .str title, createdAt := .str now, updatedAt := .str now
          workspace := .str call.workspace, projectName := project, modelId := .str call.modelId
          mode := .str call.mode, totalTokens := .int call.totalTokens
          turnCount := .int call.conversation.length }
      (.nothing, writeFile (.sidecarTemp id) (.sidecar id) { value := some (sidecarValue m call), said })
  | _, _ => (.raised, [])

/-- What `recover_autosave` saves: what the sidecar says, without tags and
summary. -/
def recoverArgs (m : SessionMeta) (data : Json) : SaveArgs where
  conversation := conversationOf data
  workspace := m.workspace
  modelId := m.modelId
  mode := m.mode
  title := m.title
  totalTokens := m.totalTokens

def recoverAutosave (now : PyStr) (disk : Disk) (id : SessionId) : Result × List Effect :=
  match disk (.sidecar id) with
  | some { value := some data, said } =>
      match metaFrom now data with
      | some m =>
          match saveAs now disk id (recoverArgs m data) said with
          | (.saved written, effects) => (.saved written, effects ++ [.unlink (.sidecar id)])
          | other => other
      | none => (.raised, [])
  | _ => (.nothing, [])

def remove (disk : Disk) (place : Place) : Result × List Effect :=
  match disk place with
  | some _ => (.flag true, [.unlink place])
  | none => (.flag false, [])

def perform (now : PyStr) (clock : Nat) (disk : Disk) : Call → Result × List Effect
  | .save (some id) _ call => saveAs now disk id call.args clock
  | .save none minted call =>
      match buildMeta now (.str minted.1) none call.args with
      | some m => (.saved m, writeSession minted m call.args.conversation clock)
      | none => (.raised, [])
  | .rename id newTitle =>
      if Text.strip newTitle = [] then (.raised, [])
      else edit now disk id (fun m => { m with title := .str (Text.strip newTitle) }) .saved .nothing
  | .setArchived id archived =>
      edit now disk id (fun m => { m with archived := .bool archived }) (fun _ => .flag true)
        (.flag false)
  | .autosave id call => autosave now id call clock
  | .clearAutosave id => (.nothing, [.unlink (.sidecar id)])
  | .recoverAutosave id => recoverAutosave now disk id
  | .discardAutosave id => remove disk (.sidecar id)
  | .delete id => remove disk (.session id)

-- ===== runs

structure SessionStore where
  disk : Disk
  clock : Nat := 0
  /-- What sessions were to be, all that was ever handed to a write. -/
  written : List (SessionId × Json) := []

structure Step where
  call : Call
  now : PyStr
  cut : Nat

def SessionStore.effects (s : SessionStore) (a : Step) : List Effect :=
  (perform a.now s.clock s.disk a.call).2

def SessionStore.after (s : SessionStore) (a : Step) : Disk :=
  applyAll s.disk ((s.effects a).take a.cut)

def Effect.handed? : Effect → Option (SessionId × Json)
  | .write (.sessionTemp id) { value := some value, .. } => some (id, value)
  | _ => none

def storeStep (a : Step) (s : SessionStore) : Option SessionStore :=
  some
    { disk := s.after a
      clock := s.clock + 1
      written := s.written ++ (s.effects a).filterMap Effect.handed? }

end Velune.Sessions
