/-
The lifecycle journal (`lifecycle/journal.py`): what an operation intends to
change, written before it begins and read by the next run.

A call of `write_journal` is taken apart at its steps on the file system. Its
temporary file has a name of its own, so that of it only the bytes count; a
step that the system refuses raises, and a crash may come at any point.
Strings are code points, as `json` takes them.
-/
import Velune.Core.Redaction
import Velune.Lib.Codec
import Velune.Lib.JsonSort
import Velune.Lib.Runs

namespace Velune.Lifecycle

open Lib
open Lib.JsonText (Str Value CodePoint LoadError ofText)

-- ===== entries

def SCHEMA_VERSION : Int := 1

def OPERATIONS : List Str := ["update", "repair", "uninstall"].map fun name => ofText name.toList

def PHASES : List Str := ["planned", "applying"].map fun name => ofText name.toList

def MAX_JOURNAL_BYTES : Nat := 64 * 1024

structure JournalEntry where
  operation : Str
  phase : Str
  startedAt : Str
  fromVersion : Option Str
  specifier : Option Str
  extras : List Str := []
  pythonVersion : Option Str := none
  pythonBase : Option Str := none
  toVersion : Option Str := none
  installer : Str := ofText "uv".toList
  schemaVersion : Int := SCHEMA_VERSION
  deriving DecidableEq

def key (name : String) : Str := ofText name.toList

def optional : Option Str → Value
  | none => .null
  | some s => .str s

def JournalEntry.toJsonDict (e : JournalEntry) : Assoc Str Value :=
  [(key "operation", .str e.operation), (key "phase", .str e.phase),
    (key "started_at", .str e.startedAt), (key "from_version", optional e.fromVersion),
    (key "specifier", optional e.specifier), (key "extras", .list (e.extras.map .str)),
    (key "python_version", optional e.pythonVersion), (key "python_base", optional e.pythonBase),
    (key "to_version", optional e.toVersion), (key "installer", .str e.installer),
    (key "schema_version", .int e.schemaVersion)]

inductive OwnershipKind
  | uvTool
  | notUv
  | editable
  | ambiguous
  | indeterminate
  deriving DecidableEq

/-- What `new_entry` reads of a report. -/
structure OwnershipReport where
  kind : OwnershipKind
  version : Option Str
  specifier : Option Str
  extras : List Str
  pythonBase : Option Str

def OwnershipReport.mutationAllowed (report : OwnershipReport) : Bool := report.kind == .uvTool

/-- The `ValueError` of `new_entry`. -/
inductive Refused
  | unknownOperation (operation : Str)
  | notConfirmed
  deriving DecidableEq

/-- `new_entry`; `stamp` is the time as text. -/
def newEntry (operation : Str) (report : OwnershipReport) (pythonVersion : Str)
    (toVersion : Option Str) (stamp : Str) : Except Refused JournalEntry :=
  if operation ∉ OPERATIONS then .error (.unknownOperation operation)
  else if !report.mutationAllowed then .error .notConfirmed
  else .ok {
    operation := operation
    phase := key "planned"
    startedAt := stamp
    fromVersion := report.version
    specifier := report.specifier
    extras := report.extras
    pythonVersion := some pythonVersion
    pythonBase := report.pythonBase
    toVersion := toVersion }

/-- What `write_journal` puts into its file. -/
def journalText (e : JournalEntry) : List Char :=
  JsonText.dumps (JsonText.indented 2) (.dict e.toJsonDict) ++ ['\n']

def journalBytes (e : JournalEntry) : List UInt8 := Utf8.encode (journalText e)

-- ===== secrets

section

variable (isWord : Char → Bool) (env : PyStr → Option RawStr)

def raw (s : Str) : RawStr :=
  s.map fun p =>
    match p with
    | .char c => some c
    | _ => none

def looksSecret : Value → Bool
  | .str s => Core.redactSecrets isWord env (raw s) != raw s
  | _ => false

/-- `_refuse_if_secret`: the field that is not persisted. -/
def refuseIfSecret (data : Assoc Str Value) : Option Str :=
  (data.find? fun entry =>
    match entry.2 with
    | .list items => items.any (looksSecret isWord env)
    | value => looksSecret isWord env value).map Prod.fst

end

-- ===== writing

inductive AtPath
  | missing
  /-- A link, a directory or a special file. -/
  | irregular
  | unreadable
  | file (bytes : List UInt8)
  deriving DecidableEq

inductive WriteError
  /-- A `ValueError`: a field looks like a credential. -/
  | secret (field : Str)
  /-- `journal_exists`. -/
  | refused
  /-- `journal_race`. -/
  | busy
  | os
  deriving DecidableEq

/-- Where a call of `write_journal` is. -/
inductive Stage
  | start
  /-- it has looked once -/
  | looked
  /-- its temporary file is complete -/
  | prepared
  /-- it has looked again -/
  | clear
  | replaced
  | returned
  | raised (error : WriteError)
  | crashed
  deriving DecidableEq

structure Call where
  entry : JournalEntry
  stage : Stage := .start
  /-- Its `os.replace` was carried out. -/
  wrote : Bool := false

structure Sys where
  target : AtPath
  calls : Nat → Call

def Sys.move (s : Sys) (i : Nat) (stage : Stage) : Sys :=
  { s with calls := Function.update s.calls i { s.calls i with stage := stage } }

inductive Act
  | look
  | prepare
  | lookAgain
  | replace
  | finish
  | fail
  | crash
  deriving DecidableEq

section

variable (isWord : Char → Bool) (env : PyStr → Option RawStr)

/-- One step of call `i`. -/
def step (a : Nat × Act) (s : Sys) : Option Sys :=
  let i := a.1
  match a.2, (s.calls i).stage with
  | .look, .start =>
      match refuseIfSecret isWord env (s.calls i).entry.toJsonDict with
      | some field => some (s.move i (.raised (.secret field)))
      | none => some (s.move i (if s.target = .missing then .looked else .raised .refused))
  | .prepare, .looked => some (s.move i .prepared)
  | .lookAgain, .prepared =>
      some (s.move i (if s.target = .missing then .clear else .raised .busy))
  | .replace, .clear =>
      some {
        target := .file (journalBytes (s.calls i).entry)
        calls := Function.update s.calls i { s.calls i with stage := .replaced, wrote := true } }
  | .finish, .replaced => some (s.move i .returned)
  | .fail, .looked => some (s.move i (.raised .os))
  | .fail, .prepared => some (s.move i (.raised .os))
  | .fail, .clear => some (s.move i (.raised .os))
  | .crash, .returned => none
  | .crash, .raised _ => none
  | .crash, .crashed => none
  | .crash, _ => some (s.move i .crashed)
  | _, _ => none

end

-- ===== reading

inductive JournalState
  | missing
  | ok
  | incomplete
  | malformed
  deriving DecidableEq

structure JournalRead where
  state : JournalState
  entry : Option JournalEntry := none
  problem : Option PyStr := none
  deriving DecidableEq

def malformed (problem : String) : JournalRead :=
  { state := .malformed, problem := some problem.toList }

/-- `_str_or_none`, of what `get` gives. -/
def strOrNone : Option Value → Except PyStr (Option Str)
  | none => .ok none
  | some .null => .ok none
  | some (.str s) => .ok (some s)
  | some _ => .error "expected a string".toList

def strings : List Value → Option (List Str)
  | [] => some []
  | .str s :: items => (strings items).map (s :: ·)
  | _ :: _ => none

def oneOf (names : List Str) : Option Value → Option Str
  | some (.str s) => if s ∈ names then some s else none
  | _ => none

def required : List String :=
  ["operation", "phase", "started_at", "from_version", "specifier", "extras"]

/-- The entry, of an object with the required fields; the text of a `TypeError`
where one of them is not what it should be. -/
def readEntry (data : Assoc Str Value) : Except PyStr JournalEntry := do
  let some extras := (match data.get? (key "extras") with
      | some (.list items) => strings items
      | _ => none) | .error "extras must be a list of strings".toList
  let some operation := oneOf OPERATIONS (data.get? (key "operation"))
    | .error "unknown operation or phase".toList
  let some phase := oneOf PHASES (data.get? (key "phase"))
    | .error "unknown operation or phase".toList
  let some (.str startedAt) := data.get? (key "started_at")
    | .error "started_at must be a string".toList
  let .str installer := (data.get? (key "installer")).getD (.str (ofText "uv".toList))
    | .error "installer must be a string".toList
  let fromVersion ← strOrNone (data.get? (key "from_version"))
  let specifier ← strOrNone (data.get? (key "specifier"))
  let pythonVersion ← strOrNone (data.get? (key "python_version"))
  let pythonBase ← strOrNone (data.get? (key "python_base"))
  let toVersion ← strOrNone (data.get? (key "to_version"))
  .ok {
    operation := operation
    phase := phase
    startedAt := startedAt
    fromVersion := fromVersion
    specifier := specifier
    extras := extras
    pythonVersion := pythonVersion
    pythonBase := pythonBase
    toVersion := toVersion
    installer := installer }

section

/- `isOne` tells of the literal of a float whether it equals one, and `limit`
is how many levels of containers the interpreter's recursion limit lets
`json.loads` read. -/
variable (isOne : List Char → Bool) (limit : Nat)

/-- Equal to `SCHEMA_VERSION`. -/
def isSchema : Option Value → Bool
  | some (.int n) => n == SCHEMA_VERSION
  | some (.bool b) => b
  | some (.float literal) => isOne literal
  | _ => false

/-- What `read_journal` makes of a JSON value. -/
def readValue : Value → JournalRead
  | .dict data =>
      if !isSchema isOne (Assoc.get? data (key "schema_version")) then
        malformed "unsupported journal schema version"
      else
        match required.filter fun name => (Assoc.get? data (key name)).isNone with
        | [] =>
            match readEntry data with
            | .ok entry => { state := .ok, entry := some entry }
            | .error problem => { state := .malformed, problem := some problem }
        | missing =>
            { state := .incomplete
              problem := some ("missing fields: ".toList
                ++ Text.join ", ".toList (missing.map String.toList)) }
  | _ => malformed "journal is not a JSON object"

/-- `read_journal`; an error is a `RecursionError` that it raises. -/
def readJournal : AtPath → Except Unit JournalRead
  | .missing => .ok { state := .missing }
  | .irregular => .ok (malformed "journal path is not a regular file")
  | .unreadable => .ok (malformed "journal file is unreadable")
  | .file bytes =>
      if MAX_JOURNAL_BYTES < bytes.length then
        .ok (malformed "journal file is unreasonably large")
      else
        match Codec.utf8.decode bytes with
        | none => .ok (malformed "journal file is unreadable")
        | some text =>
            match JsonText.loads limit (Text.universalNewlines text) with
            | .error .value => .ok (malformed "journal file is not valid JSON")
            | .error .recursion => .error ()
            | .ok value => .ok (readValue isOne value)

end

end Velune.Lifecycle
