/-
Which key is in effect, what is known of it (`providers/keystore.py`), and
its re-validation (`providers/verifier.py`).

The store is a table that many processes share. A commit is one step,
under the file lock, and leaves its process with the new table in its
cache; a read is of the cache, which may have been loaded again first.
Between two calls of the store anything may happen, and most of all
while the provider is asked.
-/
import Mathlib.Data.Char
import Velune.Providers.Keystore

namespace Velune.Providers

open Lib

-- ===== keys

def STATUS_INVALID : PyStr := "invalid".toList

/-- `bool(value)`. -/
def Value.truthy : Value → Bool
  | .str text => !text.isEmpty
  | .int n => n ≠ 0
  | .other json => !falsyJson.any fun text => json = text.toList

/-- `str(value)`; a list or a dictionary stays as it is in JSON. -/
def Value.text : Value → PyStr
  | .str text => text
  | .int n => (toString n).toList
  | .other json =>
      if json = "null".toList then "None".toList
      else if json = "true".toList then "True".toList
      else if json = "false".toList then "False".toList
      else json

/-- What the environment of a process holds: the value `_env_key` finds,
and `_prefer_env`. -/
structure Environ where
  key : PyStr → Option PyStr
  prefer : Bool

def storedKey (table : Table) (providerId : PyStr) : Option Value :=
  (table.get? providerId).bind fun record => record.get? "key".toList

def Environ.getKey (env : Environ) (table : Table) (providerId : PyStr) : Option Value :=
  match env.key providerId, storedKey table providerId with
  | none, stored => stored
  | some key, none => some (.str key)
  | some key, some stored => if env.prefer || !stored.truthy then some (.str key) else some stored

/-- `get_key(provider_id) or ""`. -/
def Environ.keyOrEmpty (env : Environ) (table : Table) (providerId : PyStr) : Value :=
  match env.getKey table providerId with
  | some key => if key.truthy then key else .str []
  | none => .str []

inductive KeySource
  | stored | environment | none
  deriving DecidableEq

def Environ.keySource (env : Environ) (table : Table) (providerId : PyStr) : KeySource :=
  let stored := (storedKey table providerId).any Value.truthy
  if (env.key providerId).isSome && (env.prefer || !stored) then .environment
  else if stored then .stored
  else .none

-- ===== states

inductive KeyState
  | verified | unverified | stale | invalid
  deriving DecidableEq

def statusText (record : Record) (default : PyStr) : PyStr :=
  match record.get? "status".toList with
  | some status => status.text
  | none => default

/-- `_stored_state`; `young` says of a stamp that it is a date, and not
older than the time a verification lasts. -/
def storedState (young : PyStr → Bool) (record : Record) : KeyState :=
  let status := legacyStatus ((statusText record []).map Char.toLower)
  if status = STATUS_INVALID then .invalid
  else if status ≠ STATUS_VERIFIED then .unverified
  else
    match record.get? "last_verified".toList with
    | none => .stale
    | some stamp => if stamp.truthy && young stamp.text then .verified else .stale

-- ===== marks

inductive ValidationStatus
  | ok | invalidKey | expiredKey | revokedKey | rateLimited | networkError | malformedKey
  | permissionDenied | unknownError | notSupported | timeout | providerUnavailable | unconfirmed
  deriving DecidableEq

def keyRejectingStatuses : List ValidationStatus := [.invalidKey, .expiredKey, .revokedKey]

structure ValidationResult where
  status : ValidationStatus
  message : PyStr
  models : Nat

/-- The arguments of an `update_status`, and whether they are the verdict
of a check. -/
structure StatusChange where
  status : PyStr
  extra : Record
  verdict : Bool

/-- What `mark_verified` passes on. -/
def markVerified (modelCount : Nat) (now : PyStr) : StatusChange :=
  ⟨STATUS_VERIFIED, [("model_count".toList, .int modelCount), ("last_checked".toList, .str now)], true⟩

/-- What `mark_invalid` passes on. -/
def markInvalid (reason now : PyStr) : StatusChange :=
  ⟨STATUS_INVALID, [("last_error".toList, .str (reason.take 200)), ("last_checked".toList, .str now)],
    true⟩

/-- The status `note_check_failure` reads. -/
def noteStatus (record : Record) : PyStr := legacyStatus (statusText record STATUS_UNVERIFIED)

def keptField (record : Record) (name : String) : Record :=
  match record.get? name.toList with
  | some value => if value.truthy then [(name.toList, value)] else []
  | none => []

/-- What `note_check_failure` passes on of the record it has read. -/
def noteCheckFailure (record : Record) (reason now : PyStr) : StatusChange :=
  ⟨noteStatus record,
    [("last_check_error".toList, .str (reason.take 200)), ("last_checked".toList, .str now)]
      ++ (if noteStatus record = STATUS_VERIFIED then keptField record "last_verified" else [])
      ++ (if noteStatus record = STATUS_INVALID then keptField record "last_error" else []),
    false⟩

def StatusChange.on (change : StatusChange) (now : PyStr) (record : Record) : Record :=
  updatedRecord record change.status now change.extra

-- ===== runs

/-- Where a `reverify` is. -/
inductive RunPhase
  /-- It waits for the provider. -/
  | validating
  /-- It is about to read the record. -/
  | noting (reason : PyStr)
  /-- It is about to look whether there is a record. -/
  | updating (change : StatusChange)
  /-- It is about to commit. -/
  | committing (change : StatusChange)

/-- A `reverify` in a process, and the key it validates. -/
structure Verification where
  process : Nat
  providerId : PyStr
  key : Value
  phase : RunPhase

/-- The store, the caches of the processes, and the runs in progress. -/
structure StoreState where
  table : Table
  caches : Assoc Nat Table
  runs : Assoc Nat Verification

inductive Look
  | cached
  | loads
  | fails

/-- `_ensure_cache`. -/
def StoreState.look (s : StoreState) (process : Nat) : Look → StoreState
  | .cached =>
      if (s.caches.get? process).isSome then s
      else { s with caches := s.caches.set process s.table }
  | .loads => { s with caches := s.caches.set process s.table }
  | .fails => { s with caches := s.caches.set process [] }

def StoreState.view (s : StoreState) (process : Nat) : Table := (s.caches.get? process).getD []

def StoreState.commit (s : StoreState) (process : Nat) (mutate : Table → Table) : StoreState :=
  { s with table := mutate s.table, caches := s.caches.set process (mutate s.table) }

def StoreState.go (s : StoreState) (n : Nat) (run : Verification) (phase : RunPhase) : StoreState :=
  { s with runs := s.runs.set n { run with phase := phase } }

def StoreState.drop (s : StoreState) (n : Nat) : StoreState := { s with runs := s.runs.pop n }

inductive Event
  | start (n process : Nat) (providerId : PyStr) (look : Look)
  | resume (n : Nat) (result : ValidationResult) (look : Look) (now : PyStr)
  | note (n : Nat) (look : Look) (now : PyStr)
  | check (n : Nat) (look : Look)
  | commit (n : Nat) (now : PyStr)
  /-- A run ends by an exception, or with its process. -/
  | drop (n : Nat)
  | save (process : Nat) (providerId key status now : PyStr)
  | delete (process : Nat) (providerId : PyStr) (look : Look)
  | update (process : Nat) (providerId status : PyStr) (extra : Record) (look : Look) (now : PyStr)

/-- `reverify`, from where the provider has answered. -/
def settle (result : ValidationResult) (now : PyStr) : RunPhase :=
  if result.status = .ok then .updating (markVerified result.models now)
  else if result.status ∈ keyRejectingStatuses then .updating (markInvalid result.message now)
  else .noting result.message

/-- One step of a run, or of another user of the store, which never passes
a key to `update_status`. -/
def storeStep (env : Nat → Environ) : Event → StoreState → Option StoreState
  | .start n process providerId look, s =>
      let s := s.look process look
      let key := (env process).keyOrEmpty (s.view process) providerId
      match s.runs.get? n with
      | none => some { s with runs := s.runs.set n ⟨process, providerId, key, .validating⟩ }
      | some _ => none
  | .resume n result look now, s =>
      match s.runs.get? n with
      | some ⟨process, providerId, key, .validating⟩ =>
          let s := s.look process look
          some (if (env process).keySource (s.view process) providerId = .stored then
              s.go n ⟨process, providerId, key, .validating⟩ (settle result now)
            else s.drop n)
      | _ => none
  | .note n look now, s =>
      match s.runs.get? n with
      | some ⟨process, providerId, key, .noting reason⟩ =>
          let s := s.look process look
          match (s.view process).get? providerId with
          | none => some (s.drop n)
          | some record =>
              some (s.go n ⟨process, providerId, key, .noting reason⟩
                (.updating (noteCheckFailure record reason now)))
      | _ => none
  | .check n look, s =>
      match s.runs.get? n with
      | some ⟨process, providerId, key, .updating change⟩ =>
          let s := s.look process look
          some (if ((s.view process).get? providerId).isSome then
              s.go n ⟨process, providerId, key, .updating change⟩ (.committing change)
            else s.drop n)
      | _ => none
  | .commit n now, s =>
      match s.runs.get? n with
      | some ⟨process, providerId, _, .committing change⟩ =>
          some ((s.drop n).commit process (applyStatus providerId change.status now change.extra))
      | _ => none
  | .drop n, s => some (s.drop n)
  | .save process providerId key status now, s =>
      some (s.commit process (applySave providerId (savedRecord key status now)))
  | .delete process providerId look, s =>
      let s := s.look process look
      some (if ((s.view process).get? providerId).isSome then
          s.commit process (applyDelete providerId)
        else s)
  | .update process providerId status extra look now, s =>
      let s := s.look process look
      if (Assoc.get? extra "key".toList).isSome then none
      else
        some (if ((s.view process).get? providerId).isSome then
            s.commit process (applyStatus providerId status now extra)
          else s)

end Velune.Providers
