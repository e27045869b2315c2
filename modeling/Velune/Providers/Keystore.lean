/-
The credential store (`providers/keystore.py`): a provider table, sealed
in one file, with a backup, a file lock across processes and a cache in
each.

A text that was sealed is put as the table `json.loads` makes of it, or
as `none` where it does not have one. A record's values are texts,
numbers, or other JSON, which is not looked into. Key revisions, log
messages and the texts of errors are left out, and so is `mkdir`.
-/
import Velune.Lib.Assoc
import Velune.Providers.Crypto

namespace Velune.Providers

open Lib

-- ===== tables

inductive Value
  | str (text : PyStr)
  | int (n : Int)
  | other (json : PyStr)
  deriving DecidableEq

abbrev Record := Assoc PyStr Value

abbrev Table := Assoc PyStr Record

abbrev Payload := Option Table

-- ===== memory

/-- What a `CredentialManager` remembers. -/
structure Memory where
  cache : Option Table := none
  cacheStamp : Option Nat := none
  /-- Whether there is a `load_error`. -/
  loadError : Bool := false
  loadKeyUnavailable : Bool := false
  loadFailedAt : Option Nat := none
  deriving DecidableEq

abbrev StoreCode (α : Type) := Code Payload Memory α

abbrev StoreHost := Host Payload Memory

def truncate (file : File) : StoreCode Bool := Prog.perform (Op.truncate file)

def writeBytes (file : File) (contents : Contents Payload) : StoreCode Bool :=
  Prog.perform (Op.writeBytes file contents)

def copy (source target : File) : StoreCode Bool := Prog.perform (Op.copy source target)

def setAside : StoreCode Bool := Prog.perform Op.setAside

def rename : StoreCode Bool := Prog.perform Op.rename

def quarantine : StoreCode Bool := Prog.perform Op.quarantine

def restrict : StoreCode Bool := Prog.perform Op.restrict

def unlink (file : File) : StoreCode Bool := Prog.perform (Op.unlink file)

def stamp (committed : Bool) : StoreCode (Option Nat) := Prog.perform (Op.stamp committed)

def acquire : StoreCode Bool := Prog.perform Op.acquire

def release : StoreCode PUnit := Prog.perform Op.release

def enter : StoreCode PUnit := Prog.perform Op.enter

def leave : StoreCode PUnit := Prog.perform Op.leave

def own (f : Memory → Memory) : StoreCode Memory := Prog.perform (Op.own f)

def monotonic : StoreCode Nat := Prog.perform Op.monotonic

/-- An operation that answers `false` for an `OSError`. -/
def orRaise (op : StoreCode Bool) : StoreCode PUnit := do
  if ← op then pure ⟨⟩ else throw .os

/-- `try: ... finally: ...`, where the clean-up does not raise. -/
def ensuring {α : Type} (body : StoreCode α) (cleanup : StoreCode PUnit) : StoreCode α :=
  body.rescue (fun e => do
    cleanup
    throw e) >>= fun a => do
  cleanup
  pure a

-- ===== reading

def decode (file : File) : StoreCode Table := do
  match ← readBytes file with
  | none => throw .os
  | some data =>
      if data.size = 0 then throw .emptyStore
      else
        match ← decryptCredentials data with
        | some table => pure table
        | none => throw .notATable

/-- `_decode` in a `try`. -/
def tryDecode (file : File) : StoreCode (Except Failure Table) :=
  Prog.rescue (do
    let table ← decode file
    pure (Except.ok table)) fun e => pure (Except.error e)

inductive StoreSource
  | primary | backup | empty
  deriving DecidableEq

/-- The end of `_read_store`, when neither file can be read. -/
def unreadable {α : Type} (primaryError : Failure) : StoreCode α := do
  if primaryError = .decryption then
    let found ← keyringLookup false
    if found.2 then throw .credentialStore else throw .credentialKeyUnavailable
  else throw .credentialStore

/-- `_read_store`, from where the primary was not read. -/
def readBackup (primaryError : Failure) : StoreCode (Table × StoreSource) := do
  if ← fileExists .backup then
    match ← tryDecode .backup with
    | .ok table => pure (table, .backup)
    | .error _ => unreadable primaryError
  else unreadable primaryError

def readStore : StoreCode (Table × StoreSource) := do
  if ← fileExists .primary then
    match ← tryDecode .primary with
    | .ok table => pure (table, .primary)
    | .error e =>
        if e = .emptyStore then
          if ← fileExists .backup then readBackup e else pure ([], .empty)
        else readBackup e
  else pure ([], .empty)

def Failure.isStoreError : Failure → Bool
  | .credentialStore => true
  | .credentialKeyUnavailable => true
  | _ => false

def loadDisk : StoreCode Table :=
  Prog.rescue (do
    let (table, _) ← readStore
    let _ ← own fun m => { m with loadError := false, loadKeyUnavailable := false }
    pure table) fun e => do
  if e.isStoreError then
    let _ ← own fun m =>
      { m with loadError := true, loadKeyUnavailable := e = .credentialKeyUnavailable }
    pure []
  else throw e

/-- `_LOAD_RETRY_SECONDS`, in milliseconds. -/
def LOAD_RETRY : Nat := 2000

def retryFailed (memory : Memory) : StoreCode Bool := do
  match memory.loadError, memory.loadFailedAt with
  | true, some failedAt => do
      let now ← monotonic
      pure (decide (failedAt + LOAD_RETRY ≤ now))
  | _, _ => pure false

/-- The reload of `_ensure_cache`. -/
def reload (newStamp : Option Nat) : StoreCode Table := do
  let table ← loadDisk
  let memory ← own fun m => { m with cache := some table, cacheStamp := newStamp }
  if memory.loadError then
    let now ← monotonic
    let _ ← own fun m => { m with loadFailedAt := some now }
  else
    let _ ← own fun m => { m with loadFailedAt := none }
  pure table

def ensureCache : StoreCode Table := do
  let newStamp ← stamp false
  let memory ← own id
  let retry ← retryFailed memory
  match memory.cache with
  | none => reload newStamp
  | some table =>
      if newStamp ≠ memory.cacheStamp || retry then reload newStamp else pure table

-- ===== writing

/-- `with locked(...)`; a timeout is a `CredentialStoreError`. -/
def exclusive {α : Type} (body : StoreCode α) : StoreCode α := do
  if ← acquire then ensuring body release else throw .credentialStore

/-- `_restrict`. -/
def restrictFile (file : File) : StoreCode PUnit := do
  if ← fileExists file then orRaise restrict else pure ⟨⟩

def keepOld : StoreSource → StoreCode PUnit
  | .primary => do
      orRaise (truncate .backup)
      orRaise (copy .primary .backup)
  | .backup => do
      if ← fileExists .primary then orRaise setAside else pure ⟨⟩
  | .empty => pure ⟨⟩

def writeStore (encrypted : Sealed Payload) (source : StoreSource) : StoreCode PUnit := do
  orRaise (truncate .temp)
  orRaise (writeBytes .temp (.sealed encrypted))
  keepOld source
  orRaise rename
  restrictFile .primary
  restrictFile .backup

def dropTemp : StoreCode PUnit := do
  if ← fileExists .temp then
    let _ ← unlink .temp
  pure ⟨⟩

/-- What `_transact` does under the lock. -/
def transactLocked (mutate : Table → Table) : StoreCode Table := do
  let (current, source) ← readStore
  let updated := mutate current
  let encrypted ← (encryptCredentials (some updated) true).rescue fun e =>
    throw (if e = .masterKeyUnavailable then .credentialStore else e)
  ensuring ((writeStore encrypted source).rescue fun e =>
    throw (if e = .os then .credentialStore else e)) dropTemp
  let written ← (decode .primary).rescue fun _ => throw .credentialStore
  if written = updated then pure updated else throw .credentialStore

def transact (mutate : Table → Table) : StoreCode Table := exclusive (transactLocked mutate)

/-- `_commit`. The stamp is taken after the lock was released. -/
def commit (mutate : Table → Table) : StoreCode PUnit := do
  let table ← transact mutate
  let _ ← own fun m => { m with cache := some table }
  let newStamp ← stamp true
  let _ ← own fun m => { m with cacheStamp := newStamp, loadError := false }
  pure ⟨⟩

-- ===== record API

/-- `with self._cache_lock`. -/
def withCacheLock {α : Type} (body : StoreCode α) : StoreCode α := do
  enter
  ensuring body leave

def getProvider (providerId : PyStr) : StoreCode (Option Record) :=
  withCacheLock do
    let table ← ensureCache
    pure (table.get? providerId)

def getAllProviders : StoreCode Table := withCacheLock ensureCache

def STATUS_VERIFIED : PyStr := "verified".toList

def STATUS_UNVERIFIED : PyStr := "unverified".toList

/-- `_LEGACY_STATUS_MAP.get(status, status)`. -/
def legacyStatus (status : PyStr) : PyStr :=
  if status = "valid".toList then STATUS_VERIFIED
  else if status = "imported".toList ∨ status = "unknown".toList then STATUS_UNVERIFIED
  else status

/-- The record `save_provider` saves; `now` is the time as text. -/
def savedRecord (key status now : PyStr) : Record :=
  let status := legacyStatus status
  let record : Record := [("key".toList, .str key), ("status".toList, .str status)]
  if status = STATUS_VERIFIED then record.set "last_verified".toList (.str now) else record

/-- `record.update(extra)`. -/
def Record.update (record : Record) (extra : Record) : Record :=
  extra.foldl (fun r e => Assoc.set r e.1 e.2) record

/-- The record `update_status` puts in the place of one. -/
def updatedRecord (record : Record) (status now : PyStr) (extra : Record) : Record :=
  let record := Assoc.pop (Assoc.set record "status".toList (.str status)) "last_error".toList
  let record := if status = STATUS_VERIFIED then record.set "last_verified".toList (.str now)
    else record
  Record.update record extra

/-- The `mutate` of `save_provider`. -/
def applySave (providerId : PyStr) (record : Record) (state : Table) : Table :=
  state.set providerId record

/-- The `mutate` of `update_status`. -/
def applyStatus (providerId status now : PyStr) (extra : Record) (state : Table) : Table :=
  match state.get? providerId with
  | none => state
  | some record => state.set providerId (updatedRecord record status now extra)

/-- The `mutate` of `delete_provider`. -/
def applyDelete (providerId : PyStr) (state : Table) : Table := state.pop providerId

def saveProvider (providerId key status now : PyStr) : StoreCode PUnit :=
  withCacheLock (commit (applySave providerId (savedRecord key status now)))

def commitKnown (providerId : PyStr) (mutate : Table → Table) : StoreCode PUnit :=
  withCacheLock do
    let table ← ensureCache
    if (table.get? providerId).isSome then commit mutate else pure ⟨⟩

def updateStatus (providerId status now : PyStr) (extra : Record) : StoreCode PUnit :=
  commitKnown providerId (applyStatus providerId status now extra)

def deleteProvider (providerId : PyStr) : StoreCode PUnit :=
  commitKnown providerId (applyDelete providerId)

-- ===== repair

def attemptBackupRestore : StoreCode Bool := do
  if ← fileExists .backup then
    match ← tryDecode .backup with
    | .error _ => pure false
    | .ok _ =>
        Prog.rescue (do
          if ← fileExists .primary then orRaise setAside
          orRaise (truncate .primary)
          orRaise (copy .backup .primary)
          pure true) fun _ => pure false
  else pure false

def falsyJson : List String := ["null", "false", "[]", "\x7b\x7d", "0.0", "-0.0"]

def Record.keyless (record : Record) : Bool :=
  match record.get? "key".toList with
  | none => true
  | some (.str key) => key.isEmpty
  | some (.int n) => n = 0
  | some (.other json) => falsyJson.any fun text => json = text.toList

def deleteAll : List PyStr → StoreCode PUnit
  | [] => pure ⟨⟩
  | providerId :: rest => do
      deleteProvider providerId
      deleteAll rest

/-- The end of `repair_keystore`: records without a key are deleted. -/
def purgeKeyless : StoreCode PUnit := do
  let current ← getAllProviders
  deleteAll ((current.filter fun e => Record.keyless e.2).map (·.1))

/-- `repair_keystore`, without its report. -/
def repairKeystore : StoreCode PUnit := do
  let memory ← withCacheLock do
    let _ ← own fun m => { m with cache := none }
    let _ ← ensureCache
    own id
  if memory.loadError && memory.loadKeyUnavailable then pure ⟨⟩
  else
    if memory.loadError then
      if !(← attemptBackupRestore) then
        let _ ← quarantine
      withCacheLock do
        let _ ← own fun m => { m with cache := none }
        pure ⟨⟩
    purgeKeyless

end Velune.Providers
