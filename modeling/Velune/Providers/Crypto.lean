/-
The encryption layer of the credential store (`providers/crypto.py`):
where a master key comes from, in which order, and what is tried to open
a store.

Each function is a program over the operations of the host, one operation
for each access to the keyring, the environment, the passphrase file, the
store and the terminal. Log messages are left out; the one-time warning
about weak protection with them.
-/
import Velune.Providers.Host

namespace Velune.Providers

open Lib

inductive Failure
  /-- `ValueError`: too short to hold a nonce. -/
  | tooShort
  /-- `DecryptionError`. -/
  | decryption
  | masterKeyUnavailable
  | os
  /-- `_EmptyStoreFile`. -/
  | emptyStore
  /-- The decrypted text is not a provider table. -/
  | notATable
  /-- A record that is not a dictionary, as one. -/
  | typeError
  /-- `CredentialStoreError`, and `CredentialKeyUnavailable` apart from
  it. -/
  | credentialStore
  | credentialKeyUnavailable
  deriving DecidableEq

abbrev Code (π κ α : Type) := Prog (Op π κ) (Ans π κ) Failure α

variable {π κ : Type}

-- ===== operations

def getPassword (creates : Bool) : Code π κ Lookup := Prog.perform (Op.getPassword creates)

def generateKey : Code π κ MasterKey := Prog.perform Op.generateKey

def setPassword (key : MasterKey) : Code π κ Bool := Prog.perform (Op.setPassword key)

def environ : Code π κ (Option PyStr) := Prog.perform Op.environ

def readPassphrase : Code π κ PassphraseFile := Prog.perform Op.readPassphrase

def emptyPassphrase : Code π κ Bool := Prog.perform Op.emptyPassphrase

def writePassphrase (passphrase : PyStr) : Code π κ Bool := Prog.perform (Op.writePassphrase passphrase)

def prompt : Code π κ (Option PyStr) := Prog.perform Op.prompt

def encrypt (key : MasterKey) (text : π) : Code π κ (Sealed π) := Prog.perform (Op.encrypt key text)

def fileExists (file : File) : Code π κ Bool := Prog.perform (Op.fileExists file)

def fileSize (file : File) : Code π κ (Option Nat) := Prog.perform (Op.size file)

def readBytes (file : File) : Code π κ (Option (Contents π)) := Prog.perform (Op.readBytes file)

-- ===== the sources

/-- `_persist_passphrase`: the file is emptied, then written; an error
is not one of the call. -/
def persistPassphrase (passphrase : PyStr) : Code π κ PUnit := do
  if ← emptyPassphrase then
    let _ ← writePassphrase passphrase
  pure ⟨⟩

/-- `_stored_passphrase`. A file from before it was encrypted is written
again. -/
def storedPassphrase : Code π κ (Option PyStr) := do
  match ← readPassphrase with
  | .missing => pure none
  | .empty => pure none
  | .encrypted passphrase => pure passphrase
  | .plain none => pure none
  | .plain (some legacy) =>
      if legacy = [] then pure none
      else
        persistPassphrase legacy
        pure (some legacy)

def promptForPassphrase : Code π κ (Option PyStr) := do
  match ← prompt with
  | none => pure none
  | some entered =>
      let passphrase := Text.strip entered
      pure (if passphrase = [] then none else some passphrase)

def derivedKey : Option PyStr → Option MasterKey
  | none => none
  | some passphrase => if passphrase = [] then none else some (.derived passphrase)

def passphraseMasterKey : Code π κ (Option MasterKey) := do
  match derivedKey (← environ) with
  | some key => pure (some key)
  | none => do
      let stored ← storedPassphrase
      pure (derivedKey stored)

/-- `_keyring_lookup`: the key, and whether the keyring answered. -/
def keyringLookup (creates : Bool) : Code π κ (Option MasterKey × Bool) := do
  match ← getPassword creates with
  | .failed => pure (none, false)
  | .answered .absent => pure (none, true)
  | .answered (.key key) => pure (some key, true)
  | .answered .damaged => pure (none, false)

def keyringCreateKey : Code π κ (Option MasterKey) := do
  let newKey ← generateKey
  if ← setPassword newKey then pure (some newKey) else pure none

def keyWithoutKeyring : Code π κ MasterKey := do
  match ← passphraseMasterKey with
  | some key => pure key
  | none =>
      if ← fileExists .primary then pure .fallback
      else
        match ← promptForPassphrase with
        | some chosen => do
            persistPassphrase chosen
            pure (.derived chosen)
        | none => pure .fallback

def getOrCreateMasterKey : Code π κ MasterKey := do
  match ← keyringLookup true with
  | (some key, _) => pure key
  | (none, true) => do
      match ← keyringCreateKey with
      | some key => pure key
      | none => keyWithoutKeyring
  | (none, false) => keyWithoutKeyring

/-- `_candidate_master_keys`, before duplicates are dropped. -/
def candidateMasterKeys : List (Code π κ (Option MasterKey)) :=
  [do
    let key ← getOrCreateMasterKey
    pure (some key),
   passphraseMasterKey,
   pure (some .fallback)]

-- ===== opening

/-- `AESGCM(key).decrypt` of the bytes of a file. -/
def Contents.decrypt : Contents π → MasterKey → Option π
  | .junk _, _ => none
  | .sealed blob, key => blob.decrypt key

/-- The loop over the candidates: one that was seen is not tried again. -/
def tryKeys (data : Contents π) :
    List (Code π κ (Option MasterKey)) → List MasterKey → Code π κ π
  | [], _ => throw .decryption
  | candidate :: rest, seen => do
      match ← candidate with
      | none => tryKeys data rest seen
      | some key =>
          if key ∈ seen then tryKeys data rest seen
          else
            match data.decrypt key with
            | some text => pure text
            | none => tryKeys data rest (key :: seen)

def decryptCredentials (data : Contents π) : Code π κ π :=
  if data.size < 12 then throw .tooShort else tryKeys data candidateMasterKeys []

-- ===== sealing

def MIN_STORE_BYTES : Nat := 12 + 16

def opensWithFallbackKey (file : File) : Code π κ Bool := do
  match ← readBytes file with
  | none => pure false
  | some data =>
      pure (decide (MIN_STORE_BYTES ≤ data.size) && (data.decrypt .fallback).isSome)

def isStore (file : File) : Code π κ Bool := do
  if ← fileExists file then
    match ← fileSize file with
    | none => throw .os
    | some size => pure (decide (MIN_STORE_BYTES ≤ size))
  else pure false

def weakKeyWriteIsSafe : Code π κ Bool := do
  let primary ← isStore .primary
  let backup ← isStore .backup
  if !primary && !backup then pure true
  else if primary then
    if ← opensWithFallbackKey .primary then pure true
    else if backup then opensWithFallbackKey .backup
    else pure false
  else opensWithFallbackKey .backup

def encryptCredentials (plaintext : π) (protectStore : Bool) : Code π κ (Sealed π) := do
  let key ← getOrCreateMasterKey
  if protectStore && key = .fallback then
    if ← weakKeyWriteIsSafe then encrypt key plaintext
    else throw .masterKeyUnavailable
  else encrypt key plaintext

-- ===== what they perform

/-- The operations of this layer, but for those that create a keyring
key. -/
def Op.plain : Op π κ → Prop
  | .getPassword creates => creates = false
  | .generateKey | .environ | .readPassphrase | .emptyPassphrase | .writePassphrase _ | .prompt
  | .encrypt _ _ | .fileExists _ | .size _ | .readBytes _ => True
  | _ => False

def Op.crypto : Op π κ → Prop
  | .getPassword _ => True
  | .setPassword _ => True
  | op => op.plain

theorem Op.plain.crypto {op : Op π κ} (h : op.plain) : op.crypto := by
  cases op with
  | getPassword creates => exact trivial
  | setPassword key => exact trivial
  | _ => exact h

theorem Op.plain.quiet {op : Op π κ} (h : op.plain) : op.quiet := by
  cases op with
  | getPassword creates => exact h
  | setPassword key => exact h
  | _ => exact trivial

theorem exec_crypto {who : Who Pid} {op : Op π κ} (s : Host π κ) (h : op.crypto) :
    ∃ c a s', exec who op c s = some (a, s') := by
  cases op with
  | getPassword creates =>
      by_cases hanswers : s.answering = true
      · exact ⟨.succeeds, _, _, if_pos hanswers⟩
      · exact ⟨.succeeds, _, _, if_neg hanswers⟩
  | setPassword key =>
      by_cases hanswers : s.answering = true
      · exact ⟨.succeeds, _, _, if_pos hanswers⟩
      · exact ⟨.succeeds, _, _, if_neg hanswers⟩
  | prompt => exact ⟨.typed none, _, _, rfl⟩
  | generateKey | environ | readPassphrase | emptyPassphrase | writePassphrase | encrypt
  | fileExists | size | readBytes => exact ⟨.succeeds, _, _, rfl⟩
  | _ => exact h.elim

open Prog (uses_bind uses_pure uses_throw uses_perform uses_ite)

theorem persistPassphrase_plain (passphrase : PyStr) :
    (persistPassphrase passphrase : Code π κ PUnit).Uses Op.plain := by
  refine uses_bind (uses_perform trivial) fun emptied => ?_
  cases emptied with
  | false => exact uses_pure _
  | true => exact uses_bind (uses_perform trivial) fun _ => uses_pure _

theorem storedPassphrase_plain : (storedPassphrase : Code π κ (Option PyStr)).Uses Op.plain := by
  refine uses_bind (uses_perform trivial) fun file => ?_
  cases file with
  | plain text =>
      cases text with
      | none => exact uses_pure _
      | some legacy =>
          exact uses_ite (uses_pure _)
            (uses_bind (persistPassphrase_plain legacy) fun _ => uses_pure _)
  | _ => exact uses_pure _

theorem passphraseMasterKey_plain :
    (passphraseMasterKey : Code π κ (Option MasterKey)).Uses Op.plain := by
  refine uses_bind (uses_perform trivial) fun value => ?_
  cases derivedKey value with
  | some key => exact uses_pure _
  | none => exact uses_bind storedPassphrase_plain fun _ => uses_pure _

theorem promptForPassphrase_plain :
    (promptForPassphrase : Code π κ (Option PyStr)).Uses Op.plain := by
  refine uses_bind (uses_perform trivial) fun entered => ?_
  cases entered with
  | none => exact uses_pure _
  | some text => exact uses_pure _

theorem keyWithoutKeyring_plain : (keyWithoutKeyring : Code π κ MasterKey).Uses Op.plain := by
  refine uses_bind passphraseMasterKey_plain fun found => ?_
  cases found with
  | some key => exact uses_pure _
  | none =>
      refine uses_bind (uses_perform trivial) fun present => ?_
      cases present with
      | true => exact uses_pure _
      | false =>
          refine uses_bind promptForPassphrase_plain fun chosen => ?_
          cases chosen with
          | none => exact uses_pure _
          | some chosen =>
              exact uses_bind (persistPassphrase_plain chosen) fun _ => uses_pure _

theorem isStore_plain (file : File) : (isStore file : Code π κ Bool).Uses Op.plain := by
  refine uses_bind (uses_perform trivial) fun present => ?_
  cases present with
  | false => exact uses_pure _
  | true =>
      refine uses_bind (uses_perform trivial) fun size => ?_
      cases size with
      | none => exact uses_throw _
      | some size => exact uses_pure _

theorem opensWithFallbackKey_plain (file : File) :
    (opensWithFallbackKey file : Code π κ Bool).Uses Op.plain := by
  refine uses_bind (uses_perform trivial) fun data => ?_
  cases data with
  | none => exact uses_pure _
  | some data => exact uses_pure _

theorem weakKeyWriteIsSafe_plain : (weakKeyWriteIsSafe : Code π κ Bool).Uses Op.plain := by
  refine uses_bind (isStore_plain _) fun primary => uses_bind (isStore_plain _) fun backup => ?_
  refine uses_ite (uses_pure _) (uses_ite ?_ (opensWithFallbackKey_plain _))
  refine uses_bind (opensWithFallbackKey_plain _) fun opens => ?_
  exact uses_ite (uses_pure _) (uses_ite (opensWithFallbackKey_plain _) (uses_pure _))

theorem getOrCreateMasterKey_crypto :
    (getOrCreateMasterKey : Code π κ MasterKey).Uses Op.crypto := by
  have hwithout : (keyWithoutKeyring : Code π κ MasterKey).Uses Op.crypto :=
    keyWithoutKeyring_plain.mono fun _ h => h.crypto
  have hlookup : (keyringLookup true : Code π κ (Option MasterKey × Bool)).Uses Op.crypto := by
    refine uses_bind (uses_perform trivial) fun answer => ?_
    cases answer with
    | failed => exact uses_pure _
    | answered entry => cases entry <;> exact uses_pure _
  have hcreate : (keyringCreateKey : Code π κ (Option MasterKey)).Uses Op.crypto :=
    uses_bind (uses_perform trivial) fun _ => uses_bind (uses_perform trivial) fun _ =>
      uses_ite (uses_pure _) (uses_pure _)
  refine uses_bind hlookup fun found => ?_
  obtain ⟨found, answered⟩ := found
  cases found with
  | some key => exact uses_pure _
  | none =>
      cases answered with
      | false => exact hwithout
      | true =>
          refine uses_bind hcreate fun created => ?_
          cases created with
          | some key => exact uses_pure _
          | none => exact hwithout

theorem tryKeys_uses {A : Op π κ → Prop} (data : Contents π) :
    ∀ (candidates : List (Code π κ (Option MasterKey))) (seen : List MasterKey),
      (∀ p ∈ candidates, p.Uses A) → (tryKeys data candidates seen).Uses A
  | [], _, _ => uses_throw _
  | candidate :: rest, seen, h => by
      have hrest := fun seen => tryKeys_uses data rest seen fun p hp => h p (List.mem_cons_of_mem _ hp)
      refine uses_bind (h _ List.mem_cons_self) fun found => ?_
      cases found with
      | none => exact hrest seen
      | some key =>
          refine uses_ite (hrest seen) ?_
          cases data.decrypt key with
          | some text => exact uses_pure _
          | none => exact hrest _

theorem decryptCredentials_crypto (data : Contents π) :
    (decryptCredentials data : Code π κ π).Uses Op.crypto := by
  refine uses_ite (uses_throw _) (tryKeys_uses data _ _ fun p hp => ?_)
  rcases List.mem_cons.1 hp with rfl | hp
  · exact uses_bind getOrCreateMasterKey_crypto fun _ => uses_pure _
  rcases List.mem_cons.1 hp with rfl | hp
  · exact passphraseMasterKey_plain.mono fun _ h => h.crypto
  · cases List.mem_singleton.1 hp
    exact uses_pure _

theorem encryptCredentials_crypto (plaintext : π) (protectStore : Bool) :
    (encryptCredentials plaintext protectStore : Code π κ (Sealed π)).Uses Op.crypto := by
  refine uses_bind getOrCreateMasterKey_crypto fun key => ?_
  refine uses_ite (uses_bind (weakKeyWriteIsSafe_plain.mono fun _ h => h.crypto) fun _ => ?_)
    (uses_perform trivial)
  exact uses_ite (uses_perform trivial) (uses_throw _)

end Velune.Providers
