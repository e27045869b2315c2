/-
The machine the credential code runs on, as that code sees it
(`providers/crypto.py`, `providers/keystore.py`, `core/filelock.py`): the
OS keyring, each process's environment, the passphrase file, the store
and its backup, the file lock, and each process's own memory.

Encryption is ideal: a sealed text is the key and the text, and keys of
different secrets are different keys. What a random number, a full disk
or the user decides is the `Choice` an operation is given. The keyring
answers or does not, from one moment to the next, as `Change` has it.

Some fields record what happened and are read by no operation: who is
creating a keyring key, which keys have sealed, which of these were
replaced, and who put which file in the place of the store.
-/
import Velune.Domain
import Velune.Lib.Interleave

namespace Velune.Providers

open Lib

abbrev Pid := Nat

-- ===== keys

inductive MasterKey
  /-- The `n`-th key `AESGCM.generate_key` made. -/
  | random (n : Nat)
  | derived (passphrase : PyStr)
  /-- `_get_fallback_key`. -/
  | fallback
  deriving DecidableEq

/-- `nonce + ciphertext`. -/
structure Sealed (π : Type) where
  key : MasterKey
  text : π

def Sealed.decrypt {π : Type} (blob : Sealed π) (key : MasterKey) : Option π :=
  if key = blob.key then some blob.text else none

/-- What a file of the store may hold: a sealed text, or so many bytes
that no key opens. -/
inductive Contents (π : Type)
  | junk (size : Nat)
  | sealed (blob : Sealed π)

inductive File
  | primary | backup | temp
  deriving DecidableEq

inductive Entry
  | absent
  | key (key : MasterKey)
  | damaged
  deriving DecidableEq

/-- What `keyring.get_password` makes known. -/
inductive Lookup
  | failed
  | answered (entry : Entry)

/-- The passphrase file: not there or not to be read; without bytes;
what `_unprotect_passphrase` makes of it; the stripped text of one that
was written before it was encrypted. -/
inductive PassphraseFile
  | missing
  | empty
  | encrypted (passphrase : Option PyStr)
  | plain (text : Option PyStr)

-- ===== operations

inductive Op (π κ : Type)
  /-- `keyring.get_password`; with `creates`, of a call that creates the
  key if there is none. -/
  | getPassword (creates : Bool)
  | generateKey
  | setPassword (key : MasterKey)
  | environ
  | readPassphrase
  /-- `write_bytes` of the passphrase file, which empties it first. -/
  | emptyPassphrase
  | writePassphrase (passphrase : PyStr)
  /-- `getpass`, where there is a terminal. -/
  | prompt
  /-- `AESGCM(key).encrypt`. -/
  | encrypt (key : MasterKey) (text : π)
  | fileExists (file : File)
  /-- `stat().st_size`. -/
  | size (file : File)
  | readBytes (file : File)
  /-- `open(file, "wb")`, or the start of a copy over it. -/
  | truncate (file : File)
  | writeBytes (file : File) (contents : Contents π)
  /-- The rest of `shutil.copy2`, once the target is open. -/
  | copy (source target : File)
  /-- A copy of the store to a name of its own. -/
  | setAside
  /-- `replace` of the store by the temporary file. -/
  | rename
  /-- `replace` of a name of its own by the store. -/
  | quarantine
  | restrict
  | unlink (file : File)
  /-- The store's `st_mtime_ns` and `st_size`; with `committed`, of a
  call that has just committed. -/
  | stamp (committed : Bool)
  | acquire
  | release
  /-- The process's `_cache_lock`. -/
  | enter
  | leave
  /-- The process's own memory, read and changed. -/
  | own (f : κ → κ)
  | monotonic

/-- The answers; `none` and `false` stand for an `OSError`. -/
def Ans (π κ : Type) : Op π κ → Type
  | .getPassword _ => Lookup
  | .generateKey => MasterKey
  | .setPassword _ => Bool
  | .environ => Option PyStr
  | .readPassphrase => PassphraseFile
  | .emptyPassphrase => Bool
  | .writePassphrase _ => Bool
  | .prompt => Option PyStr
  | .encrypt _ _ => Sealed π
  | .fileExists _ => Bool
  | .size _ => Option Nat
  | .readBytes _ => Option (Contents π)
  | .truncate _ => Bool
  | .writeBytes _ _ => Bool
  | .copy _ _ => Bool
  | .setAside => Bool
  | .rename => Bool
  | .quarantine => Bool
  | .restrict => Bool
  | .unlink _ => Bool
  | .stamp _ => Option Nat
  | .acquire => Bool
  | .release => PUnit
  | .enter => PUnit
  | .leave => PUnit
  | .own _ => κ
  | .monotonic => Nat

inductive Choice
  | succeeds
  | fails
  | typed (text : Option PyStr)

-- ===== state

/-- One `rename` over the store: the thread, what was there, and what is
there now. -/
structure Commit (π : Type) where
  thread : Nat
  base : Option (Contents π)
  contents : Contents π

structure Host (π κ : Type) where
  keyring : Entry
  answering : Bool
  minted : Nat
  environ : Pid → Option PyStr
  passphrase : PassphraseFile
  files : File → Option (Contents π)
  /-- A number that no two states of the store share. -/
  mark : Nat
  lock : Option (Who Pid)
  mutex : Pid → Option Nat
  own : Pid → κ
  clock : Nat
  creating : List (Who Pid)
  sealing : List MasterKey
  replaced : List MasterKey
  commits : List (Commit π)

variable {π κ : Type}

/-- The size `stat` gives; nonce and tag alone are 28 bytes. -/
def Contents.size : Contents π → Nat
  | .junk n => n
  | .sealed _ => 28

/-- A change of a file; one of the store itself changes its stamp. -/
def Host.setFile (s : Host π κ) (file : File) (contents : Option (Contents π)) : Host π κ :=
  { s with
    files := Function.update s.files file contents
    mark := if file = .primary then s.mark + 1 else s.mark }

def attempt (c : Choice) (s after : Host π κ) : Option (Bool × Host π κ) :=
  match c with
  | .succeeds => some (true, after)
  | .fails => some (false, s)
  | .typed _ => none

def notCreating (who : Who Pid) (s : Host π κ) : List (Who Pid) :=
  s.creating.filter fun w => w.thread ≠ who.thread

/-- `keyring.set_password`, where the keyring answers. -/
def Host.setPassword (s : Host π κ) (key : MasterKey) : Host π κ :=
  { s with
    keyring := .key key
    replaced := match s.keyring with
      | .key old => if old ∈ s.sealing then old :: s.replaced else s.replaced
      | _ => s.replaced }

variable (initial : κ)

def exec (who : Who Pid) : (op : Op π κ) → Choice → Host π κ → Option (Ans π κ op × Host π κ)
  | .getPassword creates, _, s =>
      if s.answering then
        some (Lookup.answered s.keyring,
          if creates && s.keyring = .absent then { s with creating := who :: s.creating } else s)
      else some (Lookup.failed, s)
  | .generateKey, _, s => some (MasterKey.random s.minted, { s with minted := s.minted + 1 })
  | .setPassword key, c, s =>
      let s' := { s with creating := notCreating who s }
      if s.answering then attempt c s' (s'.setPassword key) else some (false, s')
  | .environ, _, s => some (s.environ who.process, s)
  | .readPassphrase, _, s => some (s.passphrase, s)
  | .emptyPassphrase, c, s => attempt c s { s with passphrase := .empty }
  | .writePassphrase passphrase, c, s =>
      attempt c s { s with passphrase := .encrypted (some passphrase) }
  | .prompt, c, s =>
      match c with
      | .typed text => some (text, s)
      | _ => none
  | .encrypt key text, _, s =>
      some (Sealed.mk key text, { s with sealing := key :: s.sealing })
  | .fileExists file, _, s => some ((s.files file).isSome, s)
  | .size file, _, s => some ((s.files file).map Contents.size, s)
  | .readBytes file, c, s =>
      match c with
      | .succeeds => some (s.files file, s)
      | .fails => some (none, s)
      | .typed _ => none
  | .truncate file, c, s => attempt c s (s.setFile file (some (.junk 0)))
  | .writeBytes file contents, c, s => attempt c s (s.setFile file (some contents))
  | .copy source target, c, s =>
      match s.files source with
      | some contents => attempt c s (s.setFile target (some contents))
      | none => some (false, s)
  | .setAside, c, s => attempt c s s
  | .rename, c, s =>
      match s.files .temp with
      | some contents => attempt c s
          { (s.setFile .primary (some contents)).setFile .temp none with
            commits := s.commits ++ [⟨who.thread, s.files .primary, contents⟩] }
      | none => some (false, s)
  | .quarantine, c, s => attempt c s (s.setFile .primary none)
  | .restrict, c, s => attempt c s s
  | .unlink file, c, s => attempt c s (s.setFile file none)
  | .stamp _, _, s => some ((s.files .primary).map fun _ => s.mark, s)
  | .acquire, c, s =>
      match c, s.lock with
      | .succeeds, none => some (true, { s with lock := some who })
      | .fails, _ => some (false, s)
      | _, _ => none
  | .release, _, s => some (PUnit.unit, { s with lock := none })
  | .enter, _, s =>
      match s.mutex who.process with
      | none => some (PUnit.unit,
          { s with mutex := Function.update s.mutex who.process (some who.thread) })
      | some _ => none
  | .leave, _, s =>
      some (PUnit.unit, { s with mutex := Function.update s.mutex who.process none })
  | .own f, _, s =>
      some (s.own who.process,
        { s with own := Function.update s.own who.process (f (s.own who.process)) })
  | .monotonic, _, s => some (s.clock, s)

theorem exec_getPassword (who : Who Pid) (creates : Bool) (c : Choice) (s : Host π κ) :
    exec who (.getPassword creates) c s =
      if s.answering then
        some (Lookup.answered s.keyring,
          if creates && s.keyring = .absent then { s with creating := who :: s.creating } else s)
      else some (Lookup.failed, s) := rfl

theorem exec_setPassword (who : Who Pid) (key : MasterKey) (c : Choice) (s : Host π κ) :
    exec who (.setPassword key) c s =
      let s' := { s with creating := notCreating who s }
      if s.answering then attempt c s' (s'.setPassword key) else some (false, s') := rfl

/-- What `attempt` leaves. -/
theorem attempt_state {c : Choice} {s after s' : Host π κ} {ok : Bool}
    (h : attempt c s after = some (ok, s')) : s' = s ∨ s' = after := by
  cases c with
  | succeeds =>
      cases h
      exact Or.inr rfl
  | fails =>
      cases h
      exact Or.inl rfl
  | typed text => cases h

def Host.keyState (s : Host π κ) : Entry × Bool × List (Who Pid) × List MasterKey :=
  (s.keyring, s.answering, s.creating, s.replaced)

def Op.quiet : Op π κ → Prop
  | .getPassword creates => creates = false
  | .setPassword _ => False
  | _ => True

theorem exec_quiet {who : Who Pid} {op : Op π κ} {c : Choice} {s s' : Host π κ} {a : Ans π κ op}
    (hq : op.quiet) (h : exec who op c s = some (a, s')) : s'.keyState = s.keyState := by
  cases op with
  | getPassword creates =>
      cases creates with
      | true => cases hq
      | false =>
          rw [exec_getPassword] at h
          split at h
          · cases h
            rfl
          · cases h
            rfl
  | setPassword key => cases hq
  | prompt =>
      cases c with
      | typed text =>
          cases h
          rfl
      | _ => cases h
  | readBytes file =>
      cases c with
      | typed text => cases h
      | _ =>
          cases h
          rfl
  | copy source target =>
      simp only [exec] at h
      split at h
      · rcases attempt_state h with rfl | rfl <;> rfl
      · cases h
        rfl
  | rename =>
      simp only [exec] at h
      split at h
      · rcases attempt_state h with rfl | rfl <;> rfl
      · cases h
        rfl
  | acquire =>
      simp only [exec] at h
      split at h
      · cases h
        rfl
      · cases h
        rfl
      · cases h
  | enter =>
      simp only [exec] at h
      split at h
      · cases h
        rfl
      · cases h
  | emptyPassphrase => rcases attempt_state h with rfl | rfl <;> rfl
  | writePassphrase p => rcases attempt_state h with rfl | rfl <;> rfl
  | truncate file => rcases attempt_state h with rfl | rfl <;> rfl
  | writeBytes file contents => rcases attempt_state h with rfl | rfl <;> rfl
  | setAside => rcases attempt_state h with rfl | rfl <;> rfl
  | quarantine => rcases attempt_state h with rfl | rfl <;> rfl
  | restrict => rcases attempt_state h with rfl | rfl <;> rfl
  | unlink file => rcases attempt_state h with rfl | rfl <;> rfl
  | _ =>
      cases h
      rfl

def Host.crash (i : Pid) (s : Host π κ) : Host π κ :=
  { s with
    lock := s.lock.filter fun w => w.process ≠ i
    mutex := Function.update s.mutex i none
    own := Function.update s.own i initial
    creating := s.creating.filter fun w => w.process ≠ i }

inductive Change
  | keyring (entry : Entry)
  | answering (answers : Bool)
  | environ (process : Pid) (value : Option PyStr)
  | passphrase (file : PassphraseFile)
  | clock (later : Nat)

def Host.change : Change → Host π κ → Host π κ
  | .keyring entry, s => { s with keyring := entry }
  | .answering answers, s => { s with answering := answers }
  | .environ process value, s =>
      { s with environ := Function.update s.environ process value }
  | .passphrase file, s => { s with passphrase := file }
  | .clock later, s => { s with clock := s.clock + later }

end Velune.Providers
