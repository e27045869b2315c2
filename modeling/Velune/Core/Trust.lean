/-
The list of trusted directories (`core/trust.py`): one file, which every
call reads, changes and writes back whole, in any number of processes at
once.

A directory stands for its resolved path. What is in the file is put as
what `json.loads` makes of it. Opening the file for writing empties it,
and of the text that follows nothing, a part or all may get there.
-/
import Velune.Domain
import Velune.Lib.Assoc
import Velune.Lib.Json
import Velune.Lib.Runs

namespace Velune.Core

open Lib

-- ===== the file

abbrev Entries := Assoc PyStr Json

inductive TrustFile
  | missing
  | empty
  /-- Text that is no JSON. -/
  | damaged
  | json (data : Json)

def TrustFile.isEmpty : TrustFile → Bool
  | .empty => true
  | _ => false

def SCHEMA_VERSION : Int := 2

def DIRECTORIES_FIELD : PyStr := "directories".toList

def LEGACY_DIRECTORIES_FIELD : PyStr := "trusted".toList

/-- The entries of a list, in a field that version 1 called otherwise. -/
def directories : Json → Entries
  | .obj fields =>
      match Json.lookup fields DIRECTORIES_FIELD with
      | some (.obj entries) => entries
      | _ =>
          match Json.lookup fields LEGACY_DIRECTORIES_FIELD with
          | some (.obj entries) => entries
          | _ => []
  | _ => []

/-- `_load`; a file that cannot be read is an empty list. -/
def TrustFile.load (readable : Bool) : TrustFile → Entries
  | .json data => if readable then directories data else []
  | _ => []

def payload (entries : Entries) : Json :=
  .obj [("version".toList, .int SCHEMA_VERSION), (DIRECTORIES_FIELD, .obj entries)]

/-- `is_trusted`, of a file that can be read. -/
def isTrusted (trustAll : Bool) (file : TrustFile) (key : PyStr) : Bool :=
  trustAll || ((file.load true).get? key).isSome

-- ===== calls

inductive Op
  | trust (key trustedAt : PyStr)
  | forget (key : PyStr)

def Op.key : Op → PyStr
  | .trust key _ => key
  | .forget key => key

def Op.decides : Op → Bool
  | .trust .. => true
  | .forget _ => false

def Op.saves (entries : Entries) : Op → Bool
  | .trust .. => true
  | .forget key => (entries.get? key).isSome

def Op.apply (entries : Entries) : Op → Entries
  | .trust key trustedAt => entries.set key (.obj [("trusted_at".toList, .str trustedAt)])
  | .forget key => entries.pop key

inductive Phase
  | called
  /-- It has read these. -/
  | loaded (entries : Entries)
  /-- It has opened the file and is about to write these. -/
  | writing (entries : Entries)

structure Call where
  op : Op
  phase : Phase

/-- The file, the calls in progress, and what was decided by the last call
for each directory that is completed. -/
structure TrustState where
  file : TrustFile
  calls : Assoc Nat Call
  decided : PyStr → Bool

def TrustState.enter (s : TrustState) (n : Nat) (call : Call) : TrustState :=
  { s with calls := s.calls.set n call }

def TrustState.leave (s : TrustState) (n : Nat) : TrustState := { s with calls := s.calls.pop n }

def TrustState.finish (s : TrustState) (n : Nat) (op : Op) : TrustState :=
  { s.leave n with decided := fun key => if key = op.key then op.decides else s.decided key }

-- ===== steps

inductive Written
  | nothing
  | partly
  | whole

/-- The file after a write at its start; where another call has written
since it was opened, the text may cover what is there or not. -/
def TrustFile.write (written : Written) (covers : Bool) (entries : Entries) (file : TrustFile) :
    TrustFile :=
  match written with
  | .nothing => file
  | .partly => .damaged
  | .whole => if file.isEmpty || covers then .json (payload entries) else .damaged

inductive Step
  | call (n : Nat) (op : Op)
  | load (n : Nat) (readable : Bool)
  | openFile (n : Nat) (opens : Bool)
  | write (n : Nat) (written : Written) (covers : Bool)
  /-- The process of a call dies, or the call raises. -/
  | crash (n : Nat) (written : Written) (covers : Bool)

/-- One step of one call; a write that fails is logged, and the call goes
on. -/
def trustStep : Step → TrustState → Option TrustState
  | .call n op, s =>
      match s.calls.get? n with
      | none => some (s.enter n ⟨op, .called⟩)
      | some _ => none
  | .load n readable, s =>
      match s.calls.get? n with
      | some ⟨op, .called⟩ =>
          let entries := s.file.load readable
          some (if op.saves entries then s.enter n ⟨op, .loaded entries⟩ else s.finish n op)
      | _ => none
  | .openFile n opens, s =>
      match s.calls.get? n with
      | some ⟨op, .loaded entries⟩ =>
          some (if opens then { s.enter n ⟨op, .writing (op.apply entries)⟩ with file := .empty }
            else s.finish n op)
      | _ => none
  | .write n written covers, s =>
      match s.calls.get? n with
      | some ⟨op, .writing entries⟩ =>
          some { s.finish n op with file := s.file.write written covers entries }
      | _ => none
  | .crash n written covers, s =>
      match s.calls.get? n with
      | some ⟨_, .writing entries⟩ =>
          some { s.leave n with file := s.file.write written covers entries }
      | some _ => some (s.leave n)
      | none => none

end Velune.Core
