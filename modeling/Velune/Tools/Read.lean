/-
Reading a file for the model (`tools/filesystem/read.py`): as a whole, or
from one line to another.

A whole-file read decodes all the bytes and splits the text; a read of a
range streams the file line by line, never more of a line than a result can
hold. A file is its bytes. The stream's decoder is strict too, and raises
somewhere behind the text it has given by then: `Env.before` says how much,
which depends on the size of its chunks.
-/
import Velune.Domain
import Velune.Lib.Codec
import Velune.Lib.Replace
import Velune.Lib.SplitText

namespace Velune.Tools

open Lib
open Lib.Codec

-- ===== limits

def READ_MAX_FILE_BYTES : Nat := 5 * 1024 * 1024

def READ_MAX_CHARS : Nat := 14000

def READ_MAX_SCAN_CHARS : Nat := 64 * 1024 * 1024

def SNIFF_BYTES : Nat := 8192

def ENCODING_SAMPLE_BYTES : Nat := 64 * 1024

def NUMBER_WIDTH : Nat := 6

def KEEP : Nat := READ_MAX_CHARS - 120

-- ===== encodings

inductive Encoding
  | utf8Sig | utf16 | utf8 | cp1252
  deriving DecidableEq, Repr

def Encoding.name : Encoding → PyStr
  | .utf8Sig => "utf-8-sig".toList
  | .utf16 => "utf-16".toList
  | .utf8 => "utf-8".toList
  | .cp1252 => "cp1252".toList

/-- `data.decode(encoding)`; the first two have their mark in front. -/
def Encoding.decode : Encoding → List UInt8 → Option PyStr
  | .utf8Sig, data => Codec.utf8.decode (data.drop 3)
  | .utf16, data => (Codec.utf16 (data.head? == some 0xFE)).decode (data.drop 2)
  | .utf8, data => Codec.utf8.decode data
  | .cp1252, data => Codec.cp1252.decode data

/-- What a read raises; `_NotText` is a result in the end. -/
inductive ReadError
  | notText (message : PyStr)
  | value (message : PyStr)
  deriving DecidableEq

def decimal (n : Nat) : PyStr := Nat.toDigits 10 n

/-- `_TEXT_BYTES`. -/
def isTextByte (b : UInt8) : Bool :=
  [7, 8, 9, 10, 12, 13, 27].contains b || (0x20 ≤ b.toNat && b.toNat != 0x7F)

def bomUtf8 : List UInt8 := [0xEF, 0xBB, 0xBF]

def bomUtf16Le : List UInt8 := [0xFF, 0xFE]

def bomUtf16Be : List UInt8 := [0xFE, 0xFF]

def isBinary (window : List UInt8) : Bool :=
  window.contains 0 || 3 * window.length < 10 * (window.filter fun b => !isTextByte b).length

def isUtf8 (wholeFile : Bool) (sample : List UInt8) : Bool :=
  if wholeFile then (Codec.utf8.decode sample).isSome else Codec.utf8.accepts sample

def chooseEncoding (sample : List UInt8) (name : PyStr) (size : Nat) (wholeFile : Bool) :
    Except ReadError Encoding :=
  if bomUtf8.isPrefixOf sample then .ok .utf8Sig
  else if bomUtf16Le.isPrefixOf sample || bomUtf16Be.isPrefixOf sample then .ok .utf16
  else if isBinary (sample.take SNIFF_BYTES) then
    .error (.notText ("[".toList ++ name ++ " appears to be a binary file (".toList ++ decimal size
      ++ " bytes); its contents are not shown.]".toList))
  else if isUtf8 wholeFile sample then .ok .utf8
  else if (Codec.cp1252.decode sample).isSome then .ok .cp1252
  else .error (.value (name ++ ": could not decode as UTF-8 or Windows-1252; ".toList
    ++ "the file is in another encoding or is corrupt.".toList))

-- ===== rows

/-- `f"{number:>6}"`. -/
def numbered (number : Nat) : PyStr :=
  List.replicate (NUMBER_WIDTH - (decimal number).length) ' ' ++ decimal number

/-- `_row`; `length` is the line's own where `text` is only its head. -/
def row (number : Nat) (text : PyStr) (length : Option Nat) : PyStr :=
  let row := numbered number ++ '\t' :: text
  if row.length ≤ READ_MAX_CHARS then row
  else row.take KEEP ++ " … [line ".toList ++ decimal number ++ " clipped: ".toList
    ++ decimal (length.getD text.length) ++ " characters, showing ".toList ++ decimal KEEP ++ "]".toList

-- ===== results

/-- "showing lines 1-3 of 10; call read_file again with start_line=4": the
total is there for a whole file. -/
structure Notice where
  first : Nat
  last : Nat
  total : Option Nat
  again : Nat
  deriving DecidableEq

def Notice.str (n : Notice) : PyStr :=
  "[showing lines ".toList ++ decimal n.first ++ "-".toList ++ decimal n.last
    ++ (n.total.elim [] fun total => " of ".toList ++ decimal total)
    ++ "; call read_file again with start_line=".toList ++ decimal n.again ++ " to continue]".toList

inductive Result
  /-- the file as it is, or a remark about it -/
  | plain (text : PyStr)
  | page (rows : List PyStr) (notice : Option Notice)
  deriving DecidableEq

def Result.str : Result → PyStr
  | .plain text => text
  | .page rows notice => Text.join "\n".toList (rows ++ notice.toList.map Notice.str)

def Result.rows : Result → List PyStr
  | .plain _ => []
  | .page rows _ => rows

def Result.next : Result → Option Nat
  | .plain _ => none
  | .page _ notice => notice.map Notice.again

-- ===== the whole file

/-- `_too_large`, of a size that is known. -/
def tooLarge (name : PyStr) (size : Nat) : PyStr :=
  "[".toList ++ name ++ " is ".toList ++ decimal size ++ " bytes, over the ".toList
    ++ decimal READ_MAX_FILE_BYTES ++ "-byte limit for reading a whole ".toList
    ++ "file. Read a section instead with start_line and end_line (1-based, inclusive), ".toList
    ++ "for example start_line=1, end_line=200.]".toList

/-- `text.replace("\r\n", "\n").replace("\r", "\n")`. -/
def normalized (text : PyStr) : PyStr :=
  Replace.replaceAll (Replace.literal ['\r']) ['\n']
    (Replace.replaceAll (Replace.literal ['\r', '\n']) ['\n'] text)

/-- `text.split("\n")`, without what is behind the last break if that is
nothing. -/
def linesOf (text : PyStr) : List PyStr :=
  let lines := splitText ['\n'] text
  if lines.getLast? = some [] then lines.dropLast else lines

def wholeRows : Nat → Nat → List PyStr → List PyStr → List PyStr
  | _, _, out, [] => out
  | number, used, out, line :: lines =>
      let row := row number line none
      if out ≠ [] ∧ used + row.length + 1 > READ_MAX_CHARS then out
      else wholeRows (number + 1) (used + row.length + 1) (out ++ [row]) lines

def readWhole (name : PyStr) (data : List UInt8) : Except ReadError Result :=
  if data.length > READ_MAX_FILE_BYTES then .ok (.plain (tooLarge name data.length))
  else if data = [] then .ok (.plain [])
  else do
    let encoding ← chooseEncoding data name data.length true
    match encoding.decode data with
    | none => .error (.value (name ++ ": could not decode as ".toList ++ encoding.name
        ++ "; the file is corrupt.".toList))
    | some text =>
        let text := normalized text
        if text.length ≤ READ_MAX_CHARS then .ok (.plain text)
        else
          let lines := linesOf text
          let out := wholeRows 1 0 [] lines
          .ok (.page out (if out.length < lines.length then
            some ⟨1, out.length, some lines.length, out.length + 1⟩ else none))

-- ===== the stream

/-- What a text file has still to give; it may raise behind that. -/
structure Stream where
  text : PyStr
  fails : Bool

/-- Up to `limit` characters, and no further than a line's end. -/
def lineHead : Nat → PyStr → PyStr
  | 0, _ => []
  | _, [] => []
  | limit + 1, c :: text => if c = '\n' then [c] else c :: lineHead limit text

def endsLine (chunk : PyStr) : Bool := chunk.getLast? == some '\n'

/-- `text.readline(limit)`: raises where it needs more than the decoder gives. -/
def Stream.readline (limit : Nat) (s : Stream) : Option (PyStr × Stream) :=
  let chunk := lineHead limit s.text
  if s.fails ∧ chunk.length < limit ∧ endsLine chunk = false then none
  else some (chunk, { s with text := s.text.drop chunk.length })

theorem lineHead_nil (limit : Nat) : lineHead limit [] = [] := by
  cases limit <;> rfl

theorem Stream.readline_shrinks {limit : Nat} {s rest : Stream} {chunk : PyStr}
    (h : s.readline limit = some (chunk, rest)) (hne : chunk ≠ []) :
    rest.text.length < s.text.length := by
  simp only [Stream.readline] at h
  split at h
  next => cases h
  next =>
    cases h
    have hpos := List.length_pos_iff.2 hne
    have htext : s.text ≠ [] := by
      intro hnil
      rw [hnil, lineHead_nil] at hne
      exact hne rfl
    have hlength := List.length_pos_iff.2 htext
    rw [List.length_drop]
    omega

def skipRest (s : Stream) (skipped : Nat) : Option (Nat × Stream) :=
  match h : s.readline 65536 with
  | none => none
  | some (chunk, rest) =>
      let skipped := skipped + (chunk.length - if endsLine chunk then 1 else 0)
      if chunk = [] ∨ endsLine chunk = true then some (skipped, rest)
      else skipRest rest skipped
termination_by s.text.length
decreasing_by
  have hne := ‹¬(chunk = [] ∨ endsLine chunk = true)›
  exact Stream.readline_shrinks h fun hnil => hne (.inl hnil)

def skippedWith (skipped : Nat) (chunk : PyStr) : Nat :=
  skipped + (chunk.length - if endsLine chunk then 1 else 0)

theorem skipRest_none {s : Stream} (skipped : Nat) (h : s.readline 65536 = none) :
    skipRest s skipped = none := by
  rw [skipRest]
  split
  next => rfl
  next hread =>
    rw [h] at hread
    cases hread

theorem skipRest_some {s rest : Stream} {chunk : PyStr} (skipped : Nat)
    (h : s.readline 65536 = some (chunk, rest)) :
    skipRest s skipped = if chunk = [] ∨ endsLine chunk = true then
      some (skippedWith skipped chunk, rest) else skipRest rest (skippedWith skipped chunk) := by
  rw [skipRest]
  split
  next hread =>
    rw [h] at hread
    cases hread
  next hread =>
    rw [h] at hread
    cases hread
    rfl

theorem Stream.readline_length {limit : Nat} {s rest : Stream} {chunk : PyStr}
    (h : s.readline limit = some (chunk, rest)) : rest.text.length ≤ s.text.length := by
  simp only [Stream.readline] at h
  split at h
  next => cases h
  next =>
    cases h
    exact (List.length_drop ..).trans_le (Nat.sub_le _ _)

theorem skipRest_length {s rest : Stream} {skipped n : Nat}
    (h : skipRest s skipped = some (n, rest)) : rest.text.length ≤ s.text.length := by
  cases hread : s.readline 65536 with
  | none =>
      rw [skipRest_none skipped hread] at h
      cases h
  | some r =>
      obtain ⟨chunk, next⟩ := r
      have hle := Stream.readline_length hread
      rw [skipRest_some skipped hread] at h
      split at h
      next =>
        cases h
        exact hle
      next hgo =>
        have hlt := Stream.readline_shrinks hread fun hnil => hgo (.inl hnil)
        exact (skipRest_length h).trans hle
termination_by s.text.length

inductive Scanned
  | raised
  | ended
  /-- a line, or its head, and its own length -/
  | line (line : PyStr) (fullLength : Nat) (rest : Stream)

def nextLine (s : Stream) : Scanned :=
  match s.readline (READ_MAX_CHARS + 1) with
  | none => .raised
  | some (chunk, rest) =>
      if chunk = [] then .ended
      else if endsLine chunk = false ∧ chunk.length > READ_MAX_CHARS then
        match skipRest rest 0 with
        | none => .raised
        | some (skipped, rest) => .line chunk (chunk.length + skipped) rest
      else
        let line := if endsLine chunk then chunk.dropLast else chunk
        .line line line.length rest

theorem nextLine_shrinks {s rest : Stream} {line : PyStr} {fullLength : Nat}
    (h : nextLine s = .line line fullLength rest) : rest.text.length < s.text.length := by
  unfold nextLine at h
  split at h
  next => cases h
  next chunk after hread =>
    split at h
    next => cases h
    next hne =>
      have hlt := Stream.readline_shrinks hread hne
      split at h
      next =>
        split at h
        next => cases h
        next hskip =>
          cases h
          exact (skipRest_length hskip).trans_lt hlt
      next =>
        cases h
        exact hlt

-- ===== a range

structure Loop where
  out : List PyStr
  used : Nat
  scanned : Nat
  number : Nat

def Loop.count (st : Loop) (fullLength : Nat) : Loop :=
  { st with number := st.number + 1, scanned := st.scanned + (fullLength + 1) }

def Loop.add (st : Loop) (row : PyStr) : Loop :=
  { st with out := st.out ++ [row], used := st.used + row.length + 1 }

def tooFar (name : PyStr) (start : Nat) : PyStr :=
  name ++ ": start_line=".toList ++ decimal start ++ " is too far into this file to reach ".toList
    ++ "(scanning stops after ".toList ++ decimal READ_MAX_SCAN_CHARS ++ " characters). ".toList
    ++ "Use grep_files to find the line you need within the first part of ".toList
    ++ "the file, or read an earlier range.".toList

def invalidData (name : PyStr) (encoding : Encoding) (number : Nat) : PyStr :=
  name ++ ": invalid ".toList ++ encoding.name ++ " data near line ".toList ++ decimal number
    ++ "; the file mixes encodings or is corrupt.".toList

structure Range where
  name : PyStr
  encoding : Encoding
  start : Nat
  stop : Option Nat

/-- The loop over the lines; with them, the number of the line that did not
fit. -/
def rangeLoop (r : Range) (s : Stream) (st : Loop) : Except ReadError (Loop × Option Nat) :=
  match _h : nextLine s with
  | .raised => .error (.value (invalidData r.name r.encoding st.number))
  | .ended => .ok (st, none)
  | .line line fullLength rest =>
      let st := st.count fullLength
      if st.number < r.start then
        if st.scanned > READ_MAX_SCAN_CHARS then .error (.value (tooFar r.name r.start))
        else rangeLoop r rest st
      else if r.stop.any (· < st.number) then .ok (st, none)
      else
        let row := row st.number line (some fullLength)
        if st.out ≠ [] ∧ st.used + row.length + 1 > READ_MAX_CHARS then .ok (st, some st.number)
        else rangeLoop r rest (st.add row)
termination_by s.text.length
decreasing_by all_goals exact nextLine_shrinks _h

def plural (count : Nat) (noun : PyStr) : PyStr :=
  decimal count ++ " ".toList ++ noun ++ if count = 1 then [] else "s".toList

def pastEnd (name : PyStr) (number start : Nat) : PyStr :=
  "[".toList ++ name ++ " has ".toList ++ plural number "line".toList ++ "; start_line=".toList
    ++ decimal start ++ " is past the end.]".toList

structure Env where
  before : Encoding → List UInt8 → PyStr

/-- `io.TextIOWrapper(handle, encoding, errors="strict", newline=None)`. -/
def Env.opened (env : Env) (encoding : Encoding) (data : List UInt8) : Stream :=
  match encoding.decode data with
  | some text => ⟨Text.universalNewlines text, false⟩
  | none => ⟨env.before encoding data, true⟩

def readRange (env : Env) (name : PyStr) (data : List UInt8) (start : Nat) (stop : Option Nat) :
    Except ReadError Result := do
  let sample := data.take ENCODING_SAMPLE_BYTES
  let encoding ← chooseEncoding sample name data.length (sample.length < ENCODING_SAMPLE_BYTES)
  let (st, cutAt) ← rangeLoop ⟨name, encoding, start, stop⟩ (env.opened encoding data) ⟨[], 0, 0, 0⟩
  if st.out = [] then .ok (.plain (pastEnd name st.number start))
  else .ok (.page st.out (cutAt.map fun cut => ⟨start, cut - 1, none, cut⟩))

-- ===== the tool

def ReadError.caught : Except ReadError Result → Except ReadError Result
  | .error (.notText message) => .ok (.plain message)
  | result => result

/-- `execute`, of a regular file; the line numbers are 1 or greater. -/
def execute (env : Env) (name : PyStr) (data : List UInt8) (start stop : Option Nat) :
    Except ReadError Result :=
  let start := if stop.isSome then some (start.getD 1) else start
  match start with
  | none => ReadError.caught (readWhole name data)
  | some first =>
      if stop.any (· < first) then
        .error (.value ("end_line (".toList ++ decimal (stop.getD 0)
          ++ ") must not be before start_line (".toList ++ decimal first ++ ")".toList))
      else ReadError.caught (readRange env name data first stop)

end Velune.Tools
