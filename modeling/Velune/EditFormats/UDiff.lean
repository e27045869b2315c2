/-
Unified diffs from a response (`execution/edit_formats/udiff.py`): how the
hunks of a diff are found in its text, and how they are applied.

The expression that finds a hunk is told as a scan: a header at the front
of a line, and everything up to the next line that begins with `@@`. Which
characters beside the ASCII digits are digits, and of what value, is
Unicode's, the parameter `digits`.
-/
import Velune.Domain
import Velune.Lib.Diff

namespace Velune.EditFormats

open Lib Lib.Diff

-- ===== finding

variable (digits : Char → Option Nat)

def digitValue (c : Char) : Option Nat :=
  if c.toNat < 128 then if Text.isDigit c then some (c.toNat - '0'.toNat) else none
  else digits c

/-- `(\d+)`, and the text behind it. -/
def number (s : PyStr) : Option (Nat × PyStr) :=
  let run := s.takeWhile fun c => (digitValue digits c).isSome
  if run = [] then none
  else some (run.foldl (fun n c => 10 * n + (digitValue digits c).getD 0) 0,
    s.dropWhile fun c => (digitValue digits c).isSome)

/-- `(?:,(\d+))?`. What follows it does not begin with a comma. -/
def count (s : PyStr) : Option (Option Nat × PyStr) :=
  match s with
  | ',' :: rest => (number digits rest).map fun r => (some r.1, r.2)
  | _ => some (none, s)

def literal (t s : PyStr) : Option PyStr := if t <+: s then some (s.drop t.length) else none

/-- A match of `_HUNK_RE`: its first two groups, and its last. -/
structure Hunk where
  oldStart : Nat
  oldCount : Option Nat
  body : PyStr
  deriving DecidableEq, Repr

/-- `@@ -(\d+)(?:,(\d+))? \+(\d+)(?:,(\d+))? @@[^\n]*\n`. -/
def header (s : PyStr) : Option (Nat × Option Nat × PyStr) := do
  let s ← literal "@@ -".toList s
  let (oldStart, s) ← number digits s
  let (oldCount, s) ← count digits s
  let s ← literal " +".toList s
  let (_, s) ← number digits s
  let (_, s) ← count digits s
  let s ← literal " @@".toList s
  let s ← literal "\n".toList (s.dropWhile (· != '\n'))
  pure (oldStart, oldCount, s)

/-- `(.*?)(?=^@@|\Z)`, and the text behind it; `atStart` at the front of a
line. -/
def hunkBody : Bool → PyStr → PyStr × PyStr
  | _, [] => ([], [])
  | atStart, c :: s =>
      if atStart ∧ "@@".toList <+: c :: s then ([], c :: s)
      else
        let r := hunkBody (c == '\n') s
        (c :: r.1, r.2)

/-- `_HUNK_RE.finditer`, `fuel` being the length of the text. -/
def findHunks : Nat → Bool → PyStr → List Hunk
  | 0, _, _ => []
  | _ + 1, _, [] => []
  | fuel + 1, atStart, c :: s =>
      match if atStart then header digits (c :: s) else none with
      | some (oldStart, oldCount, rest) =>
          let r := hunkBody true rest
          ⟨oldStart, oldCount, r.1⟩ :: findHunks fuel true r.2
      | none => findHunks fuel (c == '\n') s

def finditer (s : PyStr) : List Hunk := findHunks digits (s.length + 1) true s

-- ===== applying

def clampIndex (length : Nat) (i : Int) : Nat :=
  if i < 0 then (i + length).toNat else min i.toNat length

/-- `lines[start:stop] = new`. -/
def setSlice (lines : List PyStr) (start stop : Int) (new : List PyStr) : List PyStr :=
  let i := clampIndex lines.length start
  let j := max i (clampIndex lines.length stop)
  lines.take i ++ (new ++ lines.drop j)

def addition (line : PyStr) : Option PyStr :=
  match line with
  | '-' :: _ => none
  | '+' :: rest => some rest
  | ' ' :: rest => some rest
  | _ => some line

/-- One hunk; the second part is the offset. What the hunk takes away is
collected and not looked at. -/
def applyHunk (st : List PyStr × Int) (hunk : Hunk) : List PyStr × Int :=
  let oldStart : Int := hunk.oldStart - 1
  let oldCount : Int := hunk.oldCount.getD 1
  let additions := (Text.splitlinesKeep hunk.body).filterMap addition
  let start := oldStart + st.2
  (setSlice st.1 start (start + oldCount) additions, st.2 + (additions.length - oldCount))

def applyHunks (content : PyStr) (hunks : List Hunk) : PyStr :=
  (hunks.foldl applyHunk (Text.splitlinesKeep content, 0)).1.flatten

end Velune.EditFormats
