/-
`grep_files` (`tools/filesystem/search.py` and its worker): which files are
searched, what is made of their bytes, and when the results end in the
marker that says they are not complete.

The tree is what the walk sees: a link to a file is a file, a link to a
directory and whatever else is neither are `other`, since the shared matcher
refuses the former and no one reads the latter. The entries of a directory
come in the order the walk sorts them in. The regular expression, the glob
and the ignore rules are given by what they say of a line, a path, and one
path's own name; times are left out, as the claims on this tool are about
runs within the budget.
-/
import Mathlib.Data.List.DropRight
import Velune.Domain
import Velune.Lib.Utf8

namespace Velune.Tools

open Lib

-- ===== limits

def GREP_MAX_MATCHES : Nat := 100

def GREP_MAX_FILES : Nat := 5000

def GREP_MAX_FILE_BYTES : Nat := 1048576

def GREP_MAX_LINE_CHARS : Nat := 2000

def GREP_TEXT_CHARS : Nat := 200

def GREP_MAX_OUTPUT_CHARS : Nat := 12000

def BINARY_SNIFF_BYTES : Nat := 8192

-- ===== tree

mutual

inductive Entry
  /-- the bytes, unless it cannot be opened -/
  | file (data : Option (List UInt8))
  | dir (listable : Bool) (entries : Entries)
  | other

inductive Entries
  | nil
  | cons (name : PyStr) (entry : Entry) (rest : Entries)

end

def Entries.names : Entries → List PyStr
  | .nil => []
  | .cons name _ rest => name :: rest.names

mutual

def Entry.Distinct : Entry → Prop
  | .file _ => True
  | .dir _ entries => entries.Distinct
  | .other => True

def Entries.Distinct : Entries → Prop
  | .nil => True
  | .cons name entry rest => name ∉ rest.names ∧ entry.Distinct ∧ rest.Distinct

end

structure Folder where
  place : List PyStr
  listable : Bool
  entries : Entries
  distinct : entries.Distinct

structure Found where
  path : List PyStr
  data : Option (List UInt8)

structure SearchEnv where
  /-- the text that `rx.search(line)` matches -/
  rx : PyStr → Option PyStr
  /-- `path.match(pattern)` -/
  glob : PyStr → List PyStr → Bool
  lower : PyStr → PyStr
  /-- the ignore rules hide this very path -/
  verdict : List PyStr → Bool
  /-- the rules that could not be applied -/
  diagnostics : List PyStr
  /-- the workspace's own path -/
  root : PyStr

variable (env : SearchEnv)

/-- `is_ignored`: the rules hide the path, or a directory it is in. -/
def SearchEnv.ignored (path : List PyStr) : Bool :=
  path.inits.any fun above => !above.isEmpty && env.verdict above

-- ===== discovery

/-- `path.suffix`. -/
def suffixOf (name : PyStr) : PyStr :=
  let tail := name.rtakeWhile (· != '.')
  if tail.length + 1 < name.length ∧ tail ≠ [] then '.' :: tail else []

def isGlobChar (c : Char) : Bool := c == '*' || c == '?' || c == '[' || c == ']'

/-- The extensions the scan is told to look for; nothing for all. -/
def extensionsOf (filePattern : PyStr) : Option (List PyStr) :=
  if filePattern ≠ [] ∧ filePattern ≠ "*".toList ∧ "*.".toList.isPrefixOf filePattern
      ∧ (filePattern.drop 2).any isGlobChar = false then
    some [filePattern.drop 1]
  else none

def SearchEnv.wanted (extensions : Option (List PyStr)) (path : List PyStr) : Bool :=
  extensions.all fun known => known.contains (env.lower (suffixOf (path.getLastD [])))

mutual

def scanEntry (extensions : Option (List PyStr)) (path : List PyStr) : Entry → List Found
  | .file data => if env.wanted extensions path then [⟨path, data⟩] else []
  | .dir listable entries => if listable then recursiveScan extensions path entries else []
  | .other => []

/-- `_recursive_scan`, of a directory that can be listed. -/
def recursiveScan (extensions : Option (List PyStr)) (here : List PyStr) : Entries → List Found
  | .nil => []
  | .cons name entry rest =>
      (if env.ignored (here ++ [name]) then [] else scanEntry extensions (here ++ [name]) entry)
        ++ recursiveScan extensions here rest

end

def scan (extensions : Option (List PyStr)) (top : Folder) : List Found :=
  if top.listable then recursiveScan env extensions top.place top.entries else []

/-- The file's name is one the pattern asks for; an empty one asks for all. -/
def SearchEnv.named (filePattern : PyStr) (path : List PyStr) : Bool :=
  filePattern.isEmpty || env.glob filePattern path

def takeFiles (filePattern : PyStr) : List Found → List Found → List Found × Bool
  | [], files => (files, false)
  | f :: rest, files =>
      if env.named filePattern f.path then
        if (files ++ [f]).length ≥ GREP_MAX_FILES then (files ++ [f], true)
        else takeFiles filePattern rest (files ++ [f])
      else takeFiles filePattern rest files

/-- `_collect_files`; with the files, whether there were too many. -/
def collectFiles (filePattern : PyStr) (top : Folder) : List Found × Bool :=
  takeFiles env filePattern (scan env (extensionsOf filePattern) top) []

-- ===== worker

structure Hit where
  file : List PyStr
  line : Nat
  found : PyStr
  text : PyStr
  deriving DecidableEq

inductive Looked
  | unreadable | binary | large
  | text (data : List UInt8)

def lookAt : Option (List UInt8) → Looked
  | none => .unreadable
  | some data =>
      let head := data.take BINARY_SNIFF_BYTES
      if head.contains 0 then .binary
      else if head.length = BINARY_SNIFF_BYTES then
        let rest := (data.drop BINARY_SNIFF_BYTES).take (GREP_MAX_FILE_BYTES - BINARY_SNIFF_BYTES + 1)
        if head.length + rest.length > GREP_MAX_FILE_BYTES then .large else .text (head ++ rest)
      else .text head

/-- `data.decode("utf-8", errors="ignore").splitlines()`. -/
def workerLines (data : List UInt8) : List PyStr := Text.splitlines (Utf8.decodeIgnore data)

def clipLine (line : PyStr) : PyStr :=
  if line.length > GREP_MAX_LINE_CHARS then line.take GREP_MAX_LINE_CHARS else line

/-- `line.strip()[:text_chars]`. -/
def hitText (line : PyStr) : PyStr := (Text.strip line).take GREP_TEXT_CHARS

/-- The length of `str(path)`. -/
def SearchEnv.pathLength (path : List PyStr) : Nat :=
  (env.root ++ '/' :: Text.join ['/'] path).length

inductive Stop
  | maxMatches | outputLimit
  deriving DecidableEq

structure Progress where
  hits : List Hit
  outputChars : Nat
  stop : Option Stop

def Progress.emit (st : Progress) (hit : Hit) : Progress :=
  let hits := st.hits ++ [hit]
  let outputChars := st.outputChars + (env.pathLength hit.file + hit.text.length + hit.found.length + 32)
  { hits, outputChars,
    stop :=
      if hits.length ≥ GREP_MAX_MATCHES then some .maxMatches
      else if outputChars ≥ GREP_MAX_OUTPUT_CHARS then some .outputLimit
      else none }

/-- The loop over the lines of a file, from line `lineno` on. -/
def scanLines (path : List PyStr) : Nat → List PyStr → Progress → Progress
  | _, [], st => st
  | lineno, line :: lines, st =>
      let line := clipLine line
      match env.rx line with
      | none => scanLines path (lineno + 1) lines st
      | some found =>
          let st := st.emit env ⟨path, lineno, found.take GREP_TEXT_CHARS, hitText line⟩
          if st.stop.isSome then st else scanLines path (lineno + 1) lines st

structure Report where
  scanned : Nat
  skippedLarge : Nat
  skippedBinary : Nat
  skippedUnreadable : Nat
  deriving DecidableEq

/-- `main`. -/
def scanFiles : List Found → Progress → Report → Progress × Report
  | [], st, report => (st, report)
  | f :: files, st, report =>
      match lookAt f.data with
      | .unreadable =>
          scanFiles files st { report with skippedUnreadable := report.skippedUnreadable + 1 }
      | .binary => scanFiles files st { report with skippedBinary := report.skippedBinary + 1 }
      | .large => scanFiles files st { report with skippedLarge := report.skippedLarge + 1 }
      | .text data =>
          let report := { report with scanned := report.scanned + 1 }
          let st := scanLines env f.path 1 (workerLines data) st
          if st.stop.isSome then (st, report) else scanFiles files st report

-- ===== tool

inductive SearchItem
  | hit (hit : Hit)
  | warning (problems : List PyStr)
  | marker (reasons : List PyStr) (report : Report)
  deriving DecidableEq

def Stop.reason : Stop → PyStr
  | .maxMatches => "max_matches=100".toList
  | .outputLimit => "output_limit~12000_chars".toList

def reasonsOf (tooMany : Bool) (stop : Option Stop) (report : Report) : List PyStr :=
  (if tooMany then ["file_limit=5000".toList] else []) ++ stop.toList.map Stop.reason
    ++ if report.skippedLarge > 0 then ["skipped_files_over_1048576_bytes".toList] else []

/-- `execute`. -/
def grepFiles (filePattern : PyStr) (top : Folder) : List SearchItem :=
  let (files, tooMany) := collectFiles env filePattern top
  let (st, report) := scanFiles env files ⟨[], 0, none⟩ ⟨0, 0, 0, 0⟩
  let reasons := reasonsOf tooMany st.stop report
  st.hits.map .hit ++ (if env.diagnostics = [] then [] else [.warning env.diagnostics])
    ++ if reasons = [] then [] else [.marker reasons report]

end Velune.Tools
