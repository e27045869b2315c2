/-
SEARCH/REPLACE edits (`execution/edit_formats/base.py`,
`search_replace.py`, `applier.py`): the two patterns that find edit
blocks in a response, how one block's text is located in a file, and how
a list of blocks is resolved and written.

A file is its text as `read_text` gives it; the disk is a dictionary from
paths to texts. `difflib`'s similarity is the parameter `ratio`. A block
carries no confidence here: nothing reads it.
-/
import Velune.Domain
import Velune.Lib.Dict
import Velune.Lib.Path
import Velune.Lib.Regex

namespace Velune.EditFormats

open Lib Lib.Regex

-- ===== blocks

inductive EditFormat
  | searchReplace | wholeFile | udiff
  deriving DecidableEq, Repr

structure EditBlock where
  filePath : PyStr
  original : PyStr
  proposed : PyStr
  isNewFile : Bool
  isDeletion : Bool
  formatUsed : EditFormat
  deriving DecidableEq, Repr

/-- Nothing but white space: `not s.strip()`. -/
def isBlank (s : PyStr) : Bool := Text.strip s == []

/-- The block `parse` builds from a path and two texts. -/
def EditBlock.ofParts (filePath original proposed : PyStr) : EditBlock :=
  { filePath := filePath
    original := original
    proposed := proposed
    isNewFile := isBlank original
    isDeletion := !isBlank original && isBlank proposed
    formatUsed := .searchReplace }

-- ===== patterns

/-- `[ \t]`. -/
def isBlankChar (c : Char) : Bool := c == ' ' || c == '\t'

/-- A character of `` [^\n`<>=] ``. -/
def isPathChar (c : Char) : Bool :=
  c != '\n' && c != Char.ofNat 96 && c != '<' && c != '>' && c != '='

def notNewline (c : Char) : Bool := c != '\n'

def newline : Re := .cls (· == '\n')

def fence : PyStr := [Char.ofNat 96, Char.ofNat 96, Char.ofNat 96]

def fenceLine : Re := .cat [.text fence, .many false notNewline, newline]

def searchMark : PyStr := "<<<<<<< ".toList

def separator : PyStr := "=======\n".toList

def replaceMark : PyStr := ">>>>>>> ".toList

/-- From the opening marker to the name after the closing one, with the
two texts as groups 2 and 3. -/
def blockBody : List Re :=
  [.text searchMark, .oneOf [.text "SEARCH".toList, .text "ORIGINAL".toList], newline,
    .group 2 (.many true fun _ => true), .text separator,
    .group 3 (.many true fun _ => true), .text replaceMark,
    .oneOf [.text "REPLACE".toList, .text "MODIFIED".toList]]

def blockRe : Re :=
  .cat ([.alt .textStart newline, .opt fenceLine, .many false isBlankChar,
    .group 1 (.seq (.plus isPathChar) (.cls fun c => !Text.isSpace c)),
    .many false isBlankChar, newline, .opt fenceLine] ++ blockBody)

def fenceBlockRe : Re :=
  .cat ([.alt .textStart newline,
    .group 1 (.cat [.plus isPathChar, .cls (· == '.'), .plus Text.isAlnum]),
    .many false isBlankChar, newline, fenceLine] ++ blockBody ++ [newline, .text fence])

-- ===== parsing

def MAX_PATH_CHARS : Nat := 260

def blockOf (m : Match) : Option EditBlock :=
  let path := Text.strip (m.groups.get 1)
  if path = [] ∨ path.contains '\n' ∨ MAX_PATH_CHARS < path.length then none
  else some (EditBlock.ofParts path (m.groups.get 2) (m.groups.get 3))

/-- The blocks one pattern finds in a response. Neither pattern looks at
words. -/
def blocksOf (pattern : Re) (response : PyStr) : List EditBlock :=
  (finditer (fun _ => false) pattern response).filterMap blockOf

/-- The message of a `ParseError`. -/
abbrev ParseError := PyStr

def parse (response : PyStr) : Except ParseError (List EditBlock) :=
  let blocks := blocksOf blockRe response ++ blocksOf fenceBlockRe response
  if blocks = [] then .error "No SEARCH/REPLACE blocks found in response".toList
  else .ok blocks

-- ===== locating

def indentOf (line : PyStr) : PyStr := line.takeWhile isBlankChar

def commonPrefix : PyStr → PyStr → PyStr
  | c :: cs, d :: ds => if c = d then c :: commonPrefix cs ds else []
  | _, _ => []

/-- `textwrap.dedent`. -/
def normalizeIndent (text : PyStr) : PyStr :=
  let lines := (text.splitOn '\n').map fun line => if line.all isBlankChar then [] else line
  let margin :=
    match (lines.filter (· ≠ [])).map indentOf with
    | [] => []
    | indent :: indents => indents.foldl commonPrefix indent
  Text.join ['\n'] (lines.map fun line =>
    if margin <+: line then line.drop margin.length else line)

/-- The windows of `n` lines, each with the number of lines before it. -/
def windows (n : Nat) (lines : List PyStr) : List (Nat × PyStr) :=
  (List.range (lines.length - n + 1)).map fun i => (i, ((lines.drop i).take n).flatten)

def FUZZY_THRESHOLD : Rat := 85 / 100

variable (ratio : PyStr → PyStr → Rat)

/-- The first window most like `search`, and how like it is. -/
def bestWindow (search : PyStr) : List (Nat × PyStr) → Option Nat × Rat :=
  List.foldl (fun best w =>
    if ratio search w.2 > best.2 then (some w.1, ratio search w.2) else best) (none, 0)

/-- The last strategy: the window of lines most like `search`. -/
def replaceFuzzy (content search replace : PyStr) : Option PyStr :=
  let searchLines := Text.splitlinesKeep search
  let contentLines := Text.splitlinesKeep content
  let n := searchLines.length
  if n = 0 ∨ contentLines.length < n then none
  else
    match bestWindow ratio search (windows n contentLines) with
    | (some start, best) =>
        if best ≥ FUZZY_THRESHOLD then
          some ((contentLines.take start).flatten ++ replace
            ++ (contentLines.drop (start + n)).flatten)
        else none
    | (none, _) => none

/-- `_find_and_replace`: four strategies in order. -/
def findAndReplace (content search replace : PyStr) : Option PyStr :=
  match Text.find search content with
  | some i => some (Text.splice content i search.length replace)
  | none =>
      let stripped := Text.strip search
      match (if stripped = [] then none else Text.find stripped content) with
      | some i => some (Text.splice content i stripped.length replace)
      | none =>
          let normal := normalizeIndent search
          match (if isBlank normal then none else Text.find normal content) with
          | some i => some (Text.splice content i normal.length replace)
          | none => replaceFuzzy ratio content search replace

-- ===== applying

abbrev Disk := Dict PurePath PyStr

/-- `workspace_path / file_path`. -/
def target (workspace : PurePath) (filePath : PyStr) : PurePath :=
  let file := PurePath.parse filePath
  if file.root = [] then ⟨workspace.root, workspace.parts ++ file.parts⟩ else file

def applyBlock (workspace : PurePath) (disk : Disk) (block : EditBlock) :
    Except ParseError PyStr :=
  match disk (target workspace block.filePath) with
  | none => .ok block.proposed
  | some current =>
      if block.isNewFile then .ok block.proposed
      else if block.isDeletion then .ok []
      else
        match findAndReplace ratio current block.original block.proposed with
        | some result => .ok result
        | none =>
            .error ("SEARCH block not found in ".toList ++ block.filePath
              ++ " (even with fuzzy matching at threshold 0.85)".toList)

def resolve (workspace : PurePath) (disk : Disk) (block : EditBlock) :
    Except ParseError (PurePath × PyStr) :=
  if block.isDeletion then .ok (target workspace block.filePath, [])
  else
    match block.formatUsed with
    | .searchReplace =>
        (applyBlock ratio workspace disk block).map fun content =>
          (target workspace block.filePath, content)
    | .wholeFile | .udiff => .ok (target workspace block.filePath, block.proposed)

/-- `EditBlockApplier.resolve_all`: blocks that fail are skipped. -/
def resolveAll (workspace : PurePath) (disk : Disk) (blocks : List EditBlock) :
    List (PurePath × PyStr) :=
  blocks.filterMap fun block => (resolve ratio workspace disk block).toOption

/-- `EditBlockApplier.write`: an empty text deletes the file. -/
def write (disk : Disk) (path : PurePath) (content : PyStr) : Disk :=
  if content = [] then disk.erase path else disk.insert path content

def writeAll (disk : Disk) (resolved : List (PurePath × PyStr)) : Disk :=
  resolved.foldl (fun disk entry => write disk entry.1 entry.2) disk

end Velune.EditFormats
