/-
The hierarchical matcher (`tools/filesystem/ignore.py`, `VeluneIgnore`):
a workspace path is made relative, its parent directories are judged
from the root down, and last the path itself. Rule chains and verdicts
about directories are kept in two tables that all queries share.

The tree is as `lstat` and `realpath` show it. A relative path is the
list of its segments, so the length to strip from it is a number of
segments; a directory is the key of the tables as such a list, `[]`
being the root.
-/
import Velune.Ignore.Rules
import Velune.Lib.FileTree
import Velune.Lib.Path

namespace Velune.Ignore

open Lib

-- ===== matcher

/-- What a file holds: its size, and its text as decoding gives it, or
the type of the error that reading it raises. -/
structure Stored where
  size : Nat
  text : Except PyStr PyStr

/-- A matcher: what its constructor fixes. The root is resolved. -/
structure VeluneIgnore where
  tree : FileTree Stored
  root : List Name
  root_real : Physical tree.node root
  flags : Flags
  defaults : List Rule
  useFiles : Bool

/-- An entry of `diagnostics`. -/
structure Diagnostic where
  file : PyStr
  line : Option Nat
  pattern : Option PyStr
  problem : PyStr
  deriving DecidableEq, Repr

/-- The rule groups of a directory and its ancestors, the deepest first,
each with the number of segments to strip from a path. -/
abbrev Chain := List (Nat × RuleSet)

structure Memo where
  chains : Dict (List PyStr) Chain
  dirState : Dict (List PyStr) Bool
  problems : List Diagnostic

/-- `VeluneIgnore.__init__`, the tables. -/
def Memo.init : Memo := ⟨.empty, .empty, []⟩

variable (v : VeluneIgnore)

-- ===== ignore files

def IGNORE_FILENAMES : List PyStr := [".gitignore".toList, ".veluneignore".toList]

def MAX_IGNORE_FILE_BYTES : Nat := 1024 * 1024

/-- `_read_ignore_file`: the text, or why there is none (`none` when no
file is there). -/
def readIgnoreFile (directory : List PyStr) (name : PyStr) : Option (Except PyStr PyStr) :=
  let path := v.root ++ directory ++ [name]
  match v.tree.lstat path with
  | none => none
  | some (.file stored) =>
      if MAX_IGNORE_FILE_BYTES < stored.size then
        some (.error "larger than 1048576 bytes".toList)
      else if v.root <+: v.tree.real path then
        some (stored.text.mapError fun e => "unreadable (".toList ++ e ++ ")".toList)
      else some (.error "unreadable (ValueError)".toList)
  | some _ => some (.error "not a regular file (symlinks are not followed)".toList)

def shownFile (directory : List PyStr) (name : PyStr) : PyStr := relText (directory ++ [name])

def rulesOfFile (directory : List PyStr) (name : PyStr) : List Rule :=
  match readIgnoreFile v directory name with
  | some (.ok text) => (parseIgnoreTextChecked text).1
  | _ => []

def problemsOfFile (directory : List PyStr) (name : PyStr) : List Diagnostic :=
  match readIgnoreFile v directory name with
  | some (.ok text) => (parseIgnoreTextChecked text).2.map fun p =>
      ⟨shownFile directory name, some p.line, some p.pattern, p.why⟩
  | some (.error reason) =>
      [⟨shownFile directory name, none, none, "ignore file not applied: ".toList ++ reason⟩]
  | none => []

def rulesIn (directory : List PyStr) : List Rule :=
  if v.useFiles then IGNORE_FILENAMES.flatMap (rulesOfFile v directory) else []

def problemsIn (directory : List PyStr) : List Diagnostic :=
  if v.useFiles then IGNORE_FILENAMES.flatMap (problemsOfFile v directory) else []

def loadRules (directory : List PyStr) (memo : Memo) : Option RuleSet × Memo :=
  (makeRuleset v.flags (rulesIn v directory),
    { memo with problems := memo.problems ++ problemsIn v directory })

-- ===== verdicts

def extend (directory : List PyStr) (rules : Option RuleSet) (chain : Chain) : Chain :=
  match rules with
  | some rules => (directory.length, rules) :: chain
  | none => chain

/-- One round of the loop of `_chain`. -/
def chainStep (acc : Chain × Memo) (current : List PyStr) : Chain × Memo :=
  match acc.2.chains current with
  | some known => (known, acc.2)
  | none =>
      let loaded := loadRules v current acc.2
      let known := extend current loaded.1 acc.1
      (known, { loaded.2 with chains := loaded.2.chains.insert current known })

def chain (directory : List PyStr) (memo : Memo) : Chain × Memo :=
  match memo.chains directory with
  | some cached => (cached, memo)
  | none => directory.inits.foldl (chainStep v) ([], memo)

def chainVerdict (chain : Chain) (rel : List PyStr) (isDir : Bool) : Option Bool :=
  chain.findSome? fun group => ruleVerdict v.flags (some group.2) (rel.drop group.1) isDir

def defaultVerdict (rel : List PyStr) (isDir : Bool) : Bool :=
  (ruleVerdict v.flags (makeRuleset v.flags v.defaults) rel isDir).getD false

/-- `_decide`. -/
def decideRel (rel : List PyStr) (isDir : Bool) (memo : Memo) : Bool × Memo :=
  let c := chain v rel.dropLast memo
  ((chainVerdict v c.1 rel isDir).getD (defaultVerdict v rel isDir), c.2)

def dirVerdict (current : List PyStr) (memo : Memo) : Bool × Memo :=
  match memo.dirState current with
  | some state => (state, memo)
  | none =>
      let d := decideRel v current true memo
      (d.1, { d.2 with dirState := d.2.dirState.insert current d.1 })

/-- The loop of `_parent_excluded`, over the directories down to
`parent`. -/
def excludedLoop (parent : List PyStr) : List (List PyStr) → Memo → Bool × Memo
  | [], memo => (false, memo)
  | current :: rest, memo =>
      let d := dirVerdict v current memo
      if d.1 then (true, { d.2 with dirState := d.2.dirState.insert parent true })
      else excludedLoop parent rest d.2

def parentExcluded (parent : List PyStr) (memo : Memo) : Bool × Memo :=
  match memo.dirState parent with
  | some known => (known, memo)
  | none => excludedLoop v parent parent.inits.tail memo

-- ===== queries

/-- A path as `normpath` leaves it. -/
def normparts (path : PyStr) : List Name :=
  FileTree.normal (PurePath.rootOf path != []) (PurePath.parse path).parts

/-- `_relative`: the path relative to the workspace (`[]` for the root),
or nothing when it is outside. A relative path is joined to the root and
not normalised again. -/
def relative (path : PyStr) : Option (List PyStr) :=
  let parts := normparts path
  if PurePath.rootOf path = [] then some (if parts = [] then [here] else parts)
  else if v.root <+: parts ∧ (PurePath.rootOf path = ['/'] ∨ v.root = []) then
    some (parts.drop v.root.length)
  else
    let real := v.tree.real parts
    if v.root <+: real then
      let rel := real.drop v.root.length
      if rel.head?.any (up <+: ·) then none else some rel
    else none

/-- A query: the path, and whether it is a directory, if the caller
says so. The `lstat` a caller may pass is the one made here. -/
structure Query where
  path : PyStr
  isDir : Option Bool

/-- A link on the last step of a path, leading outside the workspace. -/
def linkEscapes (full : List Name) : Bool :=
  v.tree.isLinkAt full && !decide (v.root <+: v.tree.real full)

def judgedAsDir (q : Query) (full : List Name) : Bool :=
  q.isDir.getD ((v.tree.lstat full).any Node.isDir)

def isIgnored (q : Query) (memo : Memo) : Bool × Memo :=
  match relative v q.path with
  | none => (true, memo)
  | some rel =>
      if rel = [] then (false, memo)
      else
        let parent :=
          if rel.dropLast = [] then (false, memo) else parentExcluded v rel.dropLast memo
        if parent.1 then (true, parent.2)
        else if linkEscapes v (v.root ++ rel) then (true, parent.2)
        else decideRel v rel (judgedAsDir v q (v.root ++ rel)) parent.2

def runQueries : List Query → Memo → List Bool × Memo
  | [], memo => ([], memo)
  | q :: qs, memo =>
      let answer := isIgnored v q memo
      let rest := runQueries qs answer.2
      (answer.1 :: rest.1, rest.2)

end Velune.Ignore
