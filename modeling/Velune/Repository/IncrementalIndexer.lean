/-
The index of a workspace's files between two sessions
(`repository/incremental_indexer.py`, `repository/index_state.py`): what
changed since, and the index brought up to date with it.

A tree is what the scan finds, each file under its path from the root with
slashes. The hash and the parser are parameters; times and modification
times are exact numbers. What is saved can be loaded again; locks, logging,
progress and the fallback scan are left out.
-/
import Velune.Commands.Safety
import Velune.Intelligence.GraphPatcher
import Velune.Lib.Assoc
import Velune.Lib.Utf8

namespace Velune.Repository

open Lib Intelligence

-- ===== languages

def EXTENSION_LANGUAGE_MAP : List (PyStr × PyStr) :=
  [(".py".toList, "python".toList), (".ipynb".toList, "python".toList),
    (".js".toList, "javascript".toList), (".jsx".toList, "javascript".toList),
    (".ts".toList, "typescript".toList), (".tsx".toList, "typescript".toList),
    (".go".toList, "go".toList), (".rs".toList, "rust".toList), (".java".toList, "java".toList),
    (".c".toList, "cpp".toList), (".cpp".toList, "cpp".toList), (".cc".toList, "cpp".toList),
    (".cxx".toList, "cpp".toList), (".h".toList, "cpp".toList), (".hpp".toList, "cpp".toList),
    (".hh".toList, "cpp".toList), (".cs".toList, "csharp".toList), (".php".toList, "php".toList),
    (".rb".toList, "ruby".toList), (".swift".toList, "swift".toList), (".kt".toList, "kotlin".toList),
    (".vue".toList, "vue".toList), (".svelte".toList, "svelte".toList),
    (".html".toList, "html".toList), (".htm".toList, "html".toList),
    (".jinja".toList, "template".toList), (".jinja2".toList, "template".toList),
    (".j2".toList, "template".toList), (".sql".toList, "sql".toList),
    (".graphql".toList, "graphql".toList), (".gql".toList, "graphql".toList),
    (".prisma".toList, "prisma".toList), (".proto".toList, "proto".toList),
    (".dart".toList, "dart".toList), (".m".toList, "objective_c".toList),
    (".mm".toList, "objective_c".toList), (".scala".toList, "scala".toList),
    (".clj".toList, "clojure".toList), (".cljs".toList, "clojure".toList),
    (".ex".toList, "elixir".toList), (".exs".toList, "elixir".toList),
    (".erl".toList, "erlang".toList), (".hs".toList, "haskell".toList), (".ml".toList, "ocaml".toList),
    (".fs".toList, "fsharp".toList), (".fsi".toList, "fsharp".toList),
    (".fsx".toList, "fsharp".toList), (".lua".toList, "lua".toList), (".r".toList, "r".toList),
    (".R".toList, "r".toList), (".jl".toList, "julia".toList), (".sh".toList, "shell".toList),
    (".bash".toList, "shell".toList), (".zsh".toList, "shell".toList),
    (".fish".toList, "shell".toList), (".ps1".toList, "powershell".toList)]

/-- `Path(name).suffix`. -/
def suffixOf (name : PyStr) : PyStr :=
  let tail := (name.reverse.takeWhile (· != '.')).reverse
  if tail = [] ∨ name.length ≤ tail.length + 1 then [] else '.' :: tail

def detectLanguage (path : PyStr) : PyStr :=
  (EXTENSION_LANGUAGE_MAP.lookup (Commands.lower (suffixOf (PurePath.parse path).name))).getD
    "unknown".toList

-- ===== the index

structure IndexedFile where
  path : PyStr
  contentHash : PyStr
  language : PyStr
  symbolCount : Nat
  indexedAt : Rat
  mtime : Rat := 0
  size : Nat := 0

structure DiskFile where
  mtime : Rat
  bytes : List UInt8
  readable : Bool

structure IndexState where
  workspaceRoot : PyStr
  lastCommitSha : Option PyStr
  lastIndexedAt : Rat
  fileIndex : Assoc PyStr IndexedFile

structure Tree where
  files : Assoc PyStr DiskFile
  nodup : files.keys.Nodup

/-- The hash, and how many symbols the parser finds in a text, unless it
raises. -/
structure IndexEnv where
  sha256 : List UInt8 → PyStr
  symbols : PyStr → PyStr → Option Nat

/-- What git says of the workspace: its commit, and whether nothing is
changed or new. -/
structure GitView where
  sha : Option PyStr
  clean : Bool

def IndexedFile.unchangedOnDisk (entry : IndexedFile) (file : DiskFile) : Bool :=
  if entry.mtime = 0 ∨ entry.size = 0 then false
  else decide (entry.size = file.bytes.length ∧ entry.mtime = file.mtime)

-- ===== one file

variable (env : IndexEnv)

def IndexEnv.parseFile (path : PyStr) (bytes : List UInt8) : PyStr × Nat :=
  if MAX_STRUCTURAL_PARSE_BYTES < bytes.length then (detectLanguage path, 0)
  else
    let content := Text.universalNewlines (Utf8.decodeIgnore bytes)
    if isGeneratedContent content then (detectLanguage path, 0)
    else
      match env.symbols path content with
      | some n => (detectLanguage path, n)
      | none => ("unknown".toList, 0)

/-- `_index_one`; nothing where it raises. -/
def IndexEnv.indexOne (path : PyStr) (file : DiskFile) (now : Rat) : Option IndexedFile :=
  if file.readable then
    some
      { path := path
        contentHash := env.sha256 file.bytes
        language := (env.parseFile path file.bytes).1
        symbolCount := (env.parseFile path file.bytes).2
        indexedAt := now
        mtime := file.mtime
        size := file.bytes.length }
  else none

def reindexRenamed (path : PyStr) (file : DiskFile) (old : IndexedFile) (now : Rat) : IndexedFile where
  path := path
  contentHash := old.contentHash
  language := old.language
  symbolCount := old.symbolCount
  indexedAt := now
  mtime := file.mtime
  size := file.bytes.length

-- ===== the delta

def isAdded (stored : Assoc PyStr IndexedFile) (e : PyStr × DiskFile) : Bool :=
  (stored.get? e.1).isNone && e.2.readable

def IndexEnv.isUpdated (stored : Assoc PyStr IndexedFile) (e : PyStr × DiskFile) : Bool :=
  match stored.get? e.1 with
  | none => false
  | some entry =>
      !entry.unchangedOnDisk e.2 && e.2.readable && entry.contentHash != env.sha256 e.2.bytes

/-- One turn of the loop: the path takes the first added one of its hash that
is not taken. -/
def claimRename (stored : Assoc PyStr IndexedFile) (addHashes : Assoc PyStr PyStr)
    (renames : List (PyStr × PyStr)) (old : PyStr) : List (PyStr × PyStr) :=
  match stored.get? old with
  | none => renames
  | some entry =>
      if entry.contentHash = [] then renames
      else
        match (addHashes.keys.mergeSort fun a b => decide (a ≤ b)).find? fun new =>
            decide (new ∉ renames.map Prod.snd ∧ addHashes.get? new = some entry.contentHash) with
        | none => renames
        | some new => renames ++ [(old, new)]

def detectRenames (toRemove : List PyStr) (addHashes : Assoc PyStr PyStr)
    (stored : Assoc PyStr IndexedFile) : List (PyStr × PyStr) :=
  if toRemove = [] ∨ addHashes = [] then []
  else (toRemove.mergeSort fun a b => decide (a ≤ b)).foldl (claimRename stored addHashes) []

def storedIndex (state : Option IndexState) : Assoc PyStr IndexedFile :=
  (state.map IndexState.fileIndex).getD []

def IndexEnv.computeFileDelta (state : Option IndexState) (tree : Tree) : IndexDelta :=
  let stored := storedIndex state
  let added := tree.files.filter (isAdded stored)
  let toRemove := stored.keys.filter fun path => decide (path ∉ tree.files.keys)
  { toAdd := added.map Prod.fst
    toUpdate := (tree.files.filter (env.isUpdated stored)).map Prod.fst
    toRemove := toRemove
    renames :=
      detectRenames toRemove (added.map fun e => (e.1, env.sha256 e.2.bytes)) stored }

def unmoved (git : GitView) (state : Option IndexState) : Bool :=
  match state with
  | none => false
  | some state =>
      state.lastCommitSha.isSome && decide (state.lastCommitSha = git.sha) && git.clean

def IndexEnv.computeDelta (git : GitView) (state : Option IndexState) (tree : Tree) : IndexDelta :=
  if unmoved git state then ⟨[], [], [], []⟩ else env.computeFileDelta state tree

-- ===== applying it

def takeSource (stored found : Assoc PyStr IndexedFile) (rename : PyStr × PyStr) :
    Assoc PyStr IndexedFile :=
  match stored.get? rename.1 with
  | some entry => found.set rename.2 entry
  | none => found

def renameSource (stored : Assoc PyStr IndexedFile) (renames : List (PyStr × PyStr)) :
    Assoc PyStr IndexedFile := renames.foldl (takeSource stored) []

def IndexEnv.entryOf (tree : Tree) (sources : Assoc PyStr IndexedFile) (now : Rat) (path : PyStr) :
    Option IndexedFile :=
  match tree.files.get? path with
  | none => none
  | some file =>
      match sources.get? path with
      | some old => some (reindexRenamed path file old now)
      | none => env.indexOne path file now

def IndexEnv.process (tree : Tree) (sources : Assoc PyStr IndexedFile) (now : Rat)
    (index : Assoc PyStr IndexedFile) (path : PyStr) : Assoc PyStr IndexedFile :=
  match env.entryOf tree sources now path with
  | some entry => index.set entry.path entry
  | none => index

/-- `apply_delta`, and the state it saves. -/
def IndexEnv.applyDelta (root : PyStr) (git : GitView) (now : Rat) (tree : Tree)
    (state : Option IndexState) (delta : IndexDelta) : IndexState :=
  let stored := storedIndex state
  let sources := renameSource stored delta.renames
  let kept := delta.toRemove.foldl (fun index path => index.pop path) stored
  { workspaceRoot := root
    lastCommitSha := git.sha
    lastIndexedAt := now
    fileIndex := delta.toProcess.foldl (env.process tree sources now) kept }

end Velune.Repository
