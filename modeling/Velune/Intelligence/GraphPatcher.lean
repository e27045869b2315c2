/-
The graph patcher (`intelligence/graph_patcher.py`): what it makes of one
file, and how it applies a delta of the tree to the knowledge graph.

The parser is a parameter (`ParserEnv`), and so is what git tells about
each file: a file's symbols and imports are whatever it says.
-/
import Mathlib.Data.Char
import Mathlib.Data.List.Infix
import Mathlib.Data.List.Lex
import Mathlib.Data.Rat.Floor
import Velune.Knowledge.Graph

namespace Velune.Intelligence

open Lib Knowledge

-- ===== files

def MAX_STRUCTURAL_PARSE_BYTES : Nat := 512 * 1024

def GENERATED_MARKER_SCAN_CHARS : Nat := 500

def generatedFileMarkers : List String :=
  ["@generated", "DO NOT EDIT", "DO NOT MODIFY", "Code generated by",
    "This file was automatically generated", "This is an auto-generated file", "Autogenerated by",
    "AUTO-GENERATED FILE"]

def isGeneratedContent (text : PyStr) : Bool :=
  generatedFileMarkers.any fun marker =>
    decide (marker.toList <:+: text.take GENERATED_MARKER_SCAN_CHARS)

inductive SymbolKind
  | «class»
  | function
  | method
  | «import»
  | unknown
  deriving DecidableEq

structure RepositorySymbol where
  name : PyStr
  kind : SymbolKind
  filePath : PyStr
  lineStart : Int
  lineEnd : Int
  parent : Option PyStr
  symbolId : Option PyStr
  qualifiedName : Option PyStr
  /-- `metadata["extraction"] == "generic_fallback"`. -/
  genericFallback : Bool
  /-- `bool(metadata["dynamic"])`. -/
  dynamic : Bool
  /-- `metadata["resolution_confidence"]`. -/
  resolutionConfidence : Option Rat
  deriving DecidableEq

structure RepositoryEdge where
  target : PyStr
  edgeType : PyStr
  weight : Rat
  deriving DecidableEq

/-- A file as `_parse_file` finds it; the text `none` cannot be read. -/
structure FileOnDisk where
  language : PyStr
  sizeBytes : Nat
  text : Option PyStr
  deriving DecidableEq

/-- The parser, `none` when it raises, and the commits of each file in the
last ninety days. -/
structure ParserEnv where
  parse : PyStr → PyStr → Option (List RepositorySymbol × List RepositoryEdge)
  volatility : PyStr → Nat

-- ===== one file

def ParserEnv.churnConfidence (env : ParserEnv) (relPath : PyStr) : Rat :=
  max (1 / 2) (1 / (1 + env.volatility relPath / 8))

/-- `_KIND_TO_NODE_TYPE`. -/
def SymbolKind.nodeType : SymbolKind → NodeType
  | .class => .class
  | .function => .function
  | .method => .method
  | .import => .module
  | .unknown => .function

def repoEdgeToKgType (raw : PyStr) : Option EdgeType :=
  let lower := raw.map Char.toLower
  if lower = "imports".toList ∨ lower = "imports_dynamic".toList then some .imports
  else if lower = "contains".toList then some .contains
  else if lower = "inherits".toList then some .inherits
  else if lower = "defines".toList then some .defines
  else none

/-- `first or second` on texts that may be missing. -/
def orElse (first : Option PyStr) (second : PyStr) : PyStr :=
  match first with
  | none => second
  | some [] => second
  | some text => text

def RepositorySymbol.nid (relPath : PyStr) (sym : RepositorySymbol) : PyStr :=
  orElse sym.symbolId ("sym:".toList ++ relPath ++ ":".toList ++ sym.name)

def RepositorySymbol.node (relPath : PyStr) (sym : RepositorySymbol) : KnowledgeNode where
  id := sym.nid relPath
  nodeType := sym.kind.nodeType
  label := sym.name
  filePath := some relPath
  lineStart := some sym.lineStart
  lineEnd := some sym.lineEnd
  metaData := [("qualified_name", .text (orElse sym.qualifiedName sym.name))]
  confidence := sym.resolutionConfidence.getD (if sym.genericFallback then 1 / 2 else 1)
  provenance :=
    if sym.genericFallback then ["generic_fallback_regex"]
    else if sym.dynamic then ["dynamic_import"]
    else ["structural_parse"]

def plainEdge (source target : PyStr) (edgeType : EdgeType) : KnowledgeEdge :=
  ⟨source, target, edgeType, 1, 1, []⟩

/-- The edges of one symbol: of its file, and of the class it is a method
of. -/
def RepositorySymbol.edges (relPath : PyStr) (symbols : List RepositorySymbol)
    (sym : RepositorySymbol) : List KnowledgeEdge :=
  plainEdge (fileNid relPath) (sym.nid relPath) .defines ::
    match sym.parent with
    | none => []
    | some [] => []
    | some parent =>
        match symbols.find? fun s => s.name = parent ∧ s.filePath = sym.filePath with
        | none => []
        | some parentSym => [plainEdge (parentSym.nid relPath) (sym.nid relPath) .contains]

def RepositoryEdge.edge (relPath : PyStr) (e : RepositoryEdge) : Option KnowledgeEdge :=
  (repoEdgeToKgType e.edgeType).map fun edgeType =>
    ⟨fileNid relPath, fileNid e.target, edgeType, e.weight, e.weight, [e.edgeType]⟩

def opaqueNode (relPath : PyStr) (file : FileOnDisk) (flag provenance : String) : KnowledgeNode :=
  ⟨fileNid relPath, .file, relPath, some relPath, none, none,
    [("language", .text file.language), ("size_bytes", .number file.sizeBytes), (flag, .flag true)],
    1 / 2, [provenance]⟩

def ParserEnv.fileNode (env : ParserEnv) (relPath : PyStr) (file : FileOnDisk)
    (renamedFrom : Option PyStr) : KnowledgeNode :=
  ⟨fileNid relPath, .file, relPath, some relPath, none, none,
    [("language", .text file.language), ("size_bytes", .number file.sizeBytes)]
      ++ (renamedFrom.map fun old => ("renamed_from", Meta.text old)).toList,
    env.churnConfidence relPath,
    "structural_parse" :: (renamedFrom.map fun _ => "rename_lineage").toList⟩

/-- `_parse_file`; `none` where it returns `None`. -/
def ParserEnv.parseFile (env : ParserEnv) (relPath : PyStr) (file : Option FileOnDisk)
    (renamedFrom : Option PyStr) : Option (List KnowledgeNode × List KnowledgeEdge) := do
  let file ← file
  if MAX_STRUCTURAL_PARSE_BYTES < file.sizeBytes then
    some ([opaqueNode relPath file "opaque" "opaque_size_guard"], [])
  else
    let content ← file.text
    if isGeneratedContent content then
      some ([opaqueNode relPath file "generated" "generated_marker"], [])
    else
      match env.parse relPath content with
      | none => some ([], [])
      | some (symbols, repoEdges) =>
          some (env.fileNode relPath file renamedFrom :: symbols.map (·.node relPath),
            symbols.flatMap (·.edges relPath symbols) ++ repoEdges.filterMap (·.edge relPath))

-- ===== deltas

structure IndexDelta where
  toAdd : List PyStr
  toUpdate : List PyStr
  toRemove : List PyStr
  /-- The old path and the new one. -/
  renames : List (PyStr × PyStr)
  deriving DecidableEq

def IndexDelta.isEmpty (delta : IndexDelta) : Bool :=
  delta.toAdd.isEmpty && delta.toUpdate.isEmpty && delta.toRemove.isEmpty

def IndexDelta.removeFiles (delta : IndexDelta) : List PyStr := delta.toRemove ++ delta.toUpdate

def IndexDelta.toProcess (delta : IndexDelta) : List PyStr := delta.toAdd ++ delta.toUpdate

def IndexDelta.renameSourceOf (delta : IndexDelta) (path : PyStr) : Option PyStr :=
  latest (delta.renames.map fun (old, new) => (new, old)) path

structure PatchResult where
  nodesAdded : Nat
  nodesRemoved : Nat
  edgesAdded : Nat
  filesPatched : Nat
  deriving DecidableEq

inductive PatchError
  | foreignKey
  | tooManyVariables
  deriving DecidableEq

abbrev Tree := PyStr → Option FileOnDisk

def ParserEnv.parsed (env : ParserEnv) (tree : Tree) (delta : IndexDelta) :
    List (List KnowledgeNode × List KnowledgeEdge) :=
  delta.toProcess.filterMap fun path => env.parseFile path (tree path) (delta.renameSourceOf path)

def dropEdgesToUnknownTargets (maxVariables : Nat) (graph : KnowledgeGraph)
    (nodes : List KnowledgeNode) (edges : List KnowledgeEdge) : Option (List KnowledgeEdge) := do
  let added := nodes.map KnowledgeNode.id
  let unresolved := (edges.map KnowledgeEdge.target).filter (· ∉ added)
  let existing ← existingNodeIds maxVariables unresolved graph
  some (edges.filter fun e => e.target ∈ added ∨ e.target ∈ existing)

/-- The transaction of `patch`. -/
def commitPatch (maxVariables : Nat) (removeFiles : List PyStr) (nodes : List KnowledgeNode)
    (edges : List KnowledgeEdge) (filesPatched : Nat) (graph : KnowledgeGraph) :
    Except PatchError (KnowledgeGraph × PatchResult) :=
  match dropEdgesToUnknownTargets maxVariables graph nodes edges with
  | none => .error .tooManyVariables
  | some validEdges =>
      match applyPatch removeFiles nodes validEdges graph with
      | none => .error .foreignKey
      | some (graph, removed) =>
          .ok (graph, ⟨nodes.length, removed, validEdges.length, filesPatched⟩)

def ParserEnv.patch (env : ParserEnv) (maxVariables : Nat) (tree : Tree) (delta : IndexDelta)
    (graph : KnowledgeGraph) : Except PatchError (KnowledgeGraph × PatchResult) :=
  if delta.isEmpty then .ok (graph, ⟨0, 0, 0, 0⟩)
  else
    let parsed := env.parsed tree delta
    let nodes := parsed.flatMap Prod.fst
    let edges := parsed.flatMap Prod.snd
    if delta.removeFiles.isEmpty && nodes.isEmpty && edges.isEmpty then
      .ok (graph, ⟨0, 0, 0, parsed.length⟩)
    else commitPatch maxVariables delta.removeFiles nodes edges parsed.length graph

end Velune.Intelligence
