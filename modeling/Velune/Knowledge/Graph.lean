/-
The repository knowledge graph (`knowledge/graph.py`, `knowledge/schemas.py`):
its two tables, and `apply_patch`, which deletes the nodes of some files
and puts nodes and edges, in one transaction.
-/
import Mathlib.Data.List.Dedup
import Mathlib.Data.Rat.Defs
import Velune.Domain
import Velune.Lib.Tables

namespace Velune.Knowledge

open Lib

inductive NodeType
  | file
  | module
  | «class»
  | function
  | method
  | capability
  | runtimeEntrypoint
  deriving DecidableEq

inductive EdgeType
  | imports
  | contains
  | inherits
  | defines
  | calls
  | tests
  | evolvedFrom
  deriving DecidableEq

inductive Meta
  | text (s : PyStr)
  | number (n : Nat)
  | flag (b : Bool)
  deriving DecidableEq

structure KnowledgeNode where
  id : PyStr
  nodeType : NodeType
  label : PyStr
  filePath : Option PyStr
  lineStart : Option Int
  lineEnd : Option Int
  metaData : List (String × Meta)
  confidence : Rat
  provenance : List String
  deriving DecidableEq

structure KnowledgeEdge where
  source : PyStr
  target : PyStr
  edgeType : EdgeType
  weight : Rat
  confidence : Rat
  provenance : List PyStr
  deriving DecidableEq

/-- `kg_nodes` and `kg_edges`, without the time of their last update. -/
abbrev KnowledgeGraph := Tables PyStr KnowledgeNode EdgeType KnowledgeEdge

def KnowledgeNode.row (n : KnowledgeNode) : PyStr × KnowledgeNode := (n.id, n)

def KnowledgeEdge.row (e : KnowledgeEdge) : (PyStr × PyStr × EdgeType) × KnowledgeEdge :=
  ((e.source, e.target, e.edgeType), e)

def fileNid (path : PyStr) : PyStr := "file:".toList ++ path

/-- The `rowcount` a deletion of file nodes leaves. -/
def deletedRows (graph : KnowledgeGraph) (paths : List PyStr) : Nat :=
  (paths.dedup.filter fun path => (graph.nodes (fileNid path)).isSome).length

/-- `_do_delete_nodes_by_files`; the count is that of its second
`DELETE`. -/
def deleteNodesByFiles (paths : List PyStr) (graph : KnowledgeGraph) : KnowledgeGraph × Nat :=
  let left := graph.delete fun _ node => node.filePath.any fun path => decide (path ∈ paths)
  (left.delete fun id _ => paths.any fun path => decide (id = fileNid path), deletedRows left paths)

/-- `apply_patch`; `none` when a foreign key is violated, and the
transaction is rolled back. -/
def applyPatch (removeFiles : List PyStr) (nodes : List KnowledgeNode) (edges : List KnowledgeEdge)
    (graph : KnowledgeGraph) : Option (KnowledgeGraph × Nat) :=
  let (left, removed) := deleteNodesByFiles removeFiles graph
  ((left.putNodes (nodes.map KnowledgeNode.row)).putEdges (edges.map KnowledgeEdge.row)).map
    fun graph => (graph, removed)

/-- `existing_node_ids`; `none` when the query has more variables than
SQLite allows. -/
def existingNodeIds (maxVariables : Nat) (ids : List PyStr) (graph : KnowledgeGraph) :
    Option (List PyStr) :=
  if maxVariables < ids.dedup.length then none
  else some (ids.dedup.filter fun id => (graph.nodes id).isSome)

end Velune.Knowledge
