/-
When a patch of the knowledge graph commits.

The edges a parse yields start at nodes of the same parse
(`parse_sources`), so only a target can be missing. A target is looked up
in the graph as it is before the patch deletes from it: an edge of this
patch to a node that the patch deletes and does not put again violates
the foreign key, and nothing else does (`patch_commits_iff`).
-/
import Velune.Intelligence.GraphPatcher

namespace Velune.Intelligence

open Lib Knowledge

-- ===== deletions

def deletes (paths : List PyStr) (id : PyStr) (node : KnowledgeNode) : Bool :=
  (node.filePath.any fun path => decide (path ∈ paths))
    || paths.any fun path => decide (id = fileNid path)

def dooms (graph : KnowledgeGraph) (paths : List PyStr) (id : PyStr) : Bool :=
  graph.takes (deletes paths) id

theorem delete_eq (graph : KnowledgeGraph) (paths : List PyStr) :
    (deleteNodesByFiles paths graph).1 = graph.delete (deletes paths) :=
  Tables.delete_delete _ _ _

-- ===== parses

section Parses

variable {env : ParserEnv} {relPath : PyStr} {file : Option FileOnDisk} {renamedFrom : Option PyStr}
variable {nodes : List KnowledgeNode} {edges : List KnowledgeEdge}

theorem symbol_sources {symbols : List RepositorySymbol} {sym : RepositorySymbol}
    {e : KnowledgeEdge} (h : e ∈ sym.edges relPath symbols) :
    e.source = fileNid relPath ∨ ∃ s ∈ symbols, e.source = s.nid relPath := by
  rcases List.mem_cons.1 h with rfl | h
  · exact Or.inl rfl
  · split at h
    · cases h
    · cases h
    · split at h
      · cases h
      · rename_i parentSym hfind
        rw [List.mem_singleton.1 h]
        exact Or.inr ⟨parentSym, List.mem_of_find?_eq_some hfind, rfl⟩

/-- What `_parse_file` may return. -/
theorem parse_cases (h : env.parseFile relPath file renamedFrom = some (nodes, edges)) :
    (∃ node, nodes = [node] ∧ edges = [] ∧ node.id = fileNid relPath
        ∧ node.filePath = some relPath)
      ∨ (nodes = [] ∧ edges = [])
      ∨ ∃ file, ∃ symbols : List RepositorySymbol, ∃ repoEdges : List RepositoryEdge, nodes = env.fileNode relPath file renamedFrom
            :: symbols.map (RepositorySymbol.node relPath)
        ∧ edges = symbols.flatMap (RepositorySymbol.edges relPath symbols)
          ++ repoEdges.filterMap (RepositoryEdge.edge relPath) := by
  obtain ⟨file, -, h⟩ := Option.bind_eq_some_iff.1 h
  split at h
  · cases h
    exact Or.inl ⟨_, rfl, rfl, rfl, rfl⟩
  · obtain ⟨content, -, h⟩ := Option.bind_eq_some_iff.1 h
    split at h
    · cases h
      exact Or.inl ⟨_, rfl, rfl, rfl, rfl⟩
    · split at h
      · cases h
        exact Or.inr (Or.inl ⟨rfl, rfl⟩)
      · cases h
        exact Or.inr (Or.inr ⟨_, _, _, rfl, rfl⟩)

theorem parse_sources (h : env.parseFile relPath file renamedFrom = some (nodes, edges))
    {e : KnowledgeEdge} (he : e ∈ edges) : e.source ∈ nodes.map KnowledgeNode.id := by
  rcases parse_cases h with ⟨node, -, rfl, -⟩ | ⟨-, rfl⟩ | ⟨file, symbols, repoEdges, rfl, rfl⟩
  · cases he
  · cases he
  · have hfile : fileNid relPath ∈ (env.fileNode relPath file renamedFrom
        :: symbols.map (RepositorySymbol.node relPath)).map KnowledgeNode.id := List.mem_cons_self ..
    rcases List.mem_append.1 he with hsym | hrepo
    · obtain ⟨sym, -, hedge⟩ := List.mem_flatMap.1 hsym
      rcases symbol_sources hedge with heq | ⟨s, hs, heq⟩
      · rw [heq]
        exact hfile
      · rw [heq]
        exact List.mem_cons_of_mem _ (List.mem_map.2 ⟨_, List.mem_map.2 ⟨s, hs, rfl⟩, rfl⟩)
    · obtain ⟨r, -, hr⟩ := List.mem_filterMap.1 hrepo
      obtain ⟨edgeType, -, rfl⟩ := Option.map_eq_some_iff.1 hr
      exact hfile

theorem parse_paths (h : env.parseFile relPath file renamedFrom = some (nodes, edges))
    {node : KnowledgeNode} (hn : node ∈ nodes) : node.filePath = some relPath := by
  rcases parse_cases h with ⟨one, rfl, -, -, hpath⟩ | ⟨rfl, -⟩ | ⟨file, symbols, repoEdges, rfl, -⟩
  · rw [List.mem_singleton.1 hn]
    exact hpath
  · cases hn
  · rcases List.mem_cons.1 hn with rfl | hn
    · rfl
    · obtain ⟨sym, -, rfl⟩ := List.mem_map.1 hn
      rfl

end Parses

-- ===== patches

def ParserEnv.nodesOf (env : ParserEnv) (tree : Tree) (delta : IndexDelta) : List KnowledgeNode :=
  (env.parsed tree delta).flatMap Prod.fst

def ParserEnv.edgesOf (env : ParserEnv) (tree : Tree) (delta : IndexDelta) : List KnowledgeEdge :=
  (env.parsed tree delta).flatMap Prod.snd

def ParserEnv.adds (env : ParserEnv) (tree : Tree) (delta : IndexDelta) (id : PyStr) : Prop :=
  id ∈ (env.nodesOf tree delta).map KnowledgeNode.id

instance (env : ParserEnv) (tree : Tree) (delta : IndexDelta) (id : PyStr) :
    Decidable (env.adds tree delta id) := inferInstanceAs (Decidable (_ ∈ _))

def ParserEnv.unresolved (env : ParserEnv) (tree : Tree) (delta : IndexDelta) : List PyStr :=
  ((env.edgesOf tree delta).map KnowledgeEdge.target).filter
    fun id => id ∉ (env.nodesOf tree delta).map KnowledgeNode.id

/-- The lookup fits in a query, and no edge of the delta points to a node
that the delta deletes and does not put again. -/
def ParserEnv.Harmless (env : ParserEnv) (maxVariables : Nat) (tree : Tree) (delta : IndexDelta)
    (graph : KnowledgeGraph) : Prop :=
  (env.unresolved tree delta).dedup.length ≤ maxVariables
    ∧ ∀ e ∈ env.edgesOf tree delta,
      env.adds tree delta e.target ∨ dooms graph delta.removeFiles e.target = false

instance (env : ParserEnv) (maxVariables : Nat) (tree : Tree) (delta : IndexDelta)
    (graph : KnowledgeGraph) : Decidable (env.Harmless maxVariables tree delta graph) :=
  inferInstanceAs (Decidable (_ ∧ ∀ e ∈ _, _ ∨ _))

section Patches

variable {env : ParserEnv} {maxVariables : Nat} {tree : Tree} {delta : IndexDelta}
variable {graph graph' : KnowledgeGraph}

def ParserEnv.valid (env : ParserEnv) (tree : Tree) (delta : IndexDelta) (graph : KnowledgeGraph) :
    List KnowledgeEdge :=
  (env.edgesOf tree delta).filter fun e =>
    env.adds tree delta e.target ∨ (graph.nodes e.target).isSome = true

theorem drop_eq (graph : KnowledgeGraph) :
    dropEdgesToUnknownTargets maxVariables graph (env.nodesOf tree delta) (env.edgesOf tree delta)
      = if maxVariables < (env.unresolved tree delta).dedup.length then none
        else some (env.valid tree delta graph) := by
  unfold dropEdgesToUnknownTargets existingNodeIds
  change Option.bind (if maxVariables < (env.unresolved tree delta).dedup.length then none
    else some ((env.unresolved tree delta).dedup.filter fun id => (graph.nodes id).isSome)) _ = _
  split
  · rfl
  · change some _ = some _
    refine congrArg some (List.filter_congr fun e he => ?_)
    rw [Bool.eq_iff_iff, decide_eq_true_iff, decide_eq_true_iff]
    refine or_congr_right' fun hadded => ?_
    rw [List.mem_filter, List.mem_dedup]
    refine ⟨fun h => h.2, fun h => ⟨?_, h⟩⟩
    exact List.mem_filter.2 ⟨List.mem_map.2 ⟨e, he, rfl⟩, decide_eq_true hadded⟩

theorem mem_parsed {nodes : List KnowledgeNode} {edges : List KnowledgeEdge}
    (h : (nodes, edges) ∈ env.parsed tree delta) : ∃ path ∈ delta.toProcess,
      env.parseFile path (tree path) (delta.renameSourceOf path) = some (nodes, edges) :=
  List.mem_filterMap.1 h

theorem edgesOf_sources {e : KnowledgeEdge} (he : e ∈ env.edgesOf tree delta) :
    env.adds tree delta e.source := by
  obtain ⟨⟨nodes, edges⟩, hparsed, hedge⟩ := List.mem_flatMap.1 he
  obtain ⟨path, -, hparse⟩ := mem_parsed hparsed
  obtain ⟨node, hnode, hid⟩ := List.mem_map.1 (parse_sources hparse hedge)
  exact List.mem_map.2 ⟨node, List.mem_flatMap.2 ⟨_, hparsed, hnode⟩, hid⟩

theorem nodesOf_paths {node : KnowledgeNode} (hn : node ∈ env.nodesOf tree delta) :
    ∃ path ∈ delta.toProcess, node.filePath = some path := by
  obtain ⟨⟨nodes, edges⟩, hparsed, hnode⟩ := List.mem_flatMap.1 hn
  obtain ⟨path, hpath, hparse⟩ := mem_parsed hparsed
  exact ⟨path, hpath, parse_paths hparse hnode⟩

def ParserEnv.withNodes (env : ParserEnv) (tree : Tree) (delta : IndexDelta)
    (graph : KnowledgeGraph) : KnowledgeGraph :=
  (graph.delete (deletes delta.removeFiles)).putNodes
    ((env.nodesOf tree delta).map KnowledgeNode.row)

theorem rows_ids (nodes : List KnowledgeNode) :
    (nodes.map KnowledgeNode.row).map (·.1) = nodes.map KnowledgeNode.id := by
  rw [List.map_map]
  rfl

theorem withNodes_isSome (id : PyStr) :
    ((env.withNodes tree delta graph).nodes id).isSome = true ↔ env.adds tree delta id
      ∨ ((graph.nodes id).isSome = true ∧ dooms graph delta.removeFiles id = false) := by
  unfold ParserEnv.withNodes
  rw [Tables.putNodes_nodes, Option.isSome_or, Bool.or_eq_true, latest_isSome, rows_ids]
  refine or_congr Iff.rfl ?_
  change (if dooms graph delta.removeFiles id then none else graph.nodes id).isSome = true ↔ _
  cases dooms graph delta.removeFiles id with
  | true => exact iff_of_false (fun h => Bool.false_ne_true h) fun h => Bool.false_ne_true h.2.symm
  | false => exact ⟨fun h => ⟨h, rfl⟩, fun h => h.1⟩

/-- The foreign keys of the edges that are kept hold exactly when none of
them points to a node that is gone. -/
theorem valid_ends : (∀ row ∈ (env.valid tree delta graph).map KnowledgeEdge.row,
      ((env.withNodes tree delta graph).nodes row.1.1).isSome = true
        ∧ ((env.withNodes tree delta graph).nodes row.1.2.1).isSome = true)
    ↔ ∀ e ∈ env.edgesOf tree delta,
      env.adds tree delta e.target ∨ dooms graph delta.removeFiles e.target = false := by
  rw [List.forall_mem_map]
  refine ⟨fun h e he => ?_, fun h e he => ?_⟩
  · by_cases hthere : (graph.nodes e.target).isSome = true
    · have hvalid : e ∈ env.valid tree delta graph :=
        List.mem_filter.2 ⟨he, decide_eq_true (Or.inr hthere)⟩
      exact ((withNodes_isSome e.target).1 (h e hvalid).2).imp_right fun h => h.2
    · refine Or.inr ?_
      unfold dooms Tables.takes
      rw [Option.not_isSome_iff_eq_none.1 hthere]
      rfl
  · obtain ⟨he, hkept⟩ := List.mem_filter.1 he
    refine ⟨(withNodes_isSome e.source).2 (Or.inl (edgesOf_sources he)), ?_⟩
    refine (withNodes_isSome e.target).2 ?_
    rcases of_decide_eq_true hkept with hadds | hthere
    · exact Or.inl hadds
    · exact (h e he).imp_right fun hstay => ⟨hthere, hstay⟩

def ParserEnv.patched (env : ParserEnv) (tree : Tree) (delta : IndexDelta)
    (graph : KnowledgeGraph) : KnowledgeGraph :=
  { env.withNodes tree delta graph with
    edges := ((env.valid tree delta graph).map KnowledgeEdge.row).foldl
      (fun d row => d.insert row.1 row.2) (graph.delete (deletes delta.removeFiles)).edges }

theorem delete_nothing (graph : KnowledgeGraph) : graph.delete (deletes []) = graph := by
  have hnone : ∀ id, graph.takes (deletes []) id = false := by
    intro id
    unfold Tables.takes
    cases graph.nodes id with
    | none => rfl
    | some node =>
        change ((node.filePath.any fun path => decide (path ∈ [])) || false) = false
        cases node.filePath <;> rfl
  unfold Tables.delete
  simp only [hnone, Bool.or_self, Bool.false_eq_true, if_false]

theorem patched_nothing (hremove : delta.removeFiles = []) (hnodes : env.nodesOf tree delta = [])
    (hedges : env.edgesOf tree delta = []) : env.patched tree delta graph = graph
      ∧ env.Harmless maxVariables tree delta graph := by
  refine ⟨?_, ?_, fun e he => ?_⟩
  · unfold ParserEnv.patched ParserEnv.withNodes ParserEnv.valid
    rw [hremove, hnodes, hedges, delete_nothing]
    rfl
  · unfold ParserEnv.unresolved
    rw [hedges]
    exact Nat.zero_le _
  · rw [hedges] at he
    cases he

/-- `apply_patch` with the edges that are kept. -/
theorem applyPatch_eq : (applyPatch delta.removeFiles (env.nodesOf tree delta)
      (env.valid tree delta graph) graph).map Prod.fst
    = if ∀ e ∈ env.edgesOf tree delta,
        env.adds tree delta e.target ∨ dooms graph delta.removeFiles e.target = false then
        some (env.patched tree delta graph)
      else none := by
  have hpair : deleteNodesByFiles delta.removeFiles graph
      = (graph.delete (deletes delta.removeFiles), (deleteNodesByFiles delta.removeFiles graph).2) :=
    Prod.ext (delete_eq _ _) rfl
  unfold applyPatch
  rw [hpair]
  dsimp only
  rw [Option.map_map]
  change Option.map id ((env.withNodes tree delta graph).putEdges _) = _
  rw [Option.map_id]
  split
  · rename_i hends
    exact Tables.putEdges_eq_some.2 ⟨valid_ends.2 hends, rfl⟩
  · rename_i hends
    refine Option.eq_none_iff_forall_ne_some.2 fun after hput => hends ?_
    exact valid_ends.1 (Tables.putEdges_eq_some.1 hput).1

def after (result : Except PatchError (KnowledgeGraph × PatchResult)) : Option KnowledgeGraph :=
  match result with
  | .ok (graph, _) => some graph
  | .error _ => none

theorem commit_graph (filesPatched : Nat) : after (commitPatch maxVariables delta.removeFiles
      (env.nodesOf tree delta) (env.edgesOf tree delta) filesPatched graph)
    = if env.Harmless maxVariables tree delta graph then some (env.patched tree delta graph)
      else none := by
  unfold commitPatch
  rw [drop_eq]
  by_cases hmany : maxVariables < (env.unresolved tree delta).dedup.length
  · rw [if_pos hmany, if_neg fun h => Nat.not_le_of_lt hmany h.1]
    rfl
  · rw [if_neg hmany]
    dsimp only
    have hfew := Nat.le_of_not_lt hmany
    have happly : (applyPatch delta.removeFiles (env.nodesOf tree delta)
        (env.valid tree delta graph) graph).map Prod.fst = _ := applyPatch_eq
    cases hresult : applyPatch delta.removeFiles (env.nodesOf tree delta)
        (env.valid tree delta graph) graph with
    | none =>
        rw [hresult] at happly
        split at happly
        · cases happly
        · rename_i hends
          rw [if_neg fun h => hends h.2]
          rfl
    | some pair =>
        rw [hresult] at happly
        split at happly
        · rename_i hends
          rw [if_pos ⟨hfew, hends⟩]
          exact happly
        · cases happly

theorem patch_graph : after (env.patch maxVariables tree delta graph)
    = if env.Harmless maxVariables tree delta graph then some (env.patched tree delta graph)
      else none := by
  unfold ParserEnv.patch
  split
  · -- an empty delta
    rename_i hempty
    rw [IndexDelta.isEmpty, Bool.and_eq_true, Bool.and_eq_true, List.isEmpty_iff, List.isEmpty_iff,
      List.isEmpty_iff] at hempty
    obtain ⟨⟨hadd, hupdate⟩, hremove⟩ := hempty
    have hparsed : env.parsed tree delta = [] := by
      unfold ParserEnv.parsed IndexDelta.toProcess
      rw [hadd, hupdate]
      rfl
    have hfiles : delta.removeFiles = [] := by
      rw [IndexDelta.removeFiles, hremove, hupdate]
      rfl
    obtain ⟨hsame, hharmless⟩ := patched_nothing hfiles
      (congrArg (List.flatMap Prod.fst) hparsed) (congrArg (List.flatMap Prod.snd) hparsed)
    rw [if_pos hharmless, hsame]
    rfl
  · dsimp only
    split
    · rename_i hnone
      rw [Bool.and_eq_true, Bool.and_eq_true, List.isEmpty_iff, List.isEmpty_iff,
        List.isEmpty_iff] at hnone
      obtain ⟨hsame, hharmless⟩ := patched_nothing hnone.1.1 hnone.1.2 hnone.2
      rw [if_pos hharmless, hsame]
      rfl
    · exact commit_graph _

theorem patched_joined (h : graph.Joined) (hharmless : env.Harmless maxVariables tree delta graph) :
    (env.patched tree delta graph).Joined := by
  have hput : (env.withNodes tree delta graph).putEdges
      ((env.valid tree delta graph).map KnowledgeEdge.row) = some (env.patched tree delta graph) :=
    Tables.putEdges_eq_some.2 ⟨valid_ends.2 hharmless.2, rfl⟩
  exact ((h.delete _).putNodes _).putEdges hput

theorem patched_nodes (id : PyStr) : (env.patched tree delta graph).nodes id
    = (latest ((env.nodesOf tree delta).map KnowledgeNode.row) id).or
      (if dooms graph delta.removeFiles id then none else graph.nodes id) :=
  Tables.putNodes_nodes _ _ id

theorem patched_removed {path : PyStr} (hpath : path ∈ delta.toRemove)
    (hgone : path ∉ delta.toProcess) {id : PyStr} {node : KnowledgeNode}
    (hn : (env.patched tree delta graph).nodes id = some node) : node.filePath ≠ some path := by
  intro hfile
  rw [patched_nodes] at hn
  rcases Option.or_eq_some_iff.1 hn with hnew | ⟨-, hold⟩
  · obtain ⟨new, hnew, hrow⟩ := List.mem_map.1 (latest_mem hnew)
    have hsame : new = node := congrArg Prod.snd hrow
    obtain ⟨other, hother, hpathOf⟩ := nodesOf_paths hnew
    rw [hsame, hfile] at hpathOf
    cases hpathOf
    exact hgone hother
  · split at hold
    · cases hold
    · rename_i hstays
      refine hstays ?_
      unfold dooms Tables.takes
      rw [hold, Option.any_some]
      unfold deletes
      rw [hfile, Option.any_some, Bool.or_eq_true]
      exact Or.inl (decide_eq_true (List.mem_append_left _ hpath))

end Patches

-- ===== claim

/-- A patch that commits leaves a graph whose edges all join two nodes, and
no node of a file that was removed. -/
def ParserEnv.Commits (env : ParserEnv) (maxVariables : Nat) (tree : Tree) (delta : IndexDelta)
    (graph : KnowledgeGraph) : Prop :=
  ∃ graph' result, env.patch maxVariables tree delta graph = .ok (graph', result) ∧ graph'.Joined
    ∧ ∀ path ∈ delta.toRemove, path ∉ delta.toProcess → ∀ id node,
      graph'.nodes id = some node → node.filePath ≠ some path

/-- A patch is aborted by its own edges alone: by one to a node that it
deletes and does not put again, or by too many that it has to look up. -/
theorem patch_commits_iff (env : ParserEnv) (maxVariables : Nat) (tree : Tree) (delta : IndexDelta)
    (graph : KnowledgeGraph) (hgraph : graph.Joined) :
    env.Commits maxVariables tree delta graph ↔ env.Harmless maxVariables tree delta graph := by
  have hpatch : after (env.patch maxVariables tree delta graph) = _ := patch_graph
  refine ⟨fun ⟨graph', result, hok, _, _⟩ => ?_, fun hharmless => ?_⟩
  · by_contra hnot
    rw [hok, if_neg hnot] at hpatch
    cases hpatch
  · rw [if_pos hharmless] at hpatch
    cases hresult : env.patch maxVariables tree delta graph with
    | error e =>
        rw [hresult] at hpatch
        cases hpatch
    | ok pair =>
        obtain ⟨graph', result⟩ := pair
        rw [hresult] at hpatch
        cases hpatch
        exact ⟨_, result, hresult, patched_joined hgraph hharmless,
          fun path hpath hgone id node hn => patched_removed hpath hgone hn⟩

/-- A parser of one C file: it includes `b.h`, or nothing. -/
def includes : ParserEnv where
  parse path content :=
    if content = "#include <b.h>".toList then
      some ([⟨"b.h".toList, .import, path, 1, 1, none, some ("import ".toList ++ path), none, false,
        false, none⟩], [⟨"b.h".toList, "imports".toList, 1⟩])
    else some ([], [])
  volatility _ := 0

def sourceFile (text : String) : FileOnDisk := ⟨"cpp".toList, text.length, some text.toList⟩

/-- `main.c` and the file it includes. -/
def bothFiles : Tree := fun path =>
  if path = "main.c".toList then some (sourceFile "#include <b.h>")
  else if path = "b.h".toList then some (sourceFile "int b;")
  else none

/-- `main.c` alone. -/
def mainAlone : Tree := fun path =>
  if path = "main.c".toList then some (sourceFile "#include <b.h>") else none

def addBoth : IndexDelta := ⟨["main.c".toList, "b.h".toList], [], [], []⟩

def bothGraph : KnowledgeGraph := includes.patched bothFiles addBoth Tables.empty

theorem bothGraph_joined : bothGraph.Joined :=
  patched_joined Tables.joined_empty (show includes.Harmless 32766 _ _ _ by decide)

theorem addBoth_commits : includes.Commits 32766 bothFiles addBoth Tables.empty :=
  (patch_commits_iff includes 32766 bothFiles addBoth Tables.empty Tables.joined_empty).2 (by decide)

/-- The included file is removed while `main.c` is updated. -/
theorem patch_aborted : bothGraph.Joined ∧ ¬ includes.Commits 32766 mainAlone
    ⟨[], ["main.c".toList], ["b.h".toList], []⟩ bothGraph := by
  refine ⟨bothGraph_joined, fun ⟨graph', result, hok, _, _⟩ => ?_⟩
  have hnone : (after (includes.patch 32766 mainAlone
      ⟨[], ["main.c".toList], ["b.h".toList], []⟩ bothGraph)).isNone = true := by decide +kernel
  rw [hok] at hnone
  cases hnone

end Velune.Intelligence
