/-
When patching the knowledge graph equals rebuilding it.

The graph of a tree has each file's nodes, and each file's edges to the
nodes there are (`IsGraphOf`). A patch from one tree to the next keeps
this (`patched_isGraphOf`) when no file it leaves alone has an edge to a
node that it puts: such an edge was dropped when its target was not there
yet, or goes with the old node of its target, and is never put again
(`edge_lost`).
-/
import Velune.Intelligence.Proofs.Patch
import Velune.Knowledge.Subgraph
import Velune.Lib.Runs

namespace Velune.Intelligence

open Lib Knowledge

-- ===== the graph

section Files

variable (env : ParserEnv) (tree : Tree)

def ParserEnv.fileNodes (path : PyStr) : List KnowledgeNode :=
  ((env.parseFile path (tree path) none).map Prod.fst).getD []

def ParserEnv.fileEdges (path : PyStr) : List KnowledgeEdge :=
  ((env.parseFile path (tree path) none).map Prod.snd).getD []

def ParserEnv.owns (path id : PyStr) : Prop :=
  id = fileNid path ∨ id ∈ (env.fileNodes tree path).map KnowledgeNode.id

def ParserEnv.NoClash : Prop := ∀ path other id, (tree path).isSome = true →
  (tree other).isSome = true → env.owns tree path id → env.owns tree other id → path = other

def ParserEnv.nodeAt (path id : PyStr) : Option KnowledgeNode :=
  latest ((env.fileNodes tree path).map KnowledgeNode.row) id

def ParserEnv.edgeAt (path : PyStr) (key : PyStr × PyStr × EdgeType) : Option KnowledgeEdge :=
  latest ((env.fileEdges tree path).map KnowledgeEdge.row) key

structure ParserEnv.IsGraphOf (graph : KnowledgeGraph) : Prop where
  nodes : ∀ id node, graph.nodes id = some node ↔
    ∃ path, (tree path).isSome = true ∧ env.nodeAt tree path id = some node
  edges : ∀ key e, graph.edges key = some e ↔
    (∃ path, (tree path).isSome = true ∧ env.edgeAt tree path key = some e)
      ∧ (graph.nodes key.2.1).isSome = true

end Files

section Files

variable {env : ParserEnv} {tree tree' : Tree} {graph graph' : KnowledgeGraph} {path id : PyStr}
variable {key : PyStr × PyStr × EdgeType} {node : KnowledgeNode} {e : KnowledgeEdge}

theorem isGraphOf_unique (h : env.IsGraphOf tree graph) (h' : env.IsGraphOf tree graph') :
    graph = graph' := by
  have hnodes : graph.nodes = graph'.nodes := by
    funext id
    refine Option.ext fun node => ?_
    rw [h.nodes, h'.nodes]
  have hedges : graph.edges = graph'.edges := by
    funext key
    refine Option.ext fun e => ?_
    rw [h.edges, h'.edges, hnodes]
  exact congrArg₂ Tables.mk hnodes hedges

theorem nodeAt_owns (h : env.nodeAt tree path id = some node) : env.owns tree path id := by
  obtain ⟨n, hn, hrow⟩ := List.mem_map.1 (latest_mem h)
  exact Or.inr (List.mem_map.2 ⟨n, hn, congrArg Prod.fst hrow⟩)

theorem nodeAt_path (h : env.nodeAt tree path id = some node) : node.filePath = some path := by
  obtain ⟨n, hn, hrow⟩ := List.mem_map.1 (latest_mem h)
  have hsame : n = node := congrArg Prod.snd hrow
  rw [← hsame]
  unfold ParserEnv.fileNodes at hn
  cases hparse : env.parseFile path (tree path) none with
  | none =>
      rw [hparse] at hn
      cases hn
  | some pair =>
      obtain ⟨nodes, edges⟩ := pair
      rw [hparse] at hn
      exact parse_paths hparse hn

theorem edge_source (h : e ∈ env.fileEdges tree path) :
    (env.nodeAt tree path e.source).isSome = true := by
  unfold ParserEnv.nodeAt
  rw [latest_isSome, rows_ids]
  unfold ParserEnv.fileEdges at h
  unfold ParserEnv.fileNodes
  cases hparse : env.parseFile path (tree path) none with
  | none =>
      rw [hparse] at h
      cases h
  | some pair =>
      obtain ⟨nodes, edges⟩ := pair
      rw [hparse] at h
      exact parse_sources hparse h

theorem edgeAt_mem (h : env.edgeAt tree path key = some e) :
    e ∈ env.fileEdges tree path ∧ key = (e.source, e.target, e.edgeType) := by
  obtain ⟨edge, hedge, hrow⟩ := List.mem_map.1 (latest_mem h)
  have hsame : edge = e := congrArg Prod.snd hrow
  subst hsame
  exact ⟨hedge, (congrArg Prod.fst hrow).symm⟩

theorem fileNodes_same (h : tree' path = tree path) :
    env.fileNodes tree' path = env.fileNodes tree path := by
  unfold ParserEnv.fileNodes
  rw [h]

theorem fileEdges_same (h : tree' path = tree path) :
    env.fileEdges tree' path = env.fileEdges tree path := by
  unfold ParserEnv.fileEdges
  rw [h]

end Files

-- ===== one patch

structure Turns (delta : IndexDelta) (tree tree' : Tree) : Prop where
  added : ∀ path ∈ delta.toAdd, tree path = none
  there : ∀ path ∈ delta.toProcess, (tree' path).isSome = true
  were : ∀ path ∈ delta.removeFiles, (tree path).isSome = true
  gone : ∀ path ∈ delta.toRemove, tree' path = none
  same : ∀ path, path ∉ delta.toProcess → path ∉ delta.toRemove → tree' path = tree path

/-- No file that the delta leaves alone has an edge to a node that the
delta puts. -/
def ParserEnv.Unlinked (env : ParserEnv) (delta : IndexDelta) (tree tree' : Tree) : Prop :=
  ∀ path, (tree path).isSome = true → path ∉ delta.toProcess → path ∉ delta.toRemove →
    ∀ e ∈ env.fileEdges tree path, ¬ env.adds tree' delta e.target

def ParserEnv.Untraced (env : ParserEnv) (tree : Tree) (delta : IndexDelta) : Prop :=
  ∀ path ∈ delta.toProcess, env.parseFile path (tree path) (delta.renameSourceOf path)
    = env.parseFile path (tree path) none

section Patching

variable {env : ParserEnv} {delta : IndexDelta} {tree tree' : Tree} {graph : KnowledgeGraph}
variable {path id : PyStr} {key : PyStr × PyStr × EdgeType} {node : KnowledgeNode}
variable {e : KnowledgeEdge} {maxVariables : Nat}

/-- Of the rows of several files the last under a key is that of the one
file that has the key. -/
theorem latest_files {κ ν : Type} [DecidableEq κ] {rows : PyStr → List (κ × ν)} {paths : List PyStr}
    {key : κ} {value : ν} (hone : ∀ path ∈ paths, ∀ other ∈ paths,
      (latest (rows path) key).isSome = true → (latest (rows other) key).isSome = true → path = other) :
    latest (paths.flatMap rows) key = some value
      ↔ ∃ path ∈ paths, latest (rows path) key = some value := by
  have hfile : ∀ path ∈ paths, (latest (rows path) key).isSome = true →
      latest (paths.flatMap rows) key = latest (rows path) key := by
    intro path hpath hsome
    refine latest_flatMap hpath fun other hother hne => ?_
    refine Option.not_isSome_iff_eq_none.1 fun hsome' => hne ?_
    exact (hone path hpath other hother hsome hsome').symm
  refine ⟨fun h => ?_, fun ⟨path, hpath, h⟩ => ?_⟩
  · obtain ⟨path, hpath, hrow⟩ := List.mem_flatMap.1 (latest_mem h)
    have hsome : (latest (rows path) key).isSome = true :=
      latest_isSome.2 (List.mem_map.2 ⟨_, hrow, rfl⟩)
    exact ⟨path, hpath, (hfile path hpath hsome).symm.trans h⟩
  · exact (hfile path hpath (Option.isSome_of_eq_some h)).trans h

theorem parsed_plain (hplain : env.Untraced tree delta) : env.parsed tree delta
    = delta.toProcess.filterMap fun path => env.parseFile path (tree path) none :=
  List.filterMap_congr hplain

theorem nodesOf_files (hplain : env.Untraced tree delta) :
    env.nodesOf tree delta = delta.toProcess.flatMap (env.fileNodes tree) := by
  unfold ParserEnv.nodesOf
  rw [parsed_plain hplain]
  induction delta.toProcess with
  | nil => rfl
  | cons path paths ih =>
      rw [List.flatMap_cons, ← ih, List.filterMap_cons]
      unfold ParserEnv.fileNodes
      cases env.parseFile path (tree path) none <;> rfl

theorem edgesOf_files (hplain : env.Untraced tree delta) :
    env.edgesOf tree delta = delta.toProcess.flatMap (env.fileEdges tree) := by
  unfold ParserEnv.edgesOf
  rw [parsed_plain hplain]
  induction delta.toProcess with
  | nil => rfl
  | cons path paths ih =>
      rw [List.flatMap_cons, ← ih, List.filterMap_cons]
      unfold ParserEnv.fileEdges
      cases env.parseFile path (tree path) none <;> rfl

theorem put_node (hplain : env.Untraced tree delta) (hthere : ∀ path ∈ delta.toProcess,
      (tree path).isSome = true) (hclash : env.NoClash tree) :
    latest ((env.nodesOf tree delta).map KnowledgeNode.row) id = some node
      ↔ ∃ path ∈ delta.toProcess, env.nodeAt tree path id = some node := by
  rw [nodesOf_files hplain, List.map_flatMap]
  refine latest_files fun path hpath other hother hsome hsome' => ?_
  obtain ⟨n, hn⟩ := Option.isSome_iff_exists.1 hsome
  obtain ⟨n', hn'⟩ := Option.isSome_iff_exists.1 hsome'
  exact hclash path other id (hthere path hpath) (hthere other hother) (nodeAt_owns hn)
    (nodeAt_owns hn')

theorem edgeAt_owns (h : env.edgeAt tree path key = some e) : env.owns tree path key.1 := by
  obtain ⟨hmem, rfl⟩ := edgeAt_mem h
  obtain ⟨n, hn⟩ := Option.isSome_iff_exists.1 (edge_source hmem)
  exact nodeAt_owns hn

theorem put_edge (hplain : env.Untraced tree delta) (hthere : ∀ path ∈ delta.toProcess,
      (tree path).isSome = true) (hclash : env.NoClash tree) :
    latest ((env.edgesOf tree delta).map KnowledgeEdge.row) key = some e
      ↔ ∃ path ∈ delta.toProcess, env.edgeAt tree path key = some e := by
  rw [edgesOf_files hplain, List.map_flatMap]
  refine latest_files fun path hpath other hother hsome hsome' => ?_
  obtain ⟨n, hn⟩ := Option.isSome_iff_exists.1 hsome
  obtain ⟨n', hn'⟩ := Option.isSome_iff_exists.1 hsome'
  exact hclash path other key.1 (hthere path hpath) (hthere other hother) (edgeAt_owns hn)
    (edgeAt_owns hn')

theorem valid_edge : latest ((env.valid tree delta graph).map KnowledgeEdge.row) key = some e
    ↔ latest ((env.edgesOf tree delta).map KnowledgeEdge.row) key = some e
      ∧ (env.adds tree delta key.2.1 ∨ (graph.nodes key.2.1).isSome = true) := by
  unfold ParserEnv.valid
  generalize env.edgesOf tree delta = edges
  have hfilter : ∀ edges : List KnowledgeEdge, latest ((edges.filter fun e =>
        decide (env.adds tree delta e.target ∨ (graph.nodes e.target).isSome = true)).map
          KnowledgeEdge.row) key
      = if env.adds tree delta key.2.1 ∨ (graph.nodes key.2.1).isSome = true then
          latest (edges.map KnowledgeEdge.row) key
        else none := by
    intro edges
    induction edges with
    | nil => exact (ite_self none).symm
    | cons e rest ih =>
        have hcons : latest ((e :: rest).map KnowledgeEdge.row) key
            = (latest (rest.map KnowledgeEdge.row) key).or
              (if e.row.1 = key then some e else none) := rfl
        rw [hcons, List.filter_cons]
        by_cases hkey : e.row.1 = key
        · have htarget : key.2.1 = e.target := by rw [← hkey]; rfl
          rw [htarget] at ih ⊢
          by_cases hkept : env.adds tree delta e.target ∨ (graph.nodes e.target).isSome = true
          · rw [if_pos (decide_eq_true hkept), if_pos hkept]
            rw [if_pos hkept] at ih
            exact congrArg (fun o => Option.or o (if e.row.1 = key then some e else none)) ih
          · rw [decide_eq_false hkept, if_neg Bool.false_ne_true, if_neg hkept]
            rw [if_neg hkept] at ih
            exact ih
        · rw [if_neg hkey, Option.or_none, ← ih]
          split
          · change (latest _ key).or (if e.row.1 = key then some e else none) = _
            rw [if_neg hkey, Option.or_none]
          · rfl
  rw [hfilter]
  split
  · rename_i hkept
    exact ⟨fun h => ⟨h, hkept⟩, fun h => h.1⟩
  · rename_i hkept
    exact iff_of_false (by simp) fun h => hkept h.2

theorem left_alone (hturns : Turns delta tree tree') (hthere : (tree path).isSome = true)
    (hkept : path ∉ delta.removeFiles) : path ∉ delta.toProcess ∧ tree' path = tree path := by
  have hremove : path ∉ delta.toRemove := fun h => hkept (List.mem_append_left _ h)
  have hprocess : path ∉ delta.toProcess := by
    intro hmem
    rcases List.mem_append.1 hmem with hadd | hupdate
    · rw [hturns.added path hadd] at hthere
      cases hthere
    · exact hkept (List.mem_append_right _ hupdate)
  exact ⟨hprocess, hturns.same path hprocess hremove⟩

theorem was_there (hturns : Turns delta tree tree') (hthere : (tree' path).isSome = true)
    (hnot : path ∉ delta.toProcess) : path ∉ delta.removeFiles ∧ tree' path = tree path := by
  have hremove : path ∉ delta.toRemove := by
    intro hmem
    rw [hturns.gone path hmem] at hthere
    cases hthere
  refine ⟨fun hmem => ?_, hturns.same path hnot hremove⟩
  rcases List.mem_append.1 hmem with hgone | hupdate
  · exact hremove hgone
  · exact hnot (List.mem_append_right _ hupdate)

variable (hg : env.IsGraphOf tree graph)
include hg

theorem dooms_own {paths : List PyStr} (hthere : (tree path).isSome = true)
    (hnode : env.nodeAt tree path id = some node) (hmem : path ∈ paths) :
    dooms graph paths id = true := by
  have hrow : graph.nodes id = some node := (hg.nodes id node).2 ⟨path, hthere, hnode⟩
  unfold dooms Tables.takes
  rw [hrow, Option.any_some]
  unfold deletes
  rw [nodeAt_path hnode, Option.any_some, Bool.or_eq_true]
  exact Or.inl (decide_eq_true hmem)

theorem dooms_other {paths : List PyStr} (hclash : env.NoClash tree)
    (hpaths : ∀ other ∈ paths, (tree other).isSome = true) (hthere : (tree path).isSome = true)
    (hnode : env.nodeAt tree path id = some node) (hnot : path ∉ paths) :
    dooms graph paths id = false := by
  have hrow : graph.nodes id = some node := (hg.nodes id node).2 ⟨path, hthere, hnode⟩
  unfold dooms Tables.takes
  rw [hrow, Option.any_some]
  unfold deletes
  rw [nodeAt_path hnode, Option.any_some, Bool.or_eq_false_iff]
  refine ⟨decide_eq_false hnot, ?_⟩
  rw [List.any_eq_false]
  intro other hother hid
  have hown : env.owns tree other id := Or.inl (of_decide_eq_true hid)
  have hsame : path = other :=
    hclash path other id hthere (hpaths other hother) (nodeAt_owns hnode) hown
  exact hnot (hsame ▸ hother)

theorem patched_isNodesOf (hturns : Turns delta tree tree') (hplain : env.Untraced tree' delta)
    (hclash : env.NoClash tree) (hclash' : env.NoClash tree') (id : PyStr) (node : KnowledgeNode) :
    (env.patched tree' delta graph).nodes id = some node
      ↔ ∃ path, (tree' path).isSome = true ∧ env.nodeAt tree' path id = some node := by
  rw [patched_nodes, Option.or_eq_some_iff]
  refine ⟨fun h => ?_, fun ⟨path, hthere, hnode⟩ => ?_⟩
  · rcases h with hnew | ⟨-, hold⟩
    · obtain ⟨path, hpath, hnode⟩ := (put_node hplain hturns.there hclash').1 hnew
      exact ⟨path, hturns.there path hpath, hnode⟩
    · split at hold
      · cases hold
      · rename_i hstays
        obtain ⟨path, hthere, hnode⟩ := (hg.nodes id node).1 hold
        have hkept : path ∉ delta.removeFiles := fun hmem => hstays (dooms_own hg hthere hnode hmem)
        obtain ⟨-, hsame⟩ := left_alone hturns hthere hkept
        refine ⟨path, by rw [hsame]; exact hthere, ?_⟩
        unfold ParserEnv.nodeAt
        rw [fileNodes_same hsame]
        exact hnode
  · by_cases hprocess : path ∈ delta.toProcess
    · exact Or.inl ((put_node hplain hturns.there hclash').2 ⟨path, hprocess, hnode⟩)
    · obtain ⟨hkept, hsame⟩ := was_there hturns hthere hprocess
      refine Or.inr ⟨?_, ?_⟩
      · refine Option.eq_none_iff_forall_ne_some.2 fun other hput => ?_
        obtain ⟨path', hpath', hnode'⟩ := (put_node hplain hturns.there hclash').1 hput
        have hone : path = path' := hclash' path path' id hthere (hturns.there path' hpath')
          (nodeAt_owns hnode) (nodeAt_owns hnode')
        exact hprocess (hone ▸ hpath')
      · have hthere₀ : (tree path).isSome = true := by rw [← hsame]; exact hthere
        have hnode₀ : env.nodeAt tree path id = some node := by
          unfold ParserEnv.nodeAt
          rw [← fileNodes_same hsame]
          exact hnode
        rw [dooms_other hg hclash hturns.were hthere₀ hnode₀ hkept]
        exact (hg.nodes id node).2 ⟨path, hthere₀, hnode₀⟩

omit hg in
theorem patched_edges : (env.patched tree' delta graph).edges key
    = (latest ((env.valid tree' delta graph).map KnowledgeEdge.row) key).or
      (if dooms graph delta.removeFiles key.1 || dooms graph delta.removeFiles key.2.1 then none
        else graph.edges key) :=
  Tables.foldl_insert _ _ key

theorem patched_isEdgesOf (hturns : Turns delta tree tree') (hplain : env.Untraced tree' delta)
    (hclash : env.NoClash tree) (hclash' : env.NoClash tree')
    (hunlinked : env.Unlinked delta tree tree')
    (hharmless : env.Harmless maxVariables tree' delta graph)
    (key : PyStr × PyStr × EdgeType) (e : KnowledgeEdge) :
    (env.patched tree' delta graph).edges key = some e
      ↔ (∃ path, (tree' path).isSome = true ∧ env.edgeAt tree' path key = some e)
        ∧ ((env.patched tree' delta graph).nodes key.2.1).isSome = true := by
  have hends : ((env.patched tree' delta graph).nodes key.2.1).isSome = true
      ↔ env.adds tree' delta key.2.1
        ∨ ((graph.nodes key.2.1).isSome = true ∧ dooms graph delta.removeFiles key.2.1 = false) :=
    withNodes_isSome key.2.1
  rw [hends, patched_edges, Option.or_eq_some_iff, valid_edge,
    put_edge hplain hturns.there hclash']
  refine ⟨fun h => ?_, fun ⟨⟨path, hthere, hedge⟩, htarget⟩ => ?_⟩
  · rcases h with ⟨⟨path, hpath, hedge⟩, hfound⟩ | ⟨-, hold⟩
    · refine ⟨⟨path, hturns.there path hpath, hedge⟩, ?_⟩
      obtain ⟨hmem, rfl⟩ := edgeAt_mem hedge
      have hall : e ∈ env.edgesOf tree' delta := by
        rw [edgesOf_files hplain]
        exact List.mem_flatMap.2 ⟨path, hpath, hmem⟩
      rcases hharmless.2 e hall with hadds | hstay
      · exact Or.inl hadds
      · exact hfound.imp_right fun hrow => ⟨hrow, hstay⟩
    · split at hold
      · cases hold
      · rename_i hstays
        rw [Bool.or_eq_true, not_or, Bool.not_eq_true, Bool.not_eq_true] at hstays
        obtain ⟨⟨path, hthere, hedge⟩, hrow⟩ := (hg.edges key e).1 hold
        refine ⟨?_, Or.inr ⟨hrow, hstays.2⟩⟩
        have hkept : path ∉ delta.removeFiles := by
          intro hmem
          obtain ⟨hin, rfl⟩ := edgeAt_mem hedge
          obtain ⟨source, hsource⟩ := Option.isSome_iff_exists.1 (edge_source hin)
          exact Bool.false_ne_true (hstays.1.symm.trans (dooms_own hg hthere hsource hmem))
        obtain ⟨-, hsame⟩ := left_alone hturns hthere hkept
        refine ⟨path, by rw [hsame]; exact hthere, ?_⟩
        unfold ParserEnv.edgeAt
        rw [fileEdges_same hsame]
        exact hedge
  · by_cases hprocess : path ∈ delta.toProcess
    · exact Or.inl ⟨⟨path, hprocess, hedge⟩, htarget.imp_right fun h => h.1⟩
    · obtain ⟨hkept, hsame⟩ := was_there hturns hthere hprocess
      have hthere₀ : (tree path).isSome = true := by rw [← hsame]; exact hthere
      have hedge₀ : env.edgeAt tree path key = some e := by
        unfold ParserEnv.edgeAt
        rw [← fileEdges_same hsame]
        exact hedge
      obtain ⟨hin, hkey⟩ := edgeAt_mem hedge₀
      have htarget' : key.2.1 = e.target := by rw [hkey]
      have hnew : ¬ env.adds tree' delta key.2.1 := by
        rw [htarget']
        exact hunlinked path hthere₀ hprocess
          (fun h => hkept (List.mem_append_left _ h)) e hin
      obtain ⟨hrow, hstay⟩ := htarget.resolve_left hnew
      refine Or.inr ⟨?_, ?_⟩
      · refine Option.eq_none_iff_forall_ne_some.2 fun other hput => ?_
        obtain ⟨⟨path', hpath', hedge'⟩, -⟩ := valid_edge.1 hput |>.imp_left
          (put_edge hplain hturns.there hclash').1
        have hone : path = path' := hclash' path path' key.1 hthere (hturns.there path' hpath')
          (edgeAt_owns hedge) (edgeAt_owns hedge')
        exact hprocess (hone ▸ hpath')
      · have hsource : dooms graph delta.removeFiles key.1 = false := by
          obtain ⟨source, hsource⟩ := Option.isSome_iff_exists.1 (edge_source hin)
          rw [hkey]
          exact dooms_other hg hclash hturns.were hthere₀ hsource hkept
        rw [hsource, hstay]
        exact (hg.edges key e).2 ⟨⟨path, hthere₀, hedge₀⟩, hrow⟩

theorem patched_isGraphOf (hturns : Turns delta tree tree') (hplain : env.Untraced tree' delta)
    (hclash : env.NoClash tree) (hclash' : env.NoClash tree')
    (hunlinked : env.Unlinked delta tree tree')
    (hharmless : env.Harmless maxVariables tree' delta graph) :
    env.IsGraphOf tree' (env.patched tree' delta graph) where
  nodes := patched_isNodesOf hg hturns hplain hclash hclash'
  edges := patched_isEdgesOf hg hturns hplain hclash hclash' hunlinked hharmless

end Patching

-- ===== rebuilding

def Lists (files : List PyStr) (tree : Tree) : Prop := ∀ path, path ∈ files ↔ (tree path).isSome = true

def allFiles (files : List PyStr) : IndexDelta := ⟨files, [], [], []⟩

section Rebuilding

variable {env : ParserEnv} {tree : Tree} {files : List PyStr} {graph : KnowledgeGraph}
variable {maxVariables : Nat}

theorem empty_isGraphOf : env.IsGraphOf (fun _ => none) Tables.empty where
  nodes _ _ := iff_of_false (fun h => by cases h) fun ⟨_, h, _⟩ => by cases h
  edges _ _ := iff_of_false (fun h => by cases h) fun ⟨⟨_, h, _⟩, _⟩ => by cases h

theorem allFiles_process : (allFiles files).toProcess = files := List.append_nil files

theorem allFiles_untraced : env.Untraced tree (allFiles files) := fun _ _ => rfl

theorem allFiles_harmless
    (hfew : (env.unresolved tree (allFiles files)).dedup.length ≤ maxVariables) :
    env.Harmless maxVariables tree (allFiles files) Tables.empty :=
  ⟨hfew, fun _ _ => Or.inr rfl⟩

theorem built_isGraphOf (hlists : Lists files tree) (hclash : env.NoClash tree) :
    env.IsGraphOf tree (env.patched tree (allFiles files) Tables.empty) := by
  have hturns : Turns (allFiles files) (fun _ => none) tree := by
    refine ⟨fun _ _ => rfl, fun path hpath => ?_, fun _ h => (List.not_mem_nil h).elim,
      fun _ h => (List.not_mem_nil h).elim, fun path hnot _ => ?_⟩
    · rw [allFiles_process] at hpath
      exact (hlists path).1 hpath
    · rw [allFiles_process, hlists] at hnot
      exact Option.not_isSome_iff_eq_none.1 hnot
  have hnone : env.NoClash fun _ => none := fun _ _ _ h => by cases h
  exact patched_isGraphOf empty_isGraphOf hturns allFiles_untraced hnone hclash
    (fun _ h => by cases h) (allFiles_harmless (le_refl _))

theorem build_graph (hfew : (env.unresolved tree (allFiles files)).dedup.length ≤ maxVariables) :
    after (env.patch maxVariables tree (allFiles files) Tables.empty)
      = some (env.patched tree (allFiles files) Tables.empty) := by
  rw [patch_graph, if_pos (allFiles_harmless hfew)]

end Rebuilding

-- ===== runs

structure Repository where
  tree : Tree
  graph : KnowledgeGraph

/-- A delta, and the files that it adds or updates as they are then. -/
structure Change where
  delta : IndexDelta
  contents : Tree

def Change.on (change : Change) (tree : Tree) : Tree := fun path =>
  if path ∈ change.delta.toProcess then change.contents path
  else if path ∈ change.delta.toRemove then none
  else tree path

def Change.fits (change : Change) (tree : Tree) : Bool :=
  change.delta.toAdd.all (fun path => (tree path).isNone)
    && change.delta.removeFiles.all (fun path => (tree path).isSome)
    && change.delta.toProcess.all (fun path => (change.contents path).isSome)
    && change.delta.toRemove.all fun path => path ∉ change.delta.toProcess

/-- A change of the tree and the patch of its delta; a patch that is
aborted leaves the graph. -/
def ParserEnv.step (env : ParserEnv) (maxVariables : Nat) (change : Change) (s : Repository) :
    Option Repository :=
  if change.fits s.tree then
    let tree := change.on s.tree
    some ⟨tree, (after (env.patch maxVariables tree change.delta s.graph)).getD s.graph⟩
  else none

/-- The graph is what patching an empty one with all current files gives,
in any order. -/
def ParserEnv.Rebuilt (env : ParserEnv) (s : Repository) : Prop :=
  ∀ files maxVariables, Lists files s.tree →
    (env.unresolved s.tree (allFiles files)).dedup.length ≤ maxVariables →
      after (env.patch maxVariables s.tree (allFiles files) Tables.empty) = some s.graph

structure ParserEnv.Followed (env : ParserEnv) (maxVariables : Nat) (change : Change)
    (s : Repository) : Prop where
  clash : env.NoClash s.tree
  clash' : env.NoClash (change.on s.tree)
  untraced : env.Untraced (change.on s.tree) change.delta
  unlinked : env.Unlinked change.delta s.tree (change.on s.tree)
  harmless : env.Harmless maxVariables (change.on s.tree) change.delta s.graph

section Runs

variable {env : ParserEnv} {maxVariables : Nat} {change : Change} {s s' : Repository}

theorem fits_turns (hfits : change.fits s.tree = true) :
    Turns change.delta s.tree (change.on s.tree) := by
  unfold Change.fits at hfits
  rw [Bool.and_eq_true, Bool.and_eq_true, Bool.and_eq_true, List.all_eq_true, List.all_eq_true,
    List.all_eq_true, List.all_eq_true] at hfits
  obtain ⟨⟨⟨hadd, hremove⟩, hprocess⟩, hgone⟩ := hfits
  refine ⟨fun path hpath => Option.isNone_iff_eq_none.1 (hadd path hpath), fun path hpath => ?_,
    hremove, fun path hpath => ?_, fun path hnot hnot' => ?_⟩
  · unfold Change.on
    rw [if_pos hpath]
    exact hprocess path hpath
  · unfold Change.on
    rw [if_neg (of_decide_eq_true (hgone path hpath)), if_pos hpath]
  · unfold Change.on
    rw [if_neg hnot, if_neg hnot']

theorem step_cases (hstep : env.step maxVariables change s = some s') :
    Turns change.delta s.tree (change.on s.tree) ∧ s'.tree = change.on s.tree
      ∧ s'.graph = (after (env.patch maxVariables (change.on s.tree) change.delta s.graph)).getD
        s.graph := by
  unfold ParserEnv.step at hstep
  split at hstep
  · rename_i hfits
    cases hstep
    exact ⟨fits_turns hfits, rfl, rfl⟩
  · cases hstep

theorem change_lists {files : List PyStr} (hturns : Turns change.delta s.tree (change.on s.tree))
    (hlists : Lists files s.tree) :
    Lists (change.delta.toProcess ++ files.filter fun path => path ∉ change.delta.toRemove)
      (change.on s.tree) := by
  intro path
  rw [List.mem_append, List.mem_filter, decide_eq_true_iff]
  by_cases hprocess : path ∈ change.delta.toProcess
  · exact iff_of_true (Or.inl hprocess) (hturns.there path hprocess)
  · by_cases hremove : path ∈ change.delta.toRemove
    · refine iff_of_false (fun h => ?_) fun h => ?_
      · rcases h with h | h
        · exact hprocess h
        · exact h.2 hremove
      · rw [hturns.gone path hremove] at h
        cases h
    · rw [hturns.same path hprocess hremove, ← hlists path]
      exact ⟨fun h => (h.resolve_left hprocess).1, fun h => Or.inr ⟨h, hremove⟩⟩

theorem rebuilt_iff (hfiles : ∃ files, Lists files s.tree) (hclash : env.NoClash s.tree) :
    env.Rebuilt s ↔ env.IsGraphOf s.tree s.graph := by
  refine ⟨fun h => ?_, fun h files maxVariables hlists hfew => ?_⟩
  · obtain ⟨files, hlists⟩ := hfiles
    have hbuilt := h files _ hlists (le_refl _)
    rw [build_graph (le_refl _)] at hbuilt
    rw [← Option.some.inj hbuilt]
    exact built_isGraphOf hlists hclash
  · rw [build_graph hfew]
    exact congrArg some (isGraphOf_unique (built_isGraphOf hlists hclash) h)

theorem step_rebuilt (hfollowed : env.Followed maxVariables change s)
    (h : (∃ files, Lists files s.tree) ∧ env.Rebuilt s)
    (hstep : env.step maxVariables change s = some s') :
    (∃ files, Lists files s'.tree) ∧ env.Rebuilt s' := by
  obtain ⟨hturns, htree, hgraph⟩ := step_cases hstep
  obtain ⟨hfiles, hrebuilt⟩ := h
  have hfiles' : ∃ files, Lists files s'.tree := by
    obtain ⟨files, hlists⟩ := hfiles
    rw [htree]
    exact ⟨_, change_lists hturns hlists⟩
  rw [rebuilt_iff hfiles hfollowed.clash] at hrebuilt
  refine ⟨hfiles', (rebuilt_iff hfiles' (by rw [htree]; exact hfollowed.clash')).2 ?_⟩
  rw [patch_graph, if_pos hfollowed.harmless] at hgraph
  rw [htree, hgraph]
  exact patched_isGraphOf hrebuilt hturns hfollowed.untraced hfollowed.clash hfollowed.clash'
    hfollowed.unlinked hfollowed.harmless

end Runs

-- ===== claim

/-- After any changes that the patches follow, the graph is the one a
rebuild gives. -/
theorem patches_rebuild (env : ParserEnv) (maxVariables : Nat) {changes : List Change}
    {s t : Repository} (hfiles : ∃ files, Lists files s.tree) (hstart : env.Rebuilt s)
    (hrun : run (env.step maxVariables) changes s = some t)
    (hmeets : Meets (env.step maxVariables) (env.Followed maxVariables) changes s) :
    env.Rebuilt t := by
  refine (run_preserves_of (P := fun s => (∃ files, Lists files s.tree) ∧ env.Rebuilt s)
    (fun _ _ _ hfollowed h hstep => step_rebuilt hfollowed h hstep) hmeets ⟨hfiles, hstart⟩ hrun).2

-- ===== examples

def ParserEnv.ids (env : ParserEnv) (tree : Tree) (path : PyStr) : List PyStr :=
  fileNid path :: (env.fileNodes tree path).map KnowledgeNode.id

theorem noClash_of_lists {env : ParserEnv} {tree : Tree} {files : List PyStr}
    (hlists : Lists files tree) (h : ∀ path ∈ files, ∀ other ∈ files, path ≠ other →
      ∀ id ∈ env.ids tree path, id ∉ env.ids tree other) : env.NoClash tree := by
  intro path other id hpath hother hown hown'
  by_contra hne
  refine h path ((hlists path).2 hpath) other ((hlists other).2 hother) hne id ?_ ?_
  · exact List.mem_cons.2 hown
  · exact List.mem_cons.2 hown'

def noFiles : Repository := ⟨fun _ => none, Tables.empty⟩

theorem noFiles_rebuilt : includes.Rebuilt noFiles :=
  (rebuilt_iff ⟨[], fun _ => iff_of_false List.not_mem_nil fun h => by cases h⟩
    fun _ _ _ h => by cases h).2 empty_isGraphOf

def addition : Change := ⟨addBoth, bothFiles⟩

/-- `main.c` no longer includes the other. -/
def update : Change :=
  ⟨⟨[], ["main.c".toList], [], []⟩, fun _ => some (sourceFile "int c;")⟩

def headerUpdate : Change :=
  ⟨⟨[], ["b.h".toList], [], []⟩, fun _ => some (sourceFile "int d;")⟩

def added : Repository :=
  ⟨addition.on noFiles.tree, (after (includes.patch 32766 (addition.on noFiles.tree)
    addition.delta noFiles.graph)).getD noFiles.graph⟩

theorem noFiles_lists : Lists [] noFiles.tree :=
  fun _ => iff_of_false List.not_mem_nil fun h => by cases h

theorem addition_step : includes.step 32766 addition noFiles = some added := rfl

theorem added_lists : Lists ["main.c".toList, "b.h".toList] added.tree :=
  change_lists (step_cases addition_step).1 noFiles_lists

theorem added_clash : includes.NoClash added.tree := noClash_of_lists added_lists (by decide)

theorem addition_followed : includes.Followed 32766 addition noFiles where
  clash _ _ _ h := by cases h
  clash' := added_clash
  untraced _ _ := rfl
  unlinked _ h := by cases h
  harmless := by decide

/-- The repository once `main.c` is updated. -/
def updated : Repository :=
  ⟨update.on added.tree, (after (includes.patch 32766 (update.on added.tree) update.delta
    added.graph)).getD added.graph⟩

theorem update_step : includes.step 32766 update added = some updated := rfl

theorem update_followed : includes.Followed 32766 update added where
  clash := added_clash
  clash' := noClash_of_lists (change_lists (step_cases update_step).1 added_lists) (by decide)
  untraced _ _ := rfl
  unlinked path hthere hnot _ := by
    rw [← added_lists path, List.mem_cons, List.mem_singleton] at hthere
    rcases hthere with rfl | rfl
    · exact (hnot (by decide)).elim
    · decide
  harmless := by decide +kernel

theorem updated_rebuilt : includes.Rebuilt updated := by
  have hrun : run (includes.step 32766) [addition, update] noFiles = some updated := rfl
  refine patches_rebuild includes 32766 ⟨[], noFiles_lists⟩ noFiles_rebuilt hrun
    ⟨addition_followed, fun s hs => ?_⟩
  cases addition_step.symm.trans hs
  exact ⟨update_followed, fun _ _ => trivial⟩

def headerUpdated : Repository :=
  ⟨headerUpdate.on added.tree, (after (includes.patch 32766 (headerUpdate.on added.tree)
    headerUpdate.delta added.graph)).getD added.graph⟩

/-- The edge to an updated file is gone, and is not put again. -/
theorem edge_lost : includes.Rebuilt noFiles
    ∧ run (includes.step 32766) [addition, headerUpdate] noFiles = some headerUpdated
    ∧ ¬ includes.Rebuilt headerUpdated := by
  have hstep : includes.step 32766 headerUpdate added = some headerUpdated := rfl
  refine ⟨noFiles_rebuilt, rfl, fun h => ?_⟩
  have hbuilt := h _ 32766 (change_lists (step_cases hstep).1 added_lists) (by decide)
  have hinclude := congrArg (Option.map fun graph : KnowledgeGraph =>
    (graph.edges ("file:main.c".toList, "file:b.h".toList, .imports)).isSome) hbuilt
  revert hinclude
  decide +kernel

-- ===== every graph there is

def Repository.Current (s : Repository) : Prop :=
  ∀ id node path, s.graph.nodes id = some node → node.filePath = some path →
    (s.tree path).isSome = true

section Kept

variable {env : ParserEnv} {maxVariables : Nat} {change : Change} {s s' : Repository}

theorem patched_stored {tree : Tree} {delta : IndexDelta} {graph : KnowledgeGraph}
    (h : Stored graph) (hharmless : env.Harmless maxVariables tree delta graph) :
    Stored (env.patched tree delta graph) where
  keyed id n hn := by
    rw [patched_nodes] at hn
    rcases Option.or_eq_some_iff.1 hn with hnew | ⟨-, hold⟩
    · obtain ⟨new, -, hrow⟩ := List.mem_map.1 (latest_mem hnew)
      obtain ⟨hid, rfl⟩ := Prod.mk.inj hrow
      exact hid
    · split at hold
      · cases hold
      · exact h.keyed id n hold
  joined := patched_joined h.joined hharmless

theorem stored_step (h : Stored s.graph) (hstep : env.step maxVariables change s = some s') :
    Stored s'.graph := by
  obtain ⟨-, -, hgraph⟩ := step_cases hstep
  rw [hgraph, patch_graph]
  split_ifs with hharmless
  · exact patched_stored h hharmless
  · exact h

theorem current_step (h : s.Current)
    (hcommits : (after (env.patch maxVariables (change.on s.tree) change.delta s.graph)).isSome = true)
    (hstep : env.step maxVariables change s = some s') : s'.Current := by
  obtain ⟨hturns, htree, hgraph⟩ := step_cases hstep
  rw [patch_graph] at hgraph hcommits
  split_ifs at hgraph hcommits
  · intro id node path hnode hpath
    rw [hgraph] at hnode
    rw [htree]
    by_cases hprocess : path ∈ change.delta.toProcess
    · exact hturns.there path hprocess
    · have hkept : path ∉ change.delta.toRemove := fun hremove =>
        patched_removed hremove hprocess hnode hpath
      rw [hturns.same path hprocess hkept]
      rw [Option.getD_some, patched_nodes] at hnode
      rcases Option.or_eq_some_iff.1 hnode with hnew | ⟨-, hold⟩
      · obtain ⟨new, hmem, hrow⟩ := List.mem_map.1 (latest_mem hnew)
        cases hrow
        obtain ⟨other, hother, hown⟩ := nodesOf_paths hmem
        cases hpath.symm.trans hown
        exact (hprocess hother).elim
      · split_ifs at hold
        exact h id node path hold hpath
  · cases hcommits

end Kept

/-- Whatever deltas are patched in, and whether the patches commit or not,
nodes stand under their ids and edges join nodes; and as long as they
commit, no node is left of a file that is gone. -/
theorem graph_kept {env : ParserEnv} {maxVariables : Nat} {changes : List Change}
    {s t : Repository} (hstored : Stored s.graph)
    (hrun : run (env.step maxVariables) changes s = some t) :
    Stored t.graph ∧ (s.Current → Meets (env.step maxVariables) (fun change s =>
      (after (env.patch maxVariables (change.on s.tree) change.delta s.graph)).isSome = true)
        changes s → t.Current) :=
  ⟨run_preserves (P := fun s => Stored s.graph) (fun _ _ _ h hstep => stored_step h hstep) hstored hrun,
    fun hcurrent hcommits => run_preserves_of (P := Repository.Current)
      (fun _ _ _ hcommit h hstep => current_step h hcommit hstep) hcommits hcurrent hrun⟩

/-- The header is updated, and its edge is lost; the graph is well formed. -/
theorem graph_kept_header : Stored headerUpdated.graph ∧ headerUpdated.Current := by
  have hrun : run (includes.step 32766) [addition, headerUpdate] noFiles = some headerUpdated := rfl
  have hkept := graph_kept ⟨fun _ _ h => (by cases h), Tables.joined_empty⟩ hrun
  refine ⟨hkept.1, hkept.2 (fun _ _ _ h => by cases h) ⟨by decide, fun s hs => ?_⟩⟩
  cases addition_step.symm.trans hs
  exact ⟨by decide +kernel, fun _ _ => trivial⟩

end Velune.Intelligence
