/-
The graph around a node (`KnowledgeGraph.neighbors` and `subgraph`): a
search outward by undirected hops, along edges of some types.

What the queries return, and in which order, is the store's (`Rows`); its
foreign keys hold. Metadata is read along with the rows.
-/
import Velune.Knowledge.Graph
import Velune.Lib.Search

namespace Velune.Knowledge

open Lib

-- ===== queries

def IsNode (graph : KnowledgeGraph) (n : KnowledgeNode) : Prop := graph.nodes n.id = some n

def IsEdge (graph : KnowledgeGraph) (e : KnowledgeEdge) : Prop :=
  graph.edges (e.source, e.target, e.edgeType) = some e

/-- The rows of the tables: the ids there are, the edges from a node with
the node they lead to, and those to a node with the node they come from. -/
structure Rows (graph : KnowledgeGraph) where
  ids : List PyStr
  outgoing : PyStr → List (KnowledgeNode × KnowledgeEdge)
  incoming : PyStr → List (KnowledgeNode × KnowledgeEdge)
  mem_ids : ∀ n, IsNode graph n → n.id ∈ ids
  mem_outgoing : ∀ id n e, (n, e) ∈ outgoing id ↔
    IsEdge graph e ∧ e.source = id ∧ IsNode graph n ∧ n.id = e.target
  mem_incoming : ∀ id n e, (n, e) ∈ incoming id ↔
    IsEdge graph e ∧ e.target = id ∧ IsNode graph n ∧ n.id = e.source

inductive Direction
  | out | into | both
  deriving DecidableEq

variable {graph : KnowledgeGraph}

def neighbors (rows : Rows graph) (nodeId : PyStr) (edgeType : Option EdgeType)
    (direction : Direction) : List (KnowledgeNode × KnowledgeEdge) :=
  let fetch (found : List (KnowledgeNode × KnowledgeEdge)) :=
    found.filter fun row => edgeType.all (row.2.edgeType = ·)
  (if direction = .out ∨ direction = .both then fetch (rows.outgoing nodeId) else []) ++
    (if direction = .into ∨ direction = .both then fetch (rows.incoming nodeId) else [])

-- ===== subgraph

def allows (edgeTypes : Option (List EdgeType)) (e : KnowledgeEdge) : Bool :=
  match edgeTypes with
  | none => true
  | some [] => true
  | some types => types.contains e.edgeType

def links (rows : Rows graph) (edgeTypes : Option (List EdgeType)) :
    Search.Links PyStr KnowledgeNode KnowledgeEdge (PyStr × PyStr × EdgeType) where
  next id := neighbors rows id none .both
  id := KnowledgeNode.id
  key e := (e.source, e.target, e.edgeType)
  ends e := (e.source, e.target)
  allowed := allows edgeTypes

/-- `subgraph`; `none` when `turns` rounds of its loop are not enough. -/
def subgraph (rows : Rows graph) (turns : Nat) (rootId : PyStr) (depth : Nat)
    (edgeTypes : Option (List EdgeType)) : Option (List KnowledgeNode × List KnowledgeEdge) :=
  (Search.search (links rows edgeTypes) depth turns ⟨[(rootId, 0)], [], []⟩).map fun s =>
    (if rootId ∈ s.nodes.map KnowledgeNode.id then s.nodes
      else s.nodes ++ (graph.nodes rootId).toList, s.edges)

-- ===== exactness

def Adjacent (graph : KnowledgeGraph) (edgeTypes : Option (List EdgeType)) (v w : PyStr) : Prop :=
  ∃ e, IsEdge graph e ∧ allows edgeTypes e = true ∧
    ((e.source, e.target) = (v, w) ∨ (e.source, e.target) = (w, v))

/-- The nodes within the depth and the allowed edges at a nearer one. -/
structure Exact (graph : KnowledgeGraph) (rootId : PyStr) (depth : Nat)
    (edgeTypes : Option (List EdgeType)) (nodes : List KnowledgeNode)
    (edges : List KnowledgeEdge) : Prop where
  nodes_nodup : (nodes.map KnowledgeNode.id).Nodup
  edges_nodup : (edges.map fun e => (e.source, e.target, e.edgeType)).Nodup
  mem_nodes : ∀ n, n ∈ nodes ↔
    IsNode graph n ∧ Search.Within (Adjacent graph edgeTypes) rootId depth n.id
  mem_edges : ∀ e, e ∈ edges ↔ IsEdge graph e ∧ allows edgeTypes e = true ∧
    ∃ v k, (e.source = v ∨ e.target = v) ∧ k < depth ∧
      Search.Within (Adjacent graph edgeTypes) rootId k v

theorem mem_neighbors_both {rows : Rows graph} {id : PyStr} {n : KnowledgeNode}
    {e : KnowledgeEdge} : (n, e) ∈ neighbors rows id none .both ↔
      IsEdge graph e ∧ IsNode graph n ∧
        ((e.source = id ∧ n.id = e.target) ∨ (e.target = id ∧ n.id = e.source)) := by
  simp only [neighbors, reduceCtorEq, or_true, if_true, Option.all_none, List.filter_true,
    List.mem_append, rows.mem_outgoing, rows.mem_incoming]
  tauto

/-- What the schema keeps: a row stands under its id, and the ends of an
edge are rows. -/
structure Stored (graph : KnowledgeGraph) : Prop where
  keyed : ∀ id n, graph.nodes id = some n → n.id = id
  joined : graph.Joined

theorem Stored.exists_node (h : Stored graph) {id : PyStr} (hid : (graph.nodes id).isSome = true) :
    ∃ n, IsNode graph n ∧ n.id = id := by
  obtain ⟨n, hn⟩ := Option.isSome_iff_exists.1 hid
  have hkey := h.keyed id n hn
  exact ⟨n, by rw [IsNode, hkey, hn], hkey⟩

theorem IsNode.eq {n m : KnowledgeNode} (hn : IsNode graph n) (hm : IsNode graph m)
    (h : n.id = m.id) : n = m := by
  rw [IsNode, h, show graph.nodes m.id = some m from hm] at hn
  exact (Option.some.inj hn).symm

theorem reads_links (h : Stored graph) (rows : Rows graph) (edgeTypes : Option (List EdgeType)) :
    (links rows edgeTypes).Reads (IsNode graph) (IsEdge graph) where
  row hrow := by
    obtain ⟨he, hn, hends⟩ := mem_neighbors_both.1 hrow
    refine ⟨hn, he, ?_⟩
    rcases hends with ⟨rfl, hid⟩ | ⟨rfl, hid⟩
    · exact .inl (Prod.ext rfl hid.symm)
    · exact .inr (Prod.ext hid.symm rfl)
  all {v w e} he hjoins := by
    have hrows := h.joined e.source e.target e.edgeType (by rw [he]; exact Option.some_ne_none e)
    rcases hjoins with hends | hends
    · obtain ⟨rfl, rfl⟩ := Prod.mk.inj hends
      obtain ⟨n, hn, hid⟩ := h.exists_node hrows.2
      exact ⟨n, hid, mem_neighbors_both.2 ⟨he, hn, .inl ⟨rfl, hid⟩⟩⟩
    · obtain ⟨rfl, rfl⟩ := Prod.mk.inj hends
      obtain ⟨n, hn, hid⟩ := h.exists_node hrows.1
      exact ⟨n, hid, mem_neighbors_both.2 ⟨he, hn, .inr ⟨rfl, hid⟩⟩⟩
  key_inj {e e'} he he' hkey := by
    have heq : graph.edges (e.source, e.target, e.edgeType) = some e' := by
      rw [show (e.source, e.target, e.edgeType) = (e'.source, e'.target, e'.edgeType) from hkey]
      exact he'
    rw [show graph.edges (e.source, e.target, e.edgeType) = some e from he] at heq
    exact Option.some.inj heq
  id_inj hn hm hid := hn.eq hm hid

/-- The search comes to an end, with the nodes within the depth and the
edges at nearer ones, each once. -/
theorem subgraph_exact (h : Stored graph) (rows : Rows graph) (rootId : PyStr) (depth : Nat)
    (edgeTypes : Option (List EdgeType)) {turns : Nat} (hturns : rows.ids.length < turns) :
    ∃ nodes edges, subgraph rows turns rootId depth edgeTypes = some (nodes, edges) ∧
      Exact graph rootId depth edgeTypes nodes edges := by
  have hreads := reads_links h rows edgeTypes
  obtain ⟨s, hs⟩ := Option.isSome_iff_exists.1
    ((Search.inv_start rootId depth).search_isSome hreads rows.mem_ids (show _ ≤ turns + 0 from hturns))
  have hfound := Search.found_of_search hreads hs
  refine ⟨_, _, by rw [subgraph, hs]; rfl, ?_⟩
  have hmem : ∀ n, IsNode graph n → n.id ∈ s.nodes.map KnowledgeNode.id → n ∈ s.nodes := by
    intro n hn hid
    obtain ⟨m, hm, hmn⟩ := List.mem_map.1 hid
    rwa [← (hfound.rows m hm).eq hn hmn]
  have hroot : ∀ n, n ∈ (graph.nodes rootId).toList ↔ IsNode graph n ∧ n.id = rootId := by
    intro n
    rw [Option.mem_toList]
    constructor
    · intro hn
      have hkey := h.keyed rootId n hn
      exact ⟨by rw [IsNode, hkey, hn], hkey⟩
    · rintro ⟨hn, rfl⟩
      exact hn
  refine ⟨?_, hfound.keys, fun n => ?_, fun e => ?_⟩
  · split
    next => exact hfound.ids
    next hnot =>
      rw [List.map_append]
      refine List.nodup_append.2 ⟨hfound.ids, ?_, fun id hid id' hid' heq => hnot ?_⟩
      · cases graph.nodes rootId with
        | none => exact List.nodup_nil
        | some n => exact List.nodup_singleton _
      · obtain ⟨n, hn, rfl⟩ := List.mem_map.1 hid'
        rwa [← ((hroot n).1 hn).2, ← heq]
  · have hwithin := hfound.nodes n.id
    split
    next hin =>
      constructor
      · intro hn
        exact ⟨hfound.rows n hn, hwithin.1 (.inr (List.mem_map_of_mem hn))⟩
      · rintro ⟨hn, hwalk⟩
        refine hmem n hn ((hwithin.2 hwalk).elim (fun hid => ?_) id)
        rwa [hid]
    next hnot =>
      rw [List.mem_append, hroot]
      constructor
      · rintro (hn | ⟨hn, hid⟩)
        · exact ⟨hfound.rows n hn, hwithin.1 (.inr (List.mem_map_of_mem hn))⟩
        · exact ⟨hn, hwithin.1 (.inl hid)⟩
      · rintro ⟨hn, hwalk⟩
        exact (hwithin.2 hwalk).symm.imp (hmem n hn) fun hid => ⟨hn, hid⟩
  · rw [hfound.edges e]
    refine and_congr_right fun _ => and_congr_right fun _ => ⟨?_, ?_⟩
    · rintro ⟨v, w, k, hjoins, hk, hwalk⟩
      refine ⟨v, k, ?_, hk, hwalk⟩
      exact hjoins.imp (fun hends => (Prod.mk.inj hends).1) fun hends => (Prod.mk.inj hends).2
    · rintro ⟨v, k, hend, hk, hwalk⟩
      rcases hend with rfl | rfl
      · exact ⟨_, e.target, k, .inl rfl, hk, hwalk⟩
      · exact ⟨_, e.source, k, .inr rfl, hk, hwalk⟩

def recursive : KnowledgeNode := ⟨['f'], .function, ['f'], none, none, none, [], 1, []⟩

def selfCall : KnowledgeEdge := ⟨['f'], ['f'], .calls, 1, 1, []⟩

def selfGraph : KnowledgeGraph where
  nodes id := if id = ['f'] then some recursive else none
  edges key := if key = (['f'], ['f'], .calls) then some selfCall else none

theorem isNode_self {n : KnowledgeNode} : IsNode selfGraph n ↔ n = recursive := by
  refine ⟨fun h => ?_, fun h => by rw [h]; rfl⟩
  by_cases hid : n.id = ['f']
  · rw [IsNode, show selfGraph.nodes n.id = some recursive from if_pos hid] at h
    exact (Option.some.inj h).symm
  · rw [IsNode, show selfGraph.nodes n.id = none from if_neg hid] at h
    cases h

theorem isEdge_self {e : KnowledgeEdge} : IsEdge selfGraph e ↔ e = selfCall := by
  refine ⟨fun h => ?_, fun h => by rw [h]; rfl⟩
  by_cases hkey : (e.source, e.target, e.edgeType) = (['f'], ['f'], EdgeType.calls)
  · rw [IsEdge, show selfGraph.edges _ = some selfCall from if_pos hkey] at h
    exact (Option.some.inj h).symm
  · rw [IsEdge, show selfGraph.edges _ = none from if_neg hkey] at h
    cases h

theorem selfGraph_stored : Stored selfGraph where
  keyed id n h := by
    by_cases hid : id = ['f']
    · rw [show selfGraph.nodes id = some recursive from if_pos hid] at h
      rw [← Option.some.inj h, hid]
      rfl
    · rw [show selfGraph.nodes id = none from if_neg hid] at h
      cases h
  joined s d k h := by
    by_cases hkey : (s, d, k) = (['f'], ['f'], EdgeType.calls)
    · cases hkey
      exact ⟨rfl, rfl⟩
    · exact absurd (if_neg hkey) h

def selfRows (id : PyStr) : List (KnowledgeNode × KnowledgeEdge) :=
  if id = ['f'] then [(recursive, selfCall)] else []

theorem mem_selfRows {id : PyStr} {n : KnowledgeNode} {e : KnowledgeEdge} :
    (n, e) ∈ selfRows id ↔ id = ['f'] ∧ n = recursive ∧ e = selfCall := by
  unfold selfRows
  split
  next h => simp [h]
  next h => simp [h]

def selfTables : Rows selfGraph where
  ids := [['f']]
  outgoing := selfRows
  incoming := selfRows
  mem_ids n h := by
    rw [isNode_self.1 h]
    exact List.mem_singleton.2 rfl
  mem_outgoing id n e := by
    rw [mem_selfRows, isNode_self, isEdge_self]
    constructor
    · rintro ⟨rfl, rfl, rfl⟩
      exact ⟨rfl, rfl, rfl, rfl⟩
    · rintro ⟨rfl, rfl, rfl, -⟩
      exact ⟨rfl, rfl, rfl⟩
  mem_incoming id n e := by
    rw [mem_selfRows, isNode_self, isEdge_self]
    constructor
    · rintro ⟨rfl, rfl, rfl⟩
      exact ⟨rfl, rfl, rfl, rfl⟩
    · rintro ⟨rfl, rfl, rfl, -⟩
      exact ⟨rfl, rfl, rfl⟩

theorem subgraph_exact_self : ∃ nodes edges,
    subgraph selfTables 2 ['f'] 1 none = some (nodes, edges) ∧
      Exact selfGraph ['f'] 1 none nodes edges :=
  subgraph_exact selfGraph_stored selfTables ['f'] 1 none (show 1 < 2 by decide)

example : (subgraph selfTables 2 ['f'] 1 none).map (fun found => (found.1.length, found.2.length))
    = some (1, 1) := by decide

end Velune.Knowledge
