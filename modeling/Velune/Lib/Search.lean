/-
Breadth-first search that marks edges: every edge is taken once, from the
end that is expanded first, and the node at its other end joins the queue
unless it was found before.

The root is not marked as found, so a loop at it puts it in the queue again,
where it has no edge left. What was put in the queue carries its least
distance all the same, because labels never fall along the queue (`Inv`).
When the queue is empty the nodes found are those within the depth
(`mem_found_iff`), and the edges those at a node nearer than it
(`mem_edges_iff`). The search ends, for a node is found once
(`search_isSome`).
-/
import Mathlib.Data.List.Nodup
import Mathlib.Data.List.Perm.Subperm

namespace Lib.Search

variable {ι α ε κ : Type}

-- ===== distance

/-- A walk of at most `n` steps leads to a node. -/
inductive Within (near : ι → ι → Prop) (root : ι) : Nat → ι → Prop
  | start {n : Nat} : Within near root n root
  | step {n : Nat} {v w : ι} : Within near root n v → near v w → Within near root (n + 1) w

theorem Within.mono {near : ι → ι → Prop} {root v : ι} {n : Nat} (h : Within near root n v) :
    ∀ {m : Nat}, n ≤ m → Within near root m v := by
  induction h with
  | start => exact fun _ => .start
  | step _ hnear ih =>
      intro m hm
      obtain ⟨k, rfl⟩ := Nat.exists_eq_add_of_le hm
      rw [Nat.add_right_comm]
      exact .step (ih (Nat.le_add_right _ k)) hnear

-- ===== search

/-- What a search reads: the rows at a node, each an edge with the node at
its other end. -/
structure Links (ι α ε κ : Type) where
  next : ι → List (α × ε)
  id : α → ι
  key : ε → κ
  ends : ε → ι × ι
  allowed : ε → Bool

structure State (ι α ε : Type) where
  queue : List (ι × Nat)
  nodes : List α
  edges : List ε

variable [DecidableEq ι] [DecidableEq κ] (L : Links ι α ε κ)

/-- A row of a node at distance `d`. -/
def visit (d : Nat) (s : State ι α ε) (row : α × ε) : State ι α ε :=
  if L.key row.2 ∈ s.edges.map L.key then s
  else if L.allowed row.2 then
    if L.id row.1 ∈ s.nodes.map L.id then { s with edges := s.edges ++ [row.2] }
    else ⟨s.queue ++ [(L.id row.1, d + 1)], s.nodes ++ [row.1], s.edges ++ [row.2]⟩
  else s

/-- The head of the queue is expanded, unless it is as far as the depth. -/
def turn (depth : Nat) (s : State ι α ε) : State ι α ε :=
  match s.queue with
  | [] => s
  | (v, d) :: rest =>
      if depth ≤ d then { s with queue := rest }
      else (L.next v).foldl (visit L d) { s with queue := rest }

/-- Turns until the queue is empty, with a bound on their number. -/
def search (depth : Nat) : Nat → State ι α ε → Option (State ι α ε)
  | n, s =>
      if s.queue.isEmpty then some s
      else
        match n with
        | 0 => none
        | n + 1 => search depth n (turn L depth s)

-- ===== contract

variable {L}

def Links.Joins (L : Links ι α ε κ) (e : ε) (v w : ι) : Prop :=
  L.ends e = (v, w) ∨ L.ends e = (w, v)

/-- The rows of a node are the edges at it, each with the row of its other
end. -/
structure Links.Reads (L : Links ι α ε κ) (nodes : α → Prop) (edges : ε → Prop) : Prop where
  row : ∀ {v a e}, (a, e) ∈ L.next v → nodes a ∧ edges e ∧ L.Joins e v (L.id a)
  all : ∀ {v w e}, edges e → L.Joins e v w → ∃ a, L.id a = w ∧ (a, e) ∈ L.next v
  key_inj : ∀ {e e'}, edges e → edges e' → L.key e = L.key e' → e = e'
  id_inj : ∀ {a a'}, nodes a → nodes a' → L.id a = L.id a' → a = a'

def Links.Near (L : Links ι α ε κ) (edges : ε → Prop) (v w : ι) : Prop :=
  ∃ e, edges e ∧ L.allowed e = true ∧ L.Joins e v w

-- ===== invariant

variable {N : α → Prop} {E : ε → Prop} {root : ι} {depth : Nat}

/-- What holds between rows: `past` has left the queue, the last of it with
the label `m`, and `expanded` are the nodes whose rows were all read. -/
structure Inv (L : Links ι α ε κ) (N : α → Prop) (E : ε → Prop) (root : ι) (depth : Nat)
    (past expanded : List (ι × Nat)) (m : Nat) (s : State ι α ε) : Prop where
  below : ∀ x ∈ past, x.2 ≤ m
  level : ∀ x ∈ s.queue, m ≤ x.2 ∧ x.2 ≤ m + 1
  sorted : s.queue.Pairwise fun x y => x.2 ≤ y.2
  begun : (root, 0) ∈ past ++ s.queue
  found : ∀ x ∈ past ++ s.queue, x.1 = root ∨ x.1 ∈ s.nodes.map L.id
  labelled : ∀ a ∈ s.nodes, N a ∧ ∃ k, (L.id a, k) ∈ past ++ s.queue
  walked : ∀ x ∈ past ++ s.queue, x.2 ≤ depth ∧ Within (L.Near E) root x.2 x.1
  sound : ∀ e ∈ s.edges, E e ∧ L.allowed e = true ∧
    ∃ x ∈ past, x.2 < depth ∧ ∃ w, L.Joins e x.1 w
  ended : ∀ e ∈ s.edges, ∀ v w, L.Joins e v w → ∃ k, (w, k) ∈ past ++ s.queue
  complete : ∀ x ∈ expanded, x.2 < depth → ∀ e w, E e → L.allowed e = true → L.Joins e x.1 w →
    e ∈ s.edges ∧ ∃ k, k ≤ x.2 + 1 ∧ (w, k) ∈ past ++ s.queue
  ids : (s.nodes.map L.id).Nodup
  keys : (s.edges.map L.key).Nodup
  count : past.length + s.queue.length = s.nodes.length + 1

omit [DecidableEq ι] [DecidableEq κ] in
theorem inv_start (root : ι) (depth : Nat) :
    Inv L N E root depth [] [] 0 ⟨[(root, 0)], [], []⟩ where
  below x hx := by cases hx
  level x hx := by
    rw [List.mem_singleton.1 hx]
    exact ⟨Nat.le_refl 0, Nat.zero_le _⟩
  sorted := List.pairwise_singleton _ _
  begun := List.mem_singleton.2 rfl
  found x hx := by
    rw [List.mem_singleton.1 hx]
    exact .inl rfl
  labelled a ha := by cases ha
  walked x hx := by
    rw [List.mem_singleton.1 hx]
    exact ⟨Nat.zero_le _, .start⟩
  sound e he := by cases he
  ended e he := by cases he
  complete x hx := by cases hx
  ids := List.nodup_nil
  keys := List.nodup_nil
  count := rfl

-- ===== one row

variable {past expanded : List (ι × Nat)} {m : Nat} {s : State ι α ε}

omit [DecidableEq ι] [DecidableEq κ] in
theorem Links.Joins.end_eq {e : ε} {v u v' w : ι} (h : L.Joins e v u) (h' : L.Joins e v' w) :
    w = v ∨ w = u := by
  rcases h with h | h <;> rcases h' with h' | h' <;> rw [h, Prod.mk.injEq] at h'
  · exact .inr h'.2.symm
  · exact .inl h'.1.symm
  · exact .inl h'.2.symm
  · exact .inr h'.1.symm

omit [DecidableEq ι] [DecidableEq κ] in
theorem Inv.addNode (hi : Inv L N E root depth past expanded m s) {x : ι × Nat} (hx : x ∈ past)
    (hm : x.2 = m) (hdepth : m < depth) {a : α} (ha : N a) (hnear : L.Near E x.1 (L.id a))
    (hnew : L.id a ∉ s.nodes.map L.id) :
    Inv L N E root depth past expanded m
      ⟨s.queue ++ [(L.id a, m + 1)], s.nodes ++ [a], s.edges⟩ := by
  have hgrows : ∀ {y : ι × Nat}, y ∈ past ++ s.queue →
      y ∈ past ++ (s.queue ++ [(L.id a, m + 1)]) := by
    intro y hy
    rw [← List.append_assoc]
    exact List.mem_append_left _ hy
  have hlast : (L.id a, m + 1) ∈ past ++ (s.queue ++ [(L.id a, m + 1)]) :=
    List.mem_append_right _ (List.mem_append_right _ (List.mem_singleton.2 rfl))
  have hcases : ∀ {y : ι × Nat}, y ∈ past ++ (s.queue ++ [(L.id a, m + 1)]) →
      y ∈ past ++ s.queue ∨ y = (L.id a, m + 1) := by
    intro y hy
    rw [← List.append_assoc] at hy
    exact (List.mem_append.1 hy).imp_right List.mem_singleton.1
  refine
    { below := hi.below
      level := fun y hy => ?_
      sorted := ?_
      begun := hgrows hi.begun
      found := fun y hy => ?_
      labelled := fun b hb => ?_
      walked := fun y hy => ?_
      sound := hi.sound
      ended := fun e he v w hjoins => (hi.ended e he v w hjoins).imp fun _ h => hgrows h
      complete := fun y hy hlt e w he hallowed hjoins => ?_
      ids := ?_
      keys := hi.keys
      count := ?_ }
  · rcases List.mem_append.1 hy with hy | hy
    · exact hi.level y hy
    · rw [List.mem_singleton.1 hy]
      exact ⟨Nat.le_succ m, Nat.le_refl _⟩
  · refine List.pairwise_append.2 ⟨hi.sorted, List.pairwise_singleton _ _, fun y hy z hz => ?_⟩
    rw [List.mem_singleton.1 hz]
    exact (hi.level y hy).2
  · rw [List.map_append]
    rcases hcases hy with hy | rfl
    · exact (hi.found y hy).imp_right fun h => List.mem_append_left _ h
    · exact .inr (List.mem_append_right _ (List.mem_singleton.2 rfl))
  · rcases List.mem_append.1 hb with hb | hb
    · obtain ⟨hN, k, hk⟩ := hi.labelled b hb
      exact ⟨hN, k, hgrows hk⟩
    · rw [List.mem_singleton.1 hb]
      exact ⟨ha, m + 1, hlast⟩
  · rcases hcases hy with hy | rfl
    · exact hi.walked y hy
    · have hwalk := (hi.walked x (List.mem_append_left _ hx)).2
      rw [hm] at hwalk
      exact ⟨hdepth, .step hwalk hnear⟩
  · obtain ⟨hmem, k, hk, hlabel⟩ := hi.complete y hy hlt e w he hallowed hjoins
    exact ⟨hmem, k, hk, hgrows hlabel⟩
  · rw [List.map_append]
    refine List.nodup_append.2 ⟨hi.ids, List.nodup_singleton _, fun b hb c hc heq => hnew ?_⟩
    rw [List.map_singleton, List.mem_singleton] at hc
    rwa [← hc, ← heq]
  · have hcount := hi.count
    simp only [List.length_append, List.length_singleton]
    omega

omit [DecidableEq ι] [DecidableEq κ] in
theorem Inv.addEdge (hi : Inv L N E root depth past expanded m s) {x : ι × Nat} (hx : x ∈ past)
    (hdepth : x.2 < depth) {e : ε} {w : ι} (he : E e) (hallowed : L.allowed e = true)
    (hjoins : L.Joins e x.1 w) (hw : ∃ k, (w, k) ∈ past ++ s.queue)
    (hnew : L.key e ∉ s.edges.map L.key) :
    Inv L N E root depth past expanded m { s with edges := s.edges ++ [e] } := by
  refine
    { hi with
      sound := fun f hf => ?_
      ended := fun f hf v u hf' => ?_
      complete := fun y hy hlt f u hf hok hf' => ?_
      keys := ?_ }
  · rcases List.mem_append.1 hf with hf | hf
    · exact hi.sound f hf
    · rw [List.mem_singleton.1 hf]
      exact ⟨he, hallowed, x, hx, hdepth, w, hjoins⟩
  · rcases List.mem_append.1 hf with hf | hf
    · exact hi.ended f hf v u hf'
    · rw [List.mem_singleton.1 hf] at hf'
      rcases hjoins.end_eq hf' with rfl | rfl
      · exact ⟨x.2, List.mem_append_left _ hx⟩
      · exact hw
  · exact (hi.complete y hy hlt f u hf hok hf').imp_left fun h => List.mem_append_left _ h
  · rw [List.map_append]
    refine List.nodup_append.2 ⟨hi.keys, List.nodup_singleton _, fun b hb c hc heq => hnew ?_⟩
    rw [List.map_singleton, List.mem_singleton] at hc
    rwa [← hc, ← heq]

theorem Inv.visit (hL : L.Reads N E) (hi : Inv L N E root depth past expanded m s) {v : ι}
    (hv : (v, m) ∈ past) (hdepth : m < depth) {row : α × ε} (hrow : row ∈ L.next v) :
    Inv L N E root depth past expanded m (visit L m s row) ∧
      (L.allowed row.2 = true → row.2 ∈ (visit L m s row).edges) ∧
      ∀ e ∈ s.edges, e ∈ (visit L m s row).edges := by
  obtain ⟨hN, hE, hjoins⟩ := hL.row hrow
  unfold Search.visit
  split
  next hseen =>
    refine ⟨hi, fun _ => ?_, fun _ h => h⟩
    obtain ⟨e, he, hkey⟩ := List.mem_map.1 hseen
    rwa [← hL.key_inj (hi.sound e he).1 hE hkey]
  next hseen =>
    split
    next hallowed =>
      have hgrown : ∀ f ∈ s.edges, f ∈ s.edges ++ [row.2] := fun f hf => List.mem_append_left _ hf
      have hlast : row.2 ∈ s.edges ++ [row.2] := List.mem_append_right _ (List.mem_singleton.2 rfl)
      split
      next hfound =>
        obtain ⟨b, hb, hid⟩ := List.mem_map.1 hfound
        obtain ⟨k, hk⟩ := (hi.labelled b hb).2
        exact ⟨hi.addEdge hv hdepth hE hallowed hjoins ⟨k, by rwa [← hid]⟩ hseen,
          fun _ => hlast, hgrown⟩
      next hfound =>
        have hnode := hi.addNode hv rfl hdepth hN ⟨row.2, hE, hallowed, hjoins⟩ hfound
        refine ⟨hnode.addEdge hv hdepth hE hallowed hjoins ⟨m + 1, ?_⟩ hseen, fun _ => hlast,
          hgrown⟩
        exact List.mem_append_right _ (List.mem_append_right _ (List.mem_singleton.2 rfl))
    next hallowed => exact ⟨hi, fun h => absurd h hallowed, fun _ h => h⟩

theorem Inv.rows (hL : L.Reads N E) {v : ι} (hv : (v, m) ∈ past) (hdepth : m < depth) :
    ∀ {rows : List (α × ε)} {s : State ι α ε}, (∀ row ∈ rows, row ∈ L.next v) →
      Inv L N E root depth past expanded m s →
      Inv L N E root depth past expanded m (rows.foldl (Search.visit L m) s) ∧
        (∀ row ∈ rows, L.allowed row.2 = true → row.2 ∈ (rows.foldl (Search.visit L m) s).edges) ∧
        ∀ e ∈ s.edges, e ∈ (rows.foldl (Search.visit L m) s).edges := by
  intro rows
  induction rows with
  | nil => exact fun _ hi => ⟨hi, fun _ h => absurd h List.not_mem_nil, fun _ h => h⟩
  | cons row rows ih =>
      intro s hrows hi
      obtain ⟨hfirst, hadded, hkept⟩ := hi.visit hL hv hdepth (hrows row List.mem_cons_self)
      obtain ⟨hrest, hall, hkept'⟩ := ih (fun r hr => hrows r (List.mem_cons_of_mem _ hr)) hfirst
      refine ⟨hrest, fun r hr hallowed => ?_, fun e he => hkept' e (hkept e he)⟩
      rcases List.mem_cons.1 hr with rfl | hr
      · exact hkept' _ (hadded hallowed)
      · exact hall r hr hallowed

-- ===== one turn

theorem Inv.turn (hL : L.Reads N E) (hi : Inv L N E root depth past past m s)
    (hqueue : s.queue ≠ []) :
    ∃ x, Inv L N E root depth (past ++ [x]) (past ++ [x]) x.2 (turn L depth s) := by
  unfold Search.turn
  cases heq : s.queue with
  | nil => exact absurd heq hqueue
  | cons x rest =>
      obtain ⟨v, k⟩ := x
      have hmove : ∀ {y : ι × Nat}, y ∈ past ++ s.queue ↔ y ∈ (past ++ [(v, k)]) ++ rest := by
        intro y
        rw [heq, List.append_assoc, List.singleton_append]
      have hlevel := hi.level
      have hsorted := hi.sorted
      have hcount := hi.count
      rw [heq] at hlevel hsorted hcount
      have hk := hlevel (v, k) List.mem_cons_self
      -- the head has left, and none of its rows is read
      have hpopped : Inv L N E root depth (past ++ [(v, k)]) past k { s with queue := rest } :=
        { below := fun y hy => by
            rcases List.mem_append.1 hy with hy | hy
            · exact Nat.le_trans (hi.below y hy) hk.1
            · exact Nat.le_of_eq (congrArg Prod.snd (List.mem_singleton.1 hy))
          level := fun y hy => ⟨List.rel_of_pairwise_cons hsorted hy,
            Nat.le_trans (hlevel y (List.mem_cons_of_mem _ hy)).2 (Nat.succ_le_succ hk.1)⟩
          sorted := hsorted.of_cons
          begun := hmove.1 hi.begun
          found := fun y hy => hi.found y (hmove.2 hy)
          labelled := fun a ha => ⟨(hi.labelled a ha).1, (hi.labelled a ha).2.imp fun _ h => hmove.1 h⟩
          walked := fun y hy => hi.walked y (hmove.2 hy)
          sound := fun e he => by
            obtain ⟨hE, hallowed, x, hx, hrest⟩ := hi.sound e he
            exact ⟨hE, hallowed, x, List.mem_append_left _ hx, hrest⟩
          ended := fun e he u w h => (hi.ended e he u w h).imp fun _ h => hmove.1 h
          complete := fun y hy hlt e w hE hallowed h => by
            obtain ⟨hmem, j, hj, hlabel⟩ := hi.complete y hy hlt e w hE hallowed h
            exact ⟨hmem, j, hj, hmove.1 hlabel⟩
          ids := hi.ids
          keys := hi.keys
          count := by
            simp only [List.length_append, List.length_cons, List.length_nil] at hcount ⊢
            omega }
      refine ⟨(v, k), ?_⟩
      by_cases hdepth : depth ≤ k
      · simp only [if_pos hdepth]
        refine { hpopped with complete := fun y hy hlt => ?_ }
        rcases List.mem_append.1 hy with hy | hy
        · exact hpopped.complete y hy hlt
        · rw [List.mem_singleton.1 hy] at hlt
          exact absurd hdepth (Nat.not_le.2 hlt)
      · simp only [if_neg hdepth]
        obtain ⟨hafter, hall, -⟩ := Inv.rows hL (List.mem_append_right past (List.mem_singleton.2 rfl))
          (Nat.not_le.1 hdepth) (fun _ h => h) hpopped
        refine { hafter with complete := fun y hy hlt e w hE hallowed h => ?_ }
        rcases List.mem_append.1 hy with hy | hy
        · exact hafter.complete y hy hlt e w hE hallowed h
        · rw [List.mem_singleton.1 hy] at h ⊢
          obtain ⟨a, -, hrow⟩ := hL.all hE h
          have hmem := hall _ hrow hallowed
          obtain ⟨j, hj⟩ := hafter.ended e hmem v w h
          refine ⟨hmem, j, ?_, hj⟩
          rcases List.mem_append.1 hj with hj | hj
          · exact Nat.le_succ_of_le (hafter.below _ hj)
          · exact (hafter.level _ hj).2

-- ===== whole runs

theorem search_nil {n : Nat} (h : s.queue = []) : search L depth n s = some s := by
  unfold search
  rw [h]
  rfl

theorem search_succ {n : Nat} (h : s.queue ≠ []) :
    search L depth (n + 1) s = search L depth n (turn L depth s) := by
  have hempty : s.queue.isEmpty = false := by simpa using h
  rw [search, hempty]
  rfl

theorem Inv.search (hL : L.Reads N E) {t : State ι α ε} : ∀ {n : Nat} {past : List (ι × Nat)}
    {m : Nat} {s : State ι α ε}, Inv L N E root depth past past m s →
      search L depth n s = some t → t.queue = [] ∧ ∃ past m, Inv L N E root depth past past m t := by
  intro n
  induction n with
  | zero =>
      intro past m s hi h
      unfold Search.search at h
      split at h
      next hempty =>
        cases h
        exact ⟨List.isEmpty_iff.1 hempty, past, m, hi⟩
      next => cases h
  | succ n ih =>
      intro past m s hi h
      by_cases hqueue : s.queue = []
      · rw [search_nil hqueue] at h
        cases h
        exact ⟨hqueue, past, m, hi⟩
      · rw [search_succ hqueue] at h
        obtain ⟨x, hnext⟩ := hi.turn hL hqueue
        exact ih hnext h

/-- As many turns as there are nodes, and one more, empty the queue. -/
theorem Inv.search_isSome (hL : L.Reads N E) {all : List ι} (hall : ∀ a, N a → L.id a ∈ all) :
    ∀ {n : Nat} {past : List (ι × Nat)} {m : Nat} {s : State ι α ε},
      Inv L N E root depth past past m s → all.length + 1 ≤ n + past.length →
        (Search.search L depth n s).isSome = true := by
  have hbound : ∀ {past : List (ι × Nat)} {m : Nat} {s : State ι α ε},
      Inv L N E root depth past past m s → past.length + s.queue.length ≤ all.length + 1 := by
    intro past m s hi
    have hsub : s.nodes.map L.id ⊆ all := by
      intro v hv
      obtain ⟨a, ha, rfl⟩ := List.mem_map.1 hv
      exact hall a (hi.labelled a ha).1
    have hle := (List.subperm_of_subset hi.ids hsub).length_le
    rw [List.length_map] at hle
    have hcount := hi.count
    omega
  intro n
  induction n with
  | zero =>
      intro past m s hi hn
      have hqueue : s.queue.length = 0 := by
        have hle := hbound hi
        omega
      rw [search_nil (List.length_eq_zero_iff.1 hqueue)]
      rfl
  | succ n ih =>
      intro past m s hi hn
      by_cases hqueue : s.queue = []
      · rw [search_nil hqueue]
        rfl
      · rw [search_succ hqueue]
        obtain ⟨x, hnext⟩ := hi.turn hL hqueue
        refine ih hnext ?_
        rw [List.length_append, List.length_singleton]
        omega

omit [DecidableEq ι] [DecidableEq κ] in
/-- With an empty queue every node within the depth has been expanded with a
label that is no more than its distance. -/
theorem Inv.reached (hi : Inv L N E root depth past past m s) (hqueue : s.queue = []) {n : Nat}
    {v : ι} (h : Within (L.Near E) root n v) : n ≤ depth → ∃ k, k ≤ n ∧ (v, k) ∈ past := by
  induction h with
  | start =>
      intro _
      have hbegun := hi.begun
      rw [hqueue, List.append_nil] at hbegun
      exact ⟨0, Nat.zero_le _, hbegun⟩
  | step _ hnear ih =>
      intro hn
      obtain ⟨k, hk, hpast⟩ := ih (by omega)
      obtain ⟨e, hE, hallowed, hjoins⟩ := hnear
      obtain ⟨-, j, hj, hlabel⟩ := hi.complete _ hpast (show k < depth by omega) e _ hE hallowed hjoins
      rw [hqueue, List.append_nil] at hlabel
      exact ⟨j, Nat.le_trans hj (Nat.succ_le_succ hk), hlabel⟩

structure Found (L : Links ι α ε κ) (N : α → Prop) (E : ε → Prop) (root : ι) (depth : Nat)
    (t : State ι α ε) : Prop where
  ids : (t.nodes.map L.id).Nodup
  keys : (t.edges.map L.key).Nodup
  rows : ∀ a ∈ t.nodes, N a
  nodes : ∀ v, v = root ∨ v ∈ t.nodes.map L.id ↔ Within (L.Near E) root depth v
  edges : ∀ e, e ∈ t.edges ↔ E e ∧ L.allowed e = true ∧
    ∃ v w k, L.Joins e v w ∧ k < depth ∧ Within (L.Near E) root k v

theorem found_of_search (hL : L.Reads N E) {n : Nat} {t : State ι α ε}
    (h : search L depth n ⟨[(root, 0)], [], []⟩ = some t) : Found L N E root depth t := by
  obtain ⟨hqueue, past, m, hi⟩ := (inv_start (L := L) (N := N) (E := E) root depth).search hL h
  have hpast : past ++ t.queue = past := by rw [hqueue, List.append_nil]
  refine ⟨hi.ids, hi.keys, fun a ha => (hi.labelled a ha).1, fun v => ⟨fun hv => ?_, fun hv => ?_⟩,
    fun e => ⟨fun he => ?_, fun ⟨hE, hallowed, v, w, k, hjoins, hk, hwalk⟩ => ?_⟩⟩
  · rcases hv with rfl | hv
    · exact .start
    · obtain ⟨a, ha, rfl⟩ := List.mem_map.1 hv
      obtain ⟨k, hk⟩ := (hi.labelled a ha).2
      obtain ⟨hle, hwalk⟩ := hi.walked _ hk
      exact hwalk.mono hle
  · obtain ⟨k, -, hk⟩ := hi.reached hqueue hv (Nat.le_refl _)
    exact hi.found (v, k) (by rwa [hpast])
  · obtain ⟨hE, hallowed, x, hx, hlt, w, hjoins⟩ := hi.sound e he
    exact ⟨hE, hallowed, x.1, w, x.2, hjoins, hlt, (hi.walked x (by rwa [hpast])).2⟩
  · obtain ⟨j, hj, hlabel⟩ := hi.reached hqueue hwalk (Nat.le_of_lt hk)
    exact (hi.complete _ hlabel (Nat.lt_of_le_of_lt hj hk) e w hE hallowed hjoins).1

end Lib.Search
