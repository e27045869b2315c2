/-
Two tables of a relational store: rows under their ids, and rows that
join two of these, whose ends are foreign keys with cascading deletion.

Deleting takes the joining rows along, putting a row replaces the one
under its id, and putting a joining row fails while an end of it is
missing. So every edge joins two rows, whatever is done (`Joined`).
`latest` says what a list of rows leaves under an id when they are put
one after the other.
-/
import Velune.Lib.Dict

namespace Lib

-- ===== latest

section Latest

variable {κ ν : Type} [DecidableEq κ]

def latest : List (κ × ν) → κ → Option ν
  | [], _ => none
  | row :: rows, key => (latest rows key).or (if row.1 = key then some row.2 else none)

theorem latest_append : ∀ (rows more : List (κ × ν)) (key : κ),
    latest (rows ++ more) key = (latest more key).or (latest rows key)
  | [], more, key => (Option.or_none).symm
  | row :: rows, more, key => by
      change (latest (rows ++ more) key).or _ = _
      rw [latest_append rows more key, Option.or_assoc]
      rfl

theorem latest_mem : ∀ {rows : List (κ × ν)} {key : κ} {value : ν},
    latest rows key = some value → (key, value) ∈ rows
  | row :: rows, key, value, h => by
      rcases Option.or_eq_some_iff.1 h with hlater | ⟨-, hnow⟩
      · exact List.mem_cons_of_mem _ (latest_mem hlater)
      · split at hnow
        · rename_i hkey
          cases hnow
          rw [← hkey]
          exact List.mem_cons_self ..
        · cases hnow

theorem latest_eq_none : ∀ {rows : List (κ × ν)} {key : κ},
    latest rows key = none ↔ key ∉ rows.map (·.1)
  | [], key => iff_of_true rfl List.not_mem_nil
  | row :: rows, key => by
      change (latest rows key).or _ = none ↔ _
      rw [Option.or_eq_none_iff, latest_eq_none, List.map_cons, List.mem_cons, not_or, and_comm]
      refine and_congr_left fun _ => ?_
      split
      · rename_i hkey
        exact iff_of_false ((by simp)) fun h => h hkey.symm
      · rename_i hkey
        exact iff_of_true rfl fun h => hkey h.symm

theorem latest_isSome {rows : List (κ × ν)} {key : κ} :
    (latest rows key).isSome = true ↔ key ∈ rows.map (·.1) := by
  rw [Option.isSome_iff_ne_none, ne_eq, latest_eq_none, not_not]

/-- Of rows from several lists the last is in one of them, when the others
have none under the key. -/
theorem latest_flatMap {α : Type} {f : α → List (κ × ν)} {key : κ} {a : α} :
    ∀ {as : List α}, a ∈ as → (∀ b ∈ as, b ≠ a → latest (f b) key = none) →
      latest (as.flatMap f) key = latest (f a) key
  | b :: bs, hmem, hnone => by
      rw [List.flatMap_cons, latest_append]
      by_cases hba : b = a
      · subst hba
        by_cases hrest : b ∈ bs
        · rw [latest_flatMap hrest fun c hc => hnone c (List.mem_cons_of_mem _ hc)]
          cases latest (f b) key <;> rfl
        · have hempty : latest (bs.flatMap f) key = none := by
            rw [latest_eq_none]
            intro hkey
            obtain ⟨row, hrow, hrowkey⟩ := List.mem_map.1 hkey
            obtain ⟨c, hc, hrowc⟩ := List.mem_flatMap.1 hrow
            refine latest_eq_none.1 (hnone c (List.mem_cons_of_mem _ hc) ?_)
              (List.mem_map.2 ⟨row, hrowc, hrowkey⟩)
            rintro rfl
            exact hrest hc
          rw [hempty]
          rfl
      · have hrest : a ∈ bs := (List.mem_cons.1 hmem).resolve_left fun h => hba h.symm
        rw [latest_flatMap hrest fun c hc => hnone c (List.mem_cons_of_mem _ hc),
          hnone b (List.mem_cons_self ..) hba, Option.or_none]

end Latest

-- ===== tables

structure Tables (ι ν τ ε : Type) where
  nodes : Dict ι ν
  edges : Dict (ι × ι × τ) ε

namespace Tables

variable {ι ν τ ε : Type}

def empty : Tables ι ν τ ε := ⟨Dict.empty, Dict.empty⟩

def Joined (t : Tables ι ν τ ε) : Prop := ∀ s d k, t.edges (s, d, k) ≠ none →
  (t.nodes s).isSome = true ∧ (t.nodes d).isSome = true

def takes (p : ι → ν → Bool) (t : Tables ι ν τ ε) (i : ι) : Bool := (t.nodes i).any (p i)

/-- `DELETE`, with `ON DELETE CASCADE` at both ends of the edges. -/
def delete (p : ι → ν → Bool) (t : Tables ι ν τ ε) : Tables ι ν τ ε where
  nodes i := if t.takes p i then none else t.nodes i
  edges key := if t.takes p key.1 || t.takes p key.2.1 then none else t.edges key

theorem takes_or (p q : ι → ν → Bool) (t : Tables ι ν τ ε) (i : ι) :
    t.takes (fun i row => p i row || q i row) i = (t.takes p i || t.takes q i) := by
  unfold takes
  cases t.nodes i <;> rfl

theorem takes_delete (p q : ι → ν → Bool) (t : Tables ι ν τ ε) (i : ι) :
    (t.delete p).takes q i = (!t.takes p i && t.takes q i) := by
  change (if t.takes p i then none else t.nodes i).any (q i) = _
  cases t.takes p i <;> rfl

theorem delete_delete (p q : ι → ν → Bool) (t : Tables ι ν τ ε) :
    (t.delete p).delete q = t.delete fun i row => p i row || q i row := by
  have hnodes : ((t.delete p).delete q).nodes = (t.delete fun i row => p i row || q i row).nodes := by
    funext i
    change (if (t.delete p).takes q i then none else if t.takes p i then none else t.nodes i)
      = if t.takes (fun i row => p i row || q i row) i then none else t.nodes i
    rw [takes_delete, takes_or]
    cases t.takes p i <;> cases t.takes q i <;> rfl
  have hedges : ((t.delete p).delete q).edges = (t.delete fun i row => p i row || q i row).edges := by
    funext key
    change (if (t.delete p).takes q key.1 || (t.delete p).takes q key.2.1 then none
        else if t.takes p key.1 || t.takes p key.2.1 then none else t.edges key)
      = if t.takes (fun i row => p i row || q i row) key.1
          || t.takes (fun i row => p i row || q i row) key.2.1 then none else t.edges key
    rw [takes_delete, takes_delete, takes_or, takes_or]
    cases t.takes p key.1 <;> cases t.takes q key.1 <;> cases t.takes p key.2.1
      <;> cases t.takes q key.2.1 <;> rfl
  exact congrArg₂ Tables.mk hnodes hedges

section Put

variable [DecidableEq ι] [DecidableEq τ]

def putNodes (rows : List (ι × ν)) (t : Tables ι ν τ ε) : Tables ι ν τ ε :=
  { t with nodes := rows.foldl (fun nodes row => nodes.insert row.1 row.2) t.nodes }

/-- The same for edges; `none` when a foreign key is violated. -/
def putEdges : List ((ι × ι × τ) × ε) → Tables ι ν τ ε → Option (Tables ι ν τ ε)
  | [], t => some t
  | row :: rows, t =>
      if (t.nodes row.1.1).isSome ∧ (t.nodes row.1.2.1).isSome then
        putEdges rows { t with edges := t.edges.insert row.1 row.2 }
      else none

theorem foldl_insert {κ μ : Type} [DecidableEq κ] : ∀ (rows : List (κ × μ)) (d : Dict κ μ) (key : κ),
    (rows.foldl (fun d row => d.insert row.1 row.2) d) key = (latest rows key).or (d key)
  | [], _, _ => rfl
  | row :: rows, d, key => by
      rw [List.foldl_cons, foldl_insert rows]
      change _ = ((latest rows key).or (if row.1 = key then some row.2 else none)).or (d key)
      rw [Option.or_assoc]
      congr 1
      by_cases hkey : row.1 = key
      · rw [if_pos hkey, hkey, Dict.insert_self]
        rfl
      · rw [if_neg hkey, Dict.insert_of_ne d row.2 fun h => hkey h.symm]
        rfl

variable (rows : List (ι × ν)) (t : Tables ι ν τ ε)

omit [DecidableEq τ] in
theorem putNodes_nodes (i : ι) : (t.putNodes rows).nodes i = (latest rows i).or (t.nodes i) :=
  foldl_insert rows t.nodes i

theorem putEdges_eq_some : ∀ {edges : List ((ι × ι × τ) × ε)} {t t' : Tables ι ν τ ε},
    t.putEdges edges = some t' ↔
      (∀ row ∈ edges, (t.nodes row.1.1).isSome = true ∧ (t.nodes row.1.2.1).isSome = true)
        ∧ t' = { t with edges := edges.foldl (fun d row => d.insert row.1 row.2) t.edges }
  | [], t, t' => by
      refine ⟨fun h => ⟨fun _ h => (List.not_mem_nil h).elim, (Option.some.inj h).symm⟩,
        fun h => congrArg some h.2.symm⟩
  | row :: edges, t, t' => by
      unfold putEdges
      split
      · rename_i hends
        rw [putEdges_eq_some, List.forall_mem_cons]
        exact ⟨fun h => ⟨⟨hends, h.1⟩, h.2⟩, fun h => ⟨h.1.2, h.2⟩⟩
      · rename_i hends
        refine iff_of_false ((by simp)) fun h => ?_
        exact hends (h.1 row (List.mem_cons_self ..))

end Put

-- ===== joined

theorem joined_empty : Joined (empty : Tables ι ν τ ε) := fun _ _ _ h => (h rfl).elim

theorem Joined.delete {t : Tables ι ν τ ε} (h : Joined t) (p : ι → ν → Bool) :
    Joined (t.delete p) := by
  intro s d k hedge
  change (if t.takes p s || t.takes p d then none else t.edges (s, d, k)) ≠ none at hedge
  split at hedge
  · exact (hedge rfl).elim
  · rename_i hstay
    rw [Bool.or_eq_true, not_or] at hstay
    obtain ⟨hs, hd⟩ := h s d k hedge
    change (if t.takes p s then none else t.nodes s).isSome = true
      ∧ (if t.takes p d then none else t.nodes d).isSome = true
    rw [if_neg hstay.1, if_neg hstay.2]
    exact ⟨hs, hd⟩

variable [DecidableEq ι] [DecidableEq τ]

omit [DecidableEq τ] in
theorem Joined.putNodes {t : Tables ι ν τ ε} (h : Joined t) (rows : List (ι × ν)) :
    Joined (t.putNodes rows) := by
  intro s d k hedge
  obtain ⟨hs, hd⟩ := h s d k hedge
  rw [putNodes_nodes, putNodes_nodes, Option.isSome_or, Option.isSome_or, hs, hd]
  exact ⟨Bool.or_true _, Bool.or_true _⟩

theorem Joined.putEdges {t t' : Tables ι ν τ ε} (h : Joined t) {edges : List ((ι × ι × τ) × ε)}
    (hput : t.putEdges edges = some t') : Joined t' := by
  obtain ⟨hends, rfl⟩ := putEdges_eq_some.1 hput
  intro s d k hedge
  change edges.foldl (fun d row => d.insert row.1 row.2) t.edges (s, d, k) ≠ none at hedge
  rw [foldl_insert] at hedge
  cases hnew : latest edges (s, d, k) with
  | none =>
      rw [hnew] at hedge
      exact h s d k hedge
  | some row => exact hends _ (latest_mem hnew)

end Tables

end Lib
