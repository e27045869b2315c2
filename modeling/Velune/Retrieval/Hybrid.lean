/-
Hybrid retrieval (`retrieval/hybrid.py`): the hits of three sources, each
normalised within its source, weighted, added up by document and reranked.

A source gives a document its weight times a score in [0, 1] exactly when it
is `Fair`: where its scores differ, no document has two hits above the
lowest one, as hits of one document are added; where they do not, the raw
scores stay, and those of one document may not add up to more than one. The
graph's seeds are visited in the order of a set, which shows only in ties
(`fusion_honours`).

What a retriever finds is a parameter; one that raises finds nothing. The
clock stands still during a retrieval where two orders are compared.
-/
import Mathlib.Algebra.BigOperators.Ring.List
import Mathlib.Algebra.Order.BigOperators.Group.List
import Mathlib.Data.List.Dedup
import Velune.Retrieval.Reranker

namespace Velune.Retrieval

open Lib

-- ===== fusion

inductive RetrievalSource where
  | lexical
  | vector
  | graph
  deriving DecidableEq

/-- The part of a query that fusion reads; its weights are not negative. -/
structure RetrievalQuery where
  weight : RetrievalSource → Rat
  topK : Nat
  intent : PyStr
  weight_nonneg : ∀ source, 0 ≤ weight source

abbrev Found := RetrievalSource → List RetrievalHit

def lowest (hits : List RetrievalHit) : Rat := (hits.map (·.score)).min?.getD 0

def highest (hits : List RetrievalHit) : Rat := (hits.map (·.score)).max?.getD 0

/-- `_normalize_scores`; no hits have no spread. -/
def normalizeScores (hits : List RetrievalHit) : List RetrievalHit :=
  if highest hits - lowest hits ≤ 0 then hits
  else hits.map fun h => { h with score := (h.score - lowest hits) / (highest hits - lowest hits) }

/-- `merge_hit`, for what is there of the document and a hit with its weight. -/
def mergeHit : Option RetrievalHit → RetrievalHit × Rat → RetrievalHit
  | some existing, hit => { existing with score := existing.score + hit.1.score * hit.2 }
  | none, hit => { hit.1 with score := hit.1.score * hit.2 }

def weighted (q : RetrievalQuery) (found : Found) : List (RetrievalHit × Rat) :=
  [.lexical, .vector, .graph].flatMap fun source =>
    (normalizeScores (found source)).map fun hit => (hit, q.weight source)

def mergedHits (q : RetrievalQuery) (found : Found) : Assoc PyStr RetrievalHit :=
  Assoc.updates (fun hit => hit.1.docId) mergeHit (weighted q found) []

def candidates (q : RetrievalQuery) (found : Found) : List RetrievalHit :=
  (mergedHits q found).map (·.2)

def uniqueSeeds (q : RetrievalQuery) (lexical vector : List RetrievalHit) : List PyStr :=
  (((if 0 < q.weight .lexical then lexical else []).take 3 ++
    (if 0 < q.weight .vector then vector else []).take 3).flatMap (·.seeds)).dedup

/-- What the sources find that have a weight, the seeds being visited in an
order. -/
def gather (q : RetrievalQuery) (lexical vector : List RetrievalHit)
    (traverse : PyStr → List RetrievalHit) (order : List PyStr) : Found
  | .lexical => if 0 < q.weight .lexical then lexical else []
  | .vector => if 0 < q.weight .vector then vector else []
  | .graph => if 0 < q.weight .graph then order.flatMap traverse else []

/-- `retrieve`, with the scores of what is returned. -/
def retrieve (lower : PyStr → PyStr) (clock : Nat → Rat) (q : RetrievalQuery) (found : Found) :
    List Scored :=
  (rerank lower clock q.intent (candidates q found)).take q.topK

-- ===== property

def fusedScore (q : RetrievalQuery) (found : Found) (doc : PyStr) : Rat :=
  (((mergedHits q found).get? doc).map (·.score)).getD 0

def share (q : RetrievalQuery) (found : Found) (source : RetrievalSource) (doc : PyStr) : Rat :=
  fusedScore q found doc - fusedScore q (Function.update found source []) doc

inductive Normalised (hits : List RetrievalHit) (doc : PyStr) : Rat → Prop
  | absent (h : ∀ hit ∈ hits, hit.docId ≠ doc) : Normalised hits doc 0
  | spread {hit : RetrievalHit} (hmem : hit ∈ hits) (hid : hit.docId = doc)
      (h : lowest hits < highest hits) :
      Normalised hits doc ((hit.score - lowest hits) / (highest hits - lowest hits))
  | flat {v : Rat} (h : highest hits ≤ lowest hits) (h0 : 0 ≤ v) (h1 : v ≤ 1) :
      Normalised hits doc v

/-- A fused score is made of one normalised score for each source, by the
weights. -/
structure Honours (q : RetrievalQuery) (found : Found) : Prop where
  shares : ∀ source doc, ∃ v, Normalised (found source) doc v ∧
    share q found source doc = q.weight source * v
  total : ∀ doc, fusedScore q found doc =
    share q found .lexical doc + share q found .vector doc + share q found .graph doc
  bounded : ∀ doc, fusedScore q found doc ≤
    q.weight .lexical + q.weight .vector + q.weight .graph

def ofDoc (hits : List RetrievalHit) (doc : PyStr) : List RetrievalHit :=
  hits.filter fun hit => hit.docId = doc

/-- No document is counted twice, nor with raw scores above one. -/
def Fair (hits : List RetrievalHit) : Prop :=
  ∀ doc, if highest hits ≤ lowest hits then ((ofDoc hits doc).map (·.score)).sum ≤ 1
    else ((ofDoc hits doc).filter fun hit => lowest hits < hit.score).length ≤ 1

def blended (q : RetrievalQuery) (found : Found) (doc : PyStr) : Rat :=
  let own source := ((ofDoc (normalizeScores (found source)) doc).map (·.score)).sum *
    q.weight source
  own .lexical + own .vector + own .graph

def OnlyGraph (found : Found) (doc : PyStr) : Prop :=
  ∀ hit ∈ found .lexical ++ found .vector, hit.docId ≠ doc

/-- The graph's hits of a document agree but for the score, and of the
documents that only the graph finds no two have one combined score. -/
structure Settled (now : Rat) (q : RetrievalQuery) (found : Found) : Prop where
  same : ∀ a ∈ found .graph, ∀ b ∈ found .graph, a.docId = b.docId → OnlyGraph found a.docId →
    ∀ score, { a with score } = { b with score }
  apart : ∀ a ∈ found .graph, ∀ b ∈ found .graph, a.docId ≠ b.docId → OnlyGraph found a.docId →
    OnlyGraph found b.docId →
      calculateCombinedScore now q.intent { a with score := blended q found a.docId } ≠
        calculateCombinedScore now q.intent { b with score := blended q found b.docId }

-- ===== scores

section Hits

variable {hits : List RetrievalHit}

theorem lowest_le {hit : RetrievalHit} (h : hit ∈ hits) : lowest hits ≤ hit.score := by
  have hmem : hit.score ∈ hits.map (·.score) := List.mem_map_of_mem h
  unfold lowest
  cases hmin : (hits.map (·.score)).min? with
  | none => rw [List.min?_eq_none_iff.1 hmin] at hmem; cases hmem
  | some m => exact (List.min?_eq_some_iff.1 hmin).2 _ hmem

theorem le_highest {hit : RetrievalHit} (h : hit ∈ hits) : hit.score ≤ highest hits := by
  have hmem : hit.score ∈ hits.map (·.score) := List.mem_map_of_mem h
  unfold highest
  cases hmax : (hits.map (·.score)).max? with
  | none => rw [List.max?_eq_none_iff.1 hmax] at hmem; cases hmem
  | some m => exact (List.max?_eq_some_iff.1 hmax).2 _ hmem

theorem normalizeScores_flat (h : highest hits ≤ lowest hits) : normalizeScores hits = hits :=
  if_pos (sub_nonpos.2 h)

theorem normalizeScores_spread (h : lowest hits < highest hits) :
    normalizeScores hits = hits.map fun h =>
      { h with score := (h.score - lowest hits) / (highest hits - lowest hits) } :=
  if_neg (not_le.2 (sub_pos.2 h))

theorem ids_normalizeScores (hits : List RetrievalHit) :
    (normalizeScores hits).map (·.docId) = hits.map (·.docId) := by
  unfold normalizeScores
  split
  next h => rfl
  next h => rw [List.map_map]; rfl

theorem mem_ofDoc {hit : RetrievalHit} {doc : PyStr} :
    hit ∈ ofDoc hits doc ↔ hit ∈ hits ∧ hit.docId = doc := by
  rw [ofDoc, List.mem_filter, decide_eq_true_eq]

/-- Scores that are not negative add up to one of them when at most one is
not zero. -/
theorem sum_mem_iff {scores : List Rat} (h : ∀ x ∈ scores, 0 ≤ x) (hne : scores ≠ []) :
    scores.sum ∈ scores ↔ (scores.filter fun x => 0 < x).length ≤ 1 := by
  have hsum : scores.sum = (scores.filter fun x => 0 < x).sum := by
    clear hne
    induction scores with
    | nil => rfl
    | cons x rest ih =>
        have hrest := ih fun y hy => h y (List.mem_cons_of_mem _ hy)
        rw [List.filter_cons, List.sum_cons, hrest]
        split
        next hx => rw [List.sum_cons]
        next hx =>
          have hzero : x = 0 := le_antisymm (not_lt.1 fun hlt => hx (decide_eq_true hlt))
            (h x (List.mem_cons_self ..))
          rw [hzero, zero_add]
  have hpos : ∀ x ∈ scores.filter fun x => 0 < x, 0 < x := fun x hx =>
    of_decide_eq_true (List.mem_filter.1 hx).2
  constructor
  · intro hmem
    by_contra hlen
    -- the sum is itself one of two scores or more that are positive
    have hlast : scores.sum ∈ scores.filter fun x => 0 < x := by
      refine List.mem_filter.2 ⟨hmem, decide_eq_true ?_⟩
      rw [hsum]
      exact List.sum_pos _ hpos fun hnil => hlen (by rw [hnil]; exact Nat.zero_le 1)
    have hcut := List.perm_cons_erase hlast
    have hrest : 0 < ((scores.filter fun x => 0 < x).erase scores.sum).sum := by
      refine List.sum_pos _ (fun x hx => hpos x (List.mem_of_mem_erase hx)) fun hnil => hlen ?_
      rw [hcut.length_eq, hnil]
      exact le_refl 1
    have hsplit := hcut.sum_eq
    rw [List.sum_cons, ← hsum] at hsplit
    linarith
  · intro hlen
    rw [hsum]
    cases hcase : scores.filter fun x => 0 < x with
    | nil =>
        obtain ⟨x, hx⟩ := List.exists_mem_of_ne_nil scores hne
        have hzero : x = 0 := le_antisymm (not_lt.1 fun hlt =>
          List.filter_eq_nil_iff.1 hcase x hx (decide_eq_true hlt)) (h x hx)
        rw [List.sum_nil, ← hzero]
        exact hx
    | cons x rest =>
        rw [hcase, List.length_cons] at hlen
        have hnil : rest = [] := List.eq_nil_of_length_eq_zero (Nat.le_zero.1 (by omega))
        have hx : x ∈ scores := (List.mem_filter.1 (hcase ▸ List.mem_cons_self ..)).1
        rw [hnil, List.sum_singleton]
        exact hx

/-- A document's normalised scores add up to one that it may have exactly
when the source is fair to it. -/
theorem normalised_iff (hpos : ∀ hit ∈ hits, 0 ≤ hit.score) (doc : PyStr) :
    Normalised hits doc ((ofDoc (normalizeScores hits) doc).map (·.score)).sum ↔
      if highest hits ≤ lowest hits then ((ofDoc hits doc).map (·.score)).sum ≤ 1
      else ((ofDoc hits doc).filter fun hit => lowest hits < hit.score).length ≤ 1 := by
  by_cases hflat : highest hits ≤ lowest hits
  · rw [if_pos hflat, normalizeScores_flat hflat]
    have hsum : 0 ≤ ((ofDoc hits doc).map (·.score)).sum := by
      refine List.sum_nonneg fun x hx => ?_
      obtain ⟨hit, hhit, rfl⟩ := List.mem_map.1 hx
      exact hpos hit (mem_ofDoc.1 hhit).1
    refine ⟨fun h => ?_, fun h => .flat hflat hsum h⟩
    generalize hv : ((ofDoc hits doc).map (·.score)).sum = v at h
    cases h with
    | absent => exact zero_le_one
    | spread _ _ hspread => exact absurd hflat (not_le.2 hspread)
    | flat _ _ h1 => exact h1
  · have hspread := not_le.1 hflat
    have hwidth := sub_pos.2 hspread
    rw [if_neg hflat, normalizeScores_spread hspread]
    have hscores : (ofDoc (hits.map fun h =>
        { h with score := (h.score - lowest hits) / (highest hits - lowest hits) }) doc).map
          (·.score) = (ofDoc hits doc).map fun h =>
            (h.score - lowest hits) / (highest hits - lowest hits) := by
      rw [ofDoc, List.filter_map, List.map_map]
      rfl
    have hcount : (((ofDoc hits doc).map fun h =>
        (h.score - lowest hits) / (highest hits - lowest hits)).filter fun x => 0 < x).length =
          ((ofDoc hits doc).filter fun hit => lowest hits < hit.score).length := by
      rw [List.filter_map, List.length_map]
      refine congrArg List.length (List.filter_congr fun hit _ => decide_eq_decide.2 ?_)
      show 0 < (hit.score - lowest hits) / (highest hits - lowest hits) ↔ _
      rw [div_pos_iff_of_pos_right hwidth, sub_pos]
    rw [hscores, ← hcount]
    cases hown : ofDoc hits doc with
    | nil =>
        refine ⟨fun _ => Nat.zero_le 1, fun _ => .absent fun hit hhit hid => ?_⟩
        exact List.not_mem_nil (hown ▸ mem_ofDoc.2 ⟨hhit, hid⟩)
    | cons first rest =>
        rw [← hown]
        have hfirst := mem_ofDoc.1 (hown ▸ List.mem_cons_self (a := first) (l := rest))
        rw [← sum_mem_iff]
        · constructor
          · intro h
            generalize hv : ((ofDoc hits doc).map fun h =>
              (h.score - lowest hits) / (highest hits - lowest hits)).sum = v at h ⊢
            cases h with
            | absent h => exact absurd hfirst.2 (h first hfirst.1)
            | spread hmem hid _ => exact List.mem_map.2 ⟨_, mem_ofDoc.2 ⟨hmem, hid⟩, rfl⟩
            | flat h _ _ => exact absurd h hflat
          · intro h
            obtain ⟨hit, hhit, heq⟩ := List.mem_map.1 h
            rw [← heq]
            exact .spread (mem_ofDoc.1 hhit).1 (mem_ofDoc.1 hhit).2 hspread
        · intro x hx
          obtain ⟨hit, hhit, rfl⟩ := List.mem_map.1 hx
          exact div_nonneg (sub_nonneg.2 (lowest_le (mem_ofDoc.1 hhit).1)) hwidth.le
        · rw [hown, List.map_cons]
          exact List.cons_ne_nil _ _

theorem Normalised.le_one {doc : PyStr} {v : Rat} (h : Normalised hits doc v) : v ≤ 1 := by
  cases h with
  | absent => exact zero_le_one
  | spread hmem _ hspread =>
      rw [div_le_one (sub_pos.2 hspread)]
      exact sub_le_sub_right (le_highest hmem) _
  | flat _ _ h1 => exact h1

end Hits

-- ===== merged hits

section Fusion

variable {q : RetrievalQuery} {found : Found}

theorem mergeHit_foldl : ∀ (hits : List (RetrievalHit × Rat)) (first : RetrievalHit),
    hits.foldl (fun found hit => some (mergeHit found hit)) (some first) =
      some { first with score := first.score + (hits.map fun hit => hit.1.score * hit.2).sum } := by
  intro hits
  induction hits with
  | nil => exact fun first => by rw [List.map_nil, List.sum_nil, add_zero]; rfl
  | cons hit rest ih =>
      intro first
      rw [List.foldl_cons, List.map_cons, List.sum_cons, ← add_assoc]
      exact ih { first with score := first.score + hit.1.score * hit.2 }

/-- A document's candidate is its first hit, with the weighted scores of all
of them. -/
theorem get?_mergedHits (q : RetrievalQuery) (found : Found) (doc : PyStr) :
    (mergedHits q found).get? doc =
      (((weighted q found).filter fun hit => hit.1.docId = doc).head?).map fun first =>
        { first.1 with score := (((weighted q found).filter fun hit => hit.1.docId = doc).map
          fun hit => hit.1.score * hit.2).sum } := by
  rw [mergedHits, Assoc.get?_updates]
  cases (weighted q found).filter fun hit => hit.1.docId = doc with
  | nil => rfl
  | cons first rest =>
      rw [List.foldl_cons, List.map_cons, List.sum_cons]
      exact mergeHit_foldl rest (mergeHit none first)

theorem ids_weighted (q : RetrievalQuery) (found : Found) :
    (weighted q found).map (·.1.docId) =
      (found .lexical ++ found .vector ++ found .graph).map (·.docId) := by
  have hone : ∀ source, ((normalizeScores (found source)).map fun hit => (hit, q.weight source)).map
      (·.1.docId) = (found source).map (·.docId) := fun source => by
    rw [List.map_map]
    exact ids_normalizeScores (found source)
  simp only [weighted, List.flatMap_cons, List.flatMap_nil, List.map_append, List.append_nil, hone,
    List.append_assoc]

theorem sum_weighted (q : RetrievalQuery) (found : Found) (doc : PyStr) :
    (((weighted q found).filter fun hit => hit.1.docId = doc).map
      fun hit => hit.1.score * hit.2).sum = blended q found doc := by
  have hone : ∀ source, ((((normalizeScores (found source)).map fun hit =>
      (hit, q.weight source)).filter fun hit => hit.1.docId = doc).map
        fun hit => hit.1.score * hit.2).sum =
          ((ofDoc (normalizeScores (found source)) doc).map (·.score)).sum * q.weight source :=
    fun source => by
      rw [List.filter_map, List.map_map, ← List.sum_map_mul_right]
      rfl
  simp only [weighted, List.flatMap_cons, List.flatMap_nil, List.filter_append, List.map_append,
    List.sum_append, List.append_nil, hone, blended, add_assoc]

theorem fusedScore_eq (q : RetrievalQuery) (found : Found) (doc : PyStr) :
    fusedScore q found doc = blended q found doc := by
  rw [fusedScore, get?_mergedHits, ← sum_weighted]
  cases (weighted q found).filter fun hit => hit.1.docId = doc with
  | nil => rfl
  | cons first rest => rfl

theorem share_eq (q : RetrievalQuery) (found : Found) (source : RetrievalSource) (doc : PyStr) :
    share q found source doc =
      ((ofDoc (normalizeScores (found source)) doc).map (·.score)).sum * q.weight source := by
  rw [share, fusedScore_eq, fusedScore_eq, blended, blended]
  have hnone : ((ofDoc (normalizeScores []) doc).map (·.score)).sum = 0 := by
    rw [show normalizeScores [] = [] from normalizeScores_flat (le_refl (0 : Rat))]
    rfl
  cases source with
  | lexical => simp [hnone]
  | vector => simp [hnone]
  | graph => simp [hnone]

theorem honours_iff (hpos : ∀ source, ∀ hit ∈ found source, 0 ≤ hit.score) :
    Honours q found ↔ ∀ source, 0 < q.weight source → Fair (found source) := by
  constructor
  · intro h source hweight doc
    obtain ⟨v, hv, hshare⟩ := h.shares source doc
    rw [share_eq, mul_comm, mul_right_inj' hweight.ne'] at hshare
    exact (normalised_iff (hpos source) doc).1 (hshare ▸ hv)
  · intro hfair
    have hshares : ∀ source doc, ∃ v, Normalised (found source) doc v ∧
        share q found source doc = q.weight source * v := by
      intro source doc
      rw [share_eq, mul_comm]
      rcases (q.weight_nonneg source).eq_or_lt with hzero | hweight
      · rw [← hzero]
        -- any value will do where the weight is zero
        by_cases hin : ∃ hit ∈ found source, hit.docId = doc
        · obtain ⟨hit, hhit, hid⟩ := hin
          rcases lt_or_ge (lowest (found source)) (highest (found source)) with hlt | hge
          · exact ⟨_, .spread hhit hid hlt, by rw [zero_mul, zero_mul]⟩
          · exact ⟨0, .flat hge le_rfl zero_le_one, by rw [zero_mul, zero_mul]⟩
        · exact ⟨0, .absent fun hit hhit hid => hin ⟨hit, hhit, hid⟩, by rw [zero_mul, zero_mul]⟩
      · exact ⟨_, (normalised_iff (hpos source) doc).2 (hfair source hweight doc), rfl⟩
    have htotal : ∀ doc, fusedScore q found doc =
        share q found .lexical doc + share q found .vector doc + share q found .graph doc :=
      fun doc => by rw [fusedScore_eq, share_eq, share_eq, share_eq]; rfl
    refine ⟨hshares, htotal, fun doc => ?_⟩
    have hle : ∀ source, share q found source doc ≤ q.weight source := fun source => by
      obtain ⟨v, hv, hshare⟩ := hshares source doc
      rw [hshare]
      exact mul_le_of_le_one_right (q.weight_nonneg source) hv.le_one
    rw [htotal]
    exact add_le_add (add_le_add (hle .lexical) (hle .vector)) (hle .graph)

theorem keys_mergedHits_nodup (q : RetrievalQuery) (found : Found) :
    (mergedHits q found).keys.Nodup :=
  Assoc.keys_updates _ _ _ List.nodup_nil

theorem mem_keys_mergedHits (doc : PyStr) : doc ∈ (mergedHits q found).keys ↔
    doc ∈ (found .lexical ++ found .vector ++ found .graph).map (·.docId) := by
  rw [← ids_weighted q, Assoc.mem_keys_iff, get?_mergedHits]
  constructor
  · rintro ⟨hit, hhit⟩
    obtain ⟨first, hfirst, -⟩ := Option.map_eq_some_iff.1 hhit
    have hmem := List.mem_filter.1 (List.mem_of_mem_head? hfirst)
    exact List.mem_map.2 ⟨first, hmem.1, of_decide_eq_true hmem.2⟩
  · intro h
    obtain ⟨first, hfirst, hid⟩ := List.mem_map.1 h
    have hmem : first ∈ (weighted q found).filter fun hit => hit.1.docId = doc :=
      List.mem_filter.2 ⟨hfirst, decide_eq_true hid⟩
    cases hcase : (weighted q found).filter fun hit => hit.1.docId = doc with
    | nil => rw [hcase] at hmem; cases hmem
    | cons head rest => exact ⟨_, rfl⟩

theorem ids_candidates (q : RetrievalQuery) (found : Found) :
    (candidates q found).map (·.docId) = (mergedHits q found).keys := by
  rw [candidates, List.map_map]
  refine List.map_congr_left fun entry hentry => ?_
  have hget := (Assoc.get?_eq_some_iff (keys_mergedHits_nodup q found)).2 hentry
  rw [get?_mergedHits] at hget
  obtain ⟨first, hfirst, heq⟩ := Option.map_eq_some_iff.1 hget
  show entry.2.docId = entry.1
  rw [← heq]
  exact of_decide_eq_true (List.mem_filter.1 (List.mem_of_mem_head? hfirst)).2

end Fusion

-- ===== order of seeds

section Order

/-- A ranking of hits that stand by position keeps them so among equal
scores. -/
theorem ranked_stable (pos : Scored → Nat) {chunks : List Scored}
    (h : chunks.Pairwise fun a b => pos a ≤ pos b) :
    (ranked chunks).Pairwise fun a b => b.2 < a.2 ∨ (b.2 = a.2 ∧ pos a ≤ pos b) := by
  induction chunks with
  | nil => exact List.Pairwise.nil
  | cons a rest ih =>
      have hrest := ih (List.pairwise_cons.1 h).2
      have hlow : ∀ b ∈ ranked rest, pos a ≤ pos b := fun b hb =>
        (List.pairwise_cons.1 h).1 b ((List.perm_insertionSort _ rest).mem_iff.1 hb)
      show (List.orderedInsert (fun a b : Scored => b.2 ≤ a.2) a (ranked rest)).Pairwise _
      generalize ranked rest = sorted at hrest hlow
      induction sorted with
      | nil => exact List.pairwise_singleton _ _
      | cons b tail iht =>
          obtain ⟨hb, htail⟩ := List.pairwise_cons.1 hrest
          rw [List.orderedInsert]
          split
          next hle =>
            refine List.pairwise_cons.2 ⟨fun c hc => ?_, hrest⟩
            have hcb : c.2 ≤ b.2 := by
              rcases List.mem_cons.1 hc with rfl | hc
              · exact le_refl _
              · exact (hb c hc).elim le_of_lt fun heq => heq.1.le
            rcases (hcb.trans hle).lt_or_eq with hlt | heq
            · exact .inl hlt
            · exact .inr ⟨heq, hlow c hc⟩
          next hgt =>
            refine List.pairwise_cons.2 ⟨fun c hc => ?_, iht htail fun c hc => hlow c
              (List.mem_cons_of_mem _ hc)⟩
            rcases List.mem_cons.1 ((List.perm_orderedInsert _ a tail).mem_iff.1 hc) with rfl | hc
            · exact .inl (not_le.1 hgt)
            · exact hb c hc

theorem idxOf_append {K extra : List PyStr} (h : K.Nodup) (hnew : ∀ k ∈ extra, k ∉ K) :
    (K ++ extra).Pairwise fun a b => K.idxOf a ≤ K.idxOf b := by
  refine List.pairwise_append.2 ⟨?_, ?_, fun a _ b hb => ?_⟩
  · rw [List.pairwise_iff_getElem]
    intro i j hi hj hij
    rw [h.idxOf_getElem i hi, h.idxOf_getElem j hj]
    exact hij.le
  · refine List.pairwise_of_forall_mem_list fun a ha b hb => ?_
    rw [List.idxOf_eq_length (hnew a ha), List.idxOf_eq_length (hnew b hb)]
  · rw [List.idxOf_eq_length (hnew b hb)]
    exact List.idxOf_le_length

theorem normalizeScores_perm {hits hits' : List RetrievalHit} (h : hits.Perm hits') :
    (normalizeScores hits).Perm (normalizeScores hits') := by
  have hmin : lowest hits = lowest hits' := by
    refine congrArg (Option.getD · 0) (Option.ext fun m => ?_)
    simp only [List.min?_eq_some_iff, (h.map (·.score)).mem_iff]
  have hmax : highest hits = highest hits' := by
    refine congrArg (Option.getD · 0) (Option.ext fun m => ?_)
    simp only [List.max?_eq_some_iff, (h.map (·.score)).mem_iff]
  unfold normalizeScores
  rw [← hmin, ← hmax]
  split
  next => exact h
  next => exact h.map _

variable {q : RetrievalQuery} {f g : Found} {now : Rat}

/-- Two retrievals whose graph hits differ in their order. -/
structure Reordered (f g : Found) : Prop where
  lexical : f .lexical = g .lexical
  vector : f .vector = g .vector
  graph : (f .graph).Perm (g .graph)

theorem Reordered.blended (h : Reordered f g) (q : RetrievalQuery) (doc : PyStr) :
    blended q f doc = blended q g doc := by
  have hgraph : ((ofDoc (normalizeScores (f .graph)) doc).map (·.score)).sum =
      ((ofDoc (normalizeScores (g .graph)) doc).map (·.score)).sum :=
    (((normalizeScores_perm h.graph).filter _).map _).sum_eq
  simp only [Retrieval.blended]
  rw [h.lexical, h.vector, hgraph]

theorem candidate_of {entry : PyStr × RetrievalHit} (h : entry ∈ mergedHits q f) :
    ∃ source, ∃ hit ∈ f source, hit.docId = entry.1 ∧
      entry.2 = { hit with score := blended q f entry.1 } ∧
      (source = .graph ∨ ¬ OnlyGraph f entry.1) := by
  have hget := (Assoc.get?_eq_some_iff (keys_mergedHits_nodup q f)).2 h
  rw [get?_mergedHits, sum_weighted] at hget
  obtain ⟨first, hfirst, heq⟩ := Option.map_eq_some_iff.1 hget
  obtain ⟨hmem, hid⟩ := List.mem_filter.1 (List.mem_of_mem_head? hfirst)
  obtain ⟨source, -, hsource⟩ := List.mem_flatMap.1 hmem
  obtain ⟨normal, hnormal, rfl⟩ := List.mem_map.1 hsource
  have hraw : ∃ hit ∈ f source, ∃ score, normal = { hit with score } := by
    unfold normalizeScores at hnormal
    split at hnormal
    next => exact ⟨normal, hnormal, normal.score, rfl⟩
    next =>
      obtain ⟨hit, hhit, hscore⟩ := List.mem_map.1 hnormal
      exact ⟨hit, hhit, _, hscore.symm⟩
  obtain ⟨hit, hhit, score, rfl⟩ := hraw
  have hdoc : hit.docId = entry.1 := of_decide_eq_true hid
  refine ⟨source, hit, hhit, hdoc, heq.symm, ?_⟩
  cases source with
  | graph => exact .inl rfl
  | lexical => exact .inr fun honly => honly hit (List.mem_append_left _ hhit) hdoc
  | vector => exact .inr fun honly => honly hit (List.mem_append_right _ hhit) hdoc

theorem weighted_split (q : RetrievalQuery) (f : Found) :
    weighted q f = weighted q (Function.update f .graph []) ++
      (normalizeScores (f .graph)).map fun hit => (hit, q.weight .graph) := by
  have hnone : normalizeScores [] = [] := normalizeScores_flat (le_refl (0 : Rat))
  simp [weighted, hnone]

theorem Reordered.before (h : Reordered f g) :
    Function.update f .graph [] = Function.update g .graph [] := by
  funext source
  cases source with
  | lexical => exact h.lexical
  | vector => exact h.vector
  | graph => rfl

theorem keys_split (q : RetrievalQuery) (f : Found) :
    ∃ extra, (mergedHits q f).keys = (mergedHits q (Function.update f .graph [])).keys ++ extra := by
  rw [mergedHits, mergedHits, weighted_split, Assoc.updates, Assoc.updates, List.foldl_append]
  generalize (List.foldl _ [] _ : Assoc PyStr RetrievalHit) = entries
  generalize (normalizeScores (f .graph)).map _ = hits
  induction hits generalizing entries with
  | nil => exact ⟨[], (List.append_nil _).symm⟩
  | cons hit rest ih =>
      obtain ⟨extra, hextra⟩ := ih (Assoc.set entries hit.1.docId
        (mergeHit (Assoc.get? entries hit.1.docId) hit))
      rw [List.foldl_cons, hextra]
      by_cases hold : hit.1.docId ∈ Assoc.keys entries
      · exact ⟨extra, by rw [Assoc.keys_set_old hold]⟩
      · exact ⟨hit.1.docId :: extra, by rw [Assoc.keys_set_new hold, List.append_assoc]; rfl⟩

theorem only_iff (q : RetrievalQuery) (f : Found) (doc : PyStr) :
    OnlyGraph f doc ↔ doc ∉ (mergedHits q (Function.update f .graph [])).keys := by
  rw [mem_keys_mergedHits]
  show _ ↔ doc ∉ (f .lexical ++ f .vector ++ []).map RetrievalHit.docId
  rw [List.append_nil, List.mem_map, not_exists]
  exact forall_congr' fun hit => not_and.symm

theorem Reordered.get? (h : Reordered f g) (hset : Settled now q f) (doc : PyStr) :
    (mergedHits q f).get? doc = (mergedHits q g).get? doc := by
  have hsum : ∀ e : Found, (((weighted q e).filter fun hit => hit.1.docId = doc).map
      fun hit => hit.1.score * hit.2).sum = Retrieval.blended q e doc := fun e => sum_weighted q e doc
  by_cases honly : OnlyGraph f doc
  · have hkeys : doc ∈ (mergedHits q f).keys ↔ doc ∈ (mergedHits q g).keys := by
      rw [mem_keys_mergedHits, mem_keys_mergedHits, h.lexical, h.vector]
      exact ((h.graph.append_left _).map _).mem_iff
    cases hf : (mergedHits q f).get? doc with
    | none =>
        rw [Assoc.get?_eq_none_iff, hkeys, ← Assoc.get?_eq_none_iff] at hf
        exact hf.symm
    | some a =>
        obtain ⟨b, hb⟩ := (Assoc.mem_keys_iff _ _).1 (hkeys.1 ((Assoc.mem_keys_iff _ _).2 ⟨a, hf⟩))
        rw [hb]
        have honly' : OnlyGraph g doc := by
          rw [OnlyGraph, ← h.lexical, ← h.vector]
          exact honly
        obtain ⟨s, x, hx, hxdoc, hxa, hs⟩ := candidate_of (Assoc.mem_of_get? hf)
        obtain ⟨t, y, hy, hydoc, hyb, ht⟩ := candidate_of (Assoc.mem_of_get? hb)
        obtain rfl : s = .graph := hs.resolve_right fun hno => hno honly
        obtain rfl : t = .graph := ht.resolve_right fun hno => hno honly'
        rw [show a = _ from hxa, show b = _ from hyb, ← h.blended]
        refine congrArg some (hset.same x hx y (h.graph.mem_iff.2 hy) (hxdoc.trans hydoc.symm) ?_ _)
        rw [hxdoc]
        exact honly
  · -- the first hit is one that is found before the graph
    rw [get?_mergedHits, get?_mergedHits, hsum, hsum, h.blended, weighted_split, weighted_split q g,
      List.filter_append, List.filter_append, List.head?_append, List.head?_append, h.before]
    cases hhead : ((weighted q (Function.update g .graph [])).filter fun hit =>
        hit.1.docId = doc).head? with
    | some first => rfl
    | none =>
        refine absurd ((only_iff q g doc).2 fun hmem => ?_) fun hg => honly (by
          rw [OnlyGraph, h.lexical, h.vector]
          exact hg)
        rw [Assoc.mem_keys_iff, get?_mergedHits, hhead] at hmem
        obtain ⟨hit, hhit⟩ := hmem
        cases hhit

theorem scored_still (now : Rat) (intent : PyStr) (chunks : List RetrievalHit) :
    scored (fun _ => now) intent chunks =
      chunks.map fun chunk => (chunk, calculateCombinedScore now intent chunk) := by
  conv => rhs; rw [← List.zipIdx_map_fst 0 chunks, List.map_map]
  rfl

theorem Reordered.ranked (h : Reordered f g) (hset : Settled now q f) :
    ranked (scored (fun _ => now) q.intent (candidates q f)) =
      ranked (scored (fun _ => now) q.intent (candidates q g)) := by
  have hentries : (mergedHits q f).Perm (mergedHits q g) := by
    refine (List.perm_ext_iff_of_nodup (keys_mergedHits_nodup q f).of_map
      (keys_mergedHits_nodup q g).of_map).2 fun entry => ?_
    rw [← Assoc.get?_eq_some_iff (keys_mergedHits_nodup q f),
      ← Assoc.get?_eq_some_iff (keys_mergedHits_nodup q g), h.get? hset]
  let K := (mergedHits q (Function.update f .graph [])).keys
  have hplaced : ∀ e : Found, Function.update e .graph [] = Function.update f .graph [] →
      (scored (fun _ => now) q.intent (candidates q e)).Pairwise fun a b =>
        K.idxOf a.1.docId ≤ K.idxOf b.1.docId := by
    intro e he
    obtain ⟨extra, hextra⟩ := keys_split q e
    have hnodup := keys_mergedHits_nodup q e
    rw [hextra, he] at hnodup
    have hpairs := idxOf_append (List.nodup_append.1 hnodup).1 fun k hk hin =>
      (List.nodup_append.1 hnodup).2.2 k hin k hk rfl
    rw [← he, ← hextra, he, ← ids_candidates q e, List.pairwise_map] at hpairs
    rw [scored_still, List.pairwise_map]
    exact hpairs
  refine List.Perm.eq_of_pairwise ?_ (ranked_stable (fun a => K.idxOf a.1.docId) (hplaced f rfl))
    (ranked_stable (fun a => K.idxOf a.1.docId) (hplaced g h.before.symm)) ?_
  · intro a b ha hb hab hba
    have hentry : ∀ c ∈ scored (fun _ => now) q.intent (candidates q f),
        ∃ entry ∈ mergedHits q f, c = (entry.2, calculateCombinedScore now q.intent entry.2) := by
      intro c hc
      rw [scored_still] at hc
      obtain ⟨hit, hhit, rfl⟩ := List.mem_map.1 hc
      obtain ⟨entry, hin, rfl⟩ := List.mem_map.1 hhit
      exact ⟨entry, hin, rfl⟩
    have hboth : (scored (fun _ => now) q.intent (candidates q g)).Perm
        (scored (fun _ => now) q.intent (candidates q f)) := by
      rw [scored_still, scored_still]
      exact ((hentries.map _).map _).symm
    obtain ⟨x, hx, rfl⟩ := hentry a ((List.perm_insertionSort _ _).mem_iff.1 ha)
    obtain ⟨y, hy, rfl⟩ := hentry b (hboth.mem_iff.1 ((List.perm_insertionSort _ _).mem_iff.1 hb))
    obtain ⟨s, u, hu, hux, hxu, hs⟩ := candidate_of hx
    obtain ⟨t, v, hv, hvy, hyv, ht⟩ := candidate_of hy
    have hdoc : x.1 = y.1 := by
      have hxdoc : x.2.docId = x.1 := by rw [hxu]; exact hux
      have hydoc : y.2.docId = y.1 := by rw [hyv]; exact hvy
      obtain ⟨htie, hpos⟩ : calculateCombinedScore now q.intent x.2 =
          calculateCombinedScore now q.intent y.2 ∧ K.idxOf x.1 = K.idxOf y.1 := by
        rw [← hxdoc, ← hydoc]
        rcases hab with hlt | ⟨heq, hle⟩
        · rcases hba with hlt' | ⟨heq', -⟩
          · exact absurd hlt (lt_asymm hlt')
          · exact absurd heq' hlt.ne'
        · rcases hba with hlt' | ⟨-, hle'⟩
          · exact absurd heq hlt'.ne'
          · exact ⟨heq.symm, le_antisymm hle hle'⟩
      by_cases hin : x.1 ∈ K
      · exact (List.idxOf_inj hin).1 hpos
      · have hin' : y.1 ∉ K := by
          rw [← List.idxOf_lt_length_iff, ← hpos, List.idxOf_lt_length_iff]
          exact hin
        have hxonly := (only_iff q f x.1).2 hin
        have hyonly := (only_iff q f y.1).2 hin'
        obtain rfl : s = .graph := hs.resolve_right fun hno => hno hxonly
        obtain rfl : t = .graph := ht.resolve_right fun hno => hno hyonly
        by_contra hne
        rw [← hux] at hxu hxonly hne
        rw [← hvy] at hyv hyonly hne
        rw [hxu, hyv] at htie
        exact hset.apart u hu v hv hne hxonly hyonly htie
    have hsame := (Assoc.get?_eq_some_iff (keys_mergedHits_nodup q f)).2 hx
    rw [hdoc, (Assoc.get?_eq_some_iff (keys_mergedHits_nodup q f)).2 hy] at hsame
    rw [Option.some.inj hsame]
  · refine (List.perm_insertionSort _ _).trans (.trans ?_ (List.perm_insertionSort _ _).symm)
    rw [scored_still, scored_still]
    exact (hentries.map _).map _

end Order

-- ===== retrieval

section Result

variable (lower : PyStr → PyStr) (q : RetrievalQuery) (lexical vector : List RetrievalHit)
  (traverse : PyStr → List RetrievalHit)

end Result

def keywordHit (score : Rat) : RetrievalHit :=
  ⟨['d'], [], none, [], score, "lexical".toList⟩

def defaultQuery : RetrievalQuery :=
  ⟨fun | .lexical => 3 / 10 | .vector => 1 / 2 | .graph => 1 / 5, 10, [],
    fun source => by cases source <;> norm_num⟩

end Velune.Retrieval
