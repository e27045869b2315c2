/-
The reranker (`retrieval/reranker.py`): hits in the order of a combined
score, one for each signature.

Equality of contents is decided by their first hundred characters in lower
case, so hits that begin alike count as one (`rerank_deduplicated`). A hit
met later never replaces the one kept, as it does not score higher.

Scores are exact numbers. The case table is a parameter, and the clock, which
is read once for each hit.
-/
import Mathlib.Data.List.Perm.Subperm
import Mathlib.Data.List.Sort
import Mathlib.Data.Rat.Floor
import Velune.Domain
import Velune.Lib.Assoc

namespace Velune.Retrieval

open Lib

-- ===== scores

/-- A hit with its document. The time stamp is `none` when it is missing,
zero or no number; `seeds` are the path and the name of the document, those
that are there. -/
structure RetrievalHit where
  docId : PyStr
  content : PyStr
  timestamp : Option Rat
  seeds : List PyStr
  score : Rat
  source : PyStr
  deriving DecidableEq

def SEMANTIC_WEIGHT : Rat := 1 / 2

def RECENCY_WEIGHT : Rat := 3 / 10

def TRUST_WEIGHT : Rat := 1 / 5

def MIN_RECENCY_SECONDS : Rat := 300

def MAX_RECENCY_SECONDS : Rat := 2592000

def INTENT_TRUST_BOOST : List (String × List (String × Rat)) :=
  [("architecture", [("graph", 1 / 10), ("import_graph", 1 / 10), ("call_graph", 1 / 10)]),
    ("dependency_analysis", [("graph", 3 / 20), ("import_graph", 3 / 20), ("call_graph", 1 / 10)]),
    ("refactor", [("graph", 1 / 20), ("symbol", 1 / 10), ("call_graph", 1 / 20)]),
    ("debug",
      [("graph", 1 / 10), ("vector", 1 / 20), ("symbol", 1 / 20), ("call_graph", 1 / 10)]),
    ("security", [("graph", 1 / 20), ("lexical", 1 / 20), ("call_graph", 1 / 20)]),
    ("search", [("vector", 1 / 10), ("lexical", 1 / 10)]),
    ("documentation", [("vector", 1 / 10)]),
    ("test_generation", [("vector", 1 / 20), ("lexical", 1 / 20)])]

def sourceTrust : List (String × Rat) :=
  [("graph", 17 / 20), ("vector", 7 / 10), ("memory", 7 / 10), ("lexical", 3 / 5),
    ("symbol", 9 / 10), ("import_graph", 17 / 20), ("lineage", 4 / 5), ("call_graph", 3 / 4),
    ("episodic", 7 / 10), ("semantic", 3 / 5)]

/-- `table.get(key, default)`, of a table with texts. -/
def lookupText {ν : Type} (table : List (String × ν)) (key : PyStr) (default : ν) : ν :=
  ((table.find? fun entry => entry.1.toList = key).map (·.2)).getD default

def clamp (x : Rat) : Rat := min 1 (max 0 x)

def calculateRecencyScore (now : Rat) (chunk : RetrievalHit) : Rat :=
  match chunk.timestamp with
  | none => 1 / 2
  | some timestamp =>
      let ageSeconds := now - timestamp
      if ageSeconds < MIN_RECENCY_SECONDS then 1
      else if MAX_RECENCY_SECONDS < ageSeconds then 0
      else clamp (1 - (ageSeconds - MIN_RECENCY_SECONDS) / (MAX_RECENCY_SECONDS - MIN_RECENCY_SECONDS))

def calculateTrustScore (chunk : RetrievalHit) (intent : PyStr) : Rat :=
  min 1 (lookupText sourceTrust chunk.source (1 / 2) +
    lookupText (lookupText INTENT_TRUST_BOOST intent []) chunk.source 0)

/-- `_calculate_combined_score`; no intent is the empty text. -/
def calculateCombinedScore (now : Rat) (intent : PyStr) (chunk : RetrievalHit) : Rat :=
  clamp (clamp chunk.score * SEMANTIC_WEIGHT + calculateRecencyScore now chunk * RECENCY_WEIGHT +
    calculateTrustScore chunk intent * TRUST_WEIGHT)

-- ===== reranking

abbrev Scored := RetrievalHit × Rat

variable (lower : PyStr → PyStr)

/-- `_content(chunk)[:100].lower()`. -/
def contentSig (chunk : Scored) : PyStr := lower (chunk.1.content.take 100)

/-- One round of the loop of `_deduplicate_by_content`. -/
def keepBest (seen : Assoc PyStr Scored) (chunk : Scored) : Assoc PyStr Scored :=
  match seen.get? (contentSig lower chunk) with
  | none => seen.set (contentSig lower chunk) chunk
  | some kept => if kept.2 < chunk.2 then seen.set (contentSig lower chunk) chunk else seen

def deduplicateByContent (chunks : List Scored) : List Scored :=
  (chunks.foldl (keepBest lower) []).map (·.2)

/-- The hits with their scores, `clock` giving the time at each. -/
def scored (clock : Nat → Rat) (intent : PyStr) (chunks : List RetrievalHit) : List Scored :=
  chunks.zipIdx.map fun chunk => (chunk.1, calculateCombinedScore (clock chunk.2) intent chunk.1)

/-- `sorted(chunks, key=scores, reverse=True)`, which is stable. -/
def ranked (chunks : List Scored) : List Scored := chunks.insertionSort fun a b => b.2 ≤ a.2

/-- `rerank`, with the scores of what is returned. -/
def rerank (clock : Nat → Rat) (intent : PyStr) (chunks : List RetrievalHit) : List Scored :=
  deduplicateByContent lower (ranked (scored clock intent chunks))

-- ===== property

/-- Some of the hits, by score, no two of one key, and for every hit a kept
one of its key that scores no less. -/
structure Deduplicated (key : Scored → PyStr) (chunks kept : List Scored) : Prop where
  part : kept.Subperm chunks
  sorted : kept.Pairwise fun a b => b.2 ≤ a.2
  distinct : (kept.map key).Nodup
  best : ∀ a ∈ chunks, ∃ b ∈ kept, key b = key a ∧ a.2 ≤ b.2

variable {lower}

/-- What the loop has seen, of the hits it has been through. -/
structure Kept (lower : PyStr → PyStr) (past : List Scored) (seen : Assoc PyStr Scored) : Prop where
  keyed : ∀ entry ∈ seen, entry.1 = contentSig lower entry.2
  part : (seen.map (·.2)).Sublist past
  distinct : seen.keys.Nodup
  best : ∀ a ∈ past, ∃ b ∈ seen, b.1 = contentSig lower a ∧ a.2 ≤ b.2.2

theorem Kept.step {past : List Scored} {seen : Assoc PyStr Scored} (h : Kept lower past seen)
    {chunk : Scored} (hlow : ∀ a ∈ past, chunk.2 ≤ a.2) :
    Kept lower (past ++ [chunk]) (keepBest lower seen chunk) := by
  unfold keepBest
  cases hget : seen.get? (contentSig lower chunk) with
  | none =>
      have hnew := (Assoc.get?_eq_none_iff seen _).1 hget
      simp only [Assoc.set_new hget]
      refine ⟨fun entry hentry => ?_, ?_, ?_, fun a ha => ?_⟩
      · rcases List.mem_append.1 hentry with hentry | hentry
        · exact h.keyed entry hentry
        · rw [List.mem_singleton.1 hentry]
      · rw [List.map_append]
        exact h.part.append (List.Sublist.refl _)
      · rw [Assoc.keys, List.map_append]
        refine List.nodup_append.2 ⟨h.distinct, List.nodup_singleton _, fun a ha b hb heq => hnew ?_⟩
        rw [List.map_singleton, List.mem_singleton] at hb
        have hb : b = contentSig lower chunk := hb
        rw [← hb, ← heq]
        exact ha
      · rcases List.mem_append.1 ha with ha | ha
        · obtain ⟨b, hb, hbest⟩ := h.best a ha
          exact ⟨b, List.mem_append_left _ hb, hbest⟩
        · rw [List.mem_singleton.1 ha]
          exact ⟨_, List.mem_append_right _ (List.mem_singleton.2 rfl), rfl, le_refl _⟩
  | some kept =>
      have hentry := Assoc.mem_of_get? hget
      have hpast : kept ∈ past := h.part.subset (List.mem_map_of_mem hentry)
      simp only [if_neg (not_lt.2 (hlow kept hpast))]
      refine ⟨h.keyed, h.part.trans (List.sublist_append_left _ _), h.distinct, fun a ha => ?_⟩
      rcases List.mem_append.1 ha with ha | ha
      · exact h.best a ha
      · rw [List.mem_singleton.1 ha]
        exact ⟨_, hentry, rfl, hlow kept hpast⟩

theorem Kept.fold : ∀ {rest past : List Scored} {seen : Assoc PyStr Scored},
    Kept lower past seen → (past ++ rest).Pairwise (fun a b => b.2 ≤ a.2) →
      Kept lower (past ++ rest) (rest.foldl (keepBest lower) seen) := by
  intro rest
  induction rest with
  | nil =>
      intro past seen h _
      rwa [List.append_nil]
  | cons chunk rest ih =>
      intro past seen h hsorted
      have hcut := List.append_assoc past [chunk] rest
      rw [List.singleton_append] at hcut
      rw [← hcut] at hsorted ⊢
      refine ih (h.step fun a ha => ?_) hsorted
      exact (List.pairwise_append.1 (List.pairwise_append.1 hsorted).1).2.2 a ha chunk
        (List.mem_singleton.2 rfl)

theorem ranked_sorted (chunks : List Scored) :
    (ranked chunks).Pairwise fun a b => b.2 ≤ a.2 := by
  have : Std.Total fun a b : Scored => b.2 ≤ a.2 := ⟨fun a b => le_total b.2 a.2⟩
  have : IsTrans Scored fun a b => b.2 ≤ a.2 := ⟨fun _ _ _ hab hbc => le_trans hbc hab⟩
  exact List.pairwise_insertionSort _ chunks

variable (lower) in
theorem ranked_kept (chunks : List Scored) :
    Kept lower (ranked chunks) ((ranked chunks).foldl (keepBest lower) []) :=
  have hnone : Kept lower [] [] := ⟨fun _ h => absurd h List.not_mem_nil, List.Sublist.refl _,
    List.nodup_nil, fun _ h => absurd h List.not_mem_nil⟩
  hnone.fold (ranked_sorted chunks)

theorem deduplicated_sorted (chunks : List Scored) :
    (deduplicateByContent lower (ranked chunks)).Pairwise fun a b => b.2 ≤ a.2 :=
  (ranked_sorted chunks).sublist (ranked_kept lower chunks).part

variable (lower) in
theorem distinct_kept (chunks : List Scored) :
    ((deduplicateByContent lower (ranked chunks)).map (contentSig lower)).Nodup := by
  have hkept := ranked_kept lower chunks
  have hkeys : ((ranked chunks).foldl (keepBest lower) []).map (contentSig lower ∘ fun entry => entry.2) =
      Assoc.keys ((ranked chunks).foldl (keepBest lower) []) :=
    List.map_congr_left fun entry hentry => (hkept.keyed entry hentry).symm
  rw [deduplicateByContent, List.map_map, hkeys]
  exact hkept.distinct

/-- What is left out of a ranking has a kept hit of its signature, and of
the hits of one signature the best is kept. -/
theorem rerank_deduplicated (lower : PyStr → PyStr) (clock : Nat → Rat) (intent : PyStr)
    (chunks : List RetrievalHit) :
    Deduplicated (contentSig lower) (scored clock intent chunks) (rerank lower clock intent chunks) := by
  have hperm : (ranked (scored clock intent chunks)).Perm (scored clock intent chunks) :=
    List.perm_insertionSort _ _
  have hkept := ranked_kept lower (scored clock intent chunks)
  refine ⟨hkept.part.subperm.trans hperm.subperm, deduplicated_sorted _, distinct_kept lower _,
    fun a ha => ?_⟩
  obtain ⟨entry, hentry, hkey, hle⟩ := hkept.best a (hperm.mem_iff.2 ha)
  exact ⟨entry.2, List.mem_map_of_mem hentry, by rw [← hkey, hkept.keyed entry hentry], hle⟩

def licensed (last : Char) : RetrievalHit :=
  ⟨[last], List.replicate 100 '#' ++ [last], none, [], 1, "lexical".toList⟩

/-- They are one hit, though their contents differ. -/
theorem not_deduplicated_content : ¬ Deduplicated (fun chunk => chunk.1.content)
    (scored (fun _ => 0) [] [licensed 'a', licensed 'b'])
    (rerank id (fun _ => 0) [] [licensed 'a', licensed 'b']) := by
  intro h
  have hsig := distinct_kept id (scored (fun _ => 0) [] [licensed 'a', licensed 'b'])
  have hall : ∀ last ∈ ['a', 'b'], ∃ b ∈ rerank id (fun _ => 0) [] [licensed 'a', licensed 'b'],
      b.1.content = (licensed last).content := by
    intro last hlast
    have hmem : ∃ a ∈ scored (fun _ => 0) [] [licensed 'a', licensed 'b'], a.1 = licensed last := by
      rcases List.mem_pair.1 hlast with rfl | rfl
      · exact ⟨_, List.mem_cons_self, rfl⟩
      · exact ⟨_, List.mem_cons_of_mem _ List.mem_cons_self, rfl⟩
    obtain ⟨a, ha, heq⟩ := hmem
    obtain ⟨b, hb, hcontent, -⟩ := h.best a ha
    exact ⟨b, hb, by rw [hcontent, heq]⟩
  obtain ⟨x, hx, hxa⟩ := hall 'a' (by decide)
  obtain ⟨y, hy, hyb⟩ := hall 'b' (by decide)
  have heq : x = y := List.inj_on_of_nodup_map hsig hx hy (by
    rw [contentSig, contentSig, hxa, hyb]
    rfl)
  rw [heq, hyb] at hxa
  exact absurd hxa (by decide)

end Velune.Retrieval
