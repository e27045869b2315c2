/-
What a snapshot keeps to (`snapshotKept_iff`).

Dropping keeps to the budget as long as the chunks that must be kept do; it
drops nothing else before them. When they alone are over it, they are laid
one behind the other into the budget's characters, the most important first,
and the one that overruns is cut. The notice behind a cut is not reckoned
with: a cut within its 47 characters of the end reaches past it, which only the
rounding of the token counts can make up for (`overhangs_iff`).
-/
import Velune.Context.Proofs.Trimming

namespace Velune.Context

open Lib

-- ===== the claim

def CutFrom (source kept : ContextChunk) : Prop :=
  kept.content = source.content ∨ ∃ n, kept.content = source.content.take n ++ TRUNCATION_NOTICE

structure SnapshotKept (chunks : List ContextChunk) : Prop where
  within : tokens (trimRepositorySnapshot chunks) ≤ SNAPSHOT_TOKEN_BUDGET
  parts : ∃ sources dropped, (sources ++ dropped).Perm chunks
    ∧ List.Forall₂ CutFrom sources (trimRepositorySnapshot chunks)
    ∧ ∀ d ∈ dropped, MUST_KEEP_PRIORITY ≤ d.priority → ∀ k ∈ sources, d.priority ≤ k.priority
  whole : tokens chunks ≤ SNAPSHOT_TOKEN_BUDGET → trimRepositorySnapshot chunks = chunks

def byPriority (chunks : List ContextChunk) : List ContextChunk :=
  chunks.mergeSort fun a b => decide (b.priority ≤ a.priority)

/-- Texts laid one behind the other into a room: one of them is cut so near
the end that the notice reaches a token past it, and past what the lengths
before it lost to rounding. -/
def Overhangs : Nat → Nat → List RawStr → Prop
  | _, _, [] => False
  | room, lost, content :: rest =>
      if content.length < room then
        Overhangs (room - content.length) (lost + content.length % CHARS_PER_TOKEN) rest
      else if content.length = room then False
      else if (truncated content room).length < room then
        Overhangs (room - (truncated content room).length)
          (lost + (truncated content room).length % CHARS_PER_TOKEN) rest
      else
        room + lost + (truncated content room).length % CHARS_PER_TOKEN + CHARS_PER_TOKEN
          ≤ (truncated content room).length

def NoOverhang (chunks : List ContextChunk) : Prop :=
  tokens (mustKeep chunks) ≤ SNAPSHOT_TOKEN_BUDGET
    ∨ ¬ Overhangs (SNAPSHOT_TOKEN_BUDGET * CHARS_PER_TOKEN) 0
        ((byPriority (mustKeep chunks)).map ContextChunk.content)

-- ===== dropping

theorem byPriority_perm (chunks : List ContextChunk) : (byPriority chunks).Perm chunks :=
  List.mergeSort_perm _ _

theorem byPriority_sorted (chunks : List ContextChunk) :
    (byPriority chunks).Pairwise fun a b => b.priority ≤ a.priority := by
  have hsorted := @List.pairwise_mergeSort ContextChunk
    (fun a b => decide (b.priority ≤ a.priority))
    (fun a b c hab hbc => by
      simp only [decide_eq_true_eq] at hab hbc ⊢
      exact hbc.trans hab)
    (fun a b => by
      simp only [Bool.or_eq_true, decide_eq_true_eq]
      exact le_total _ _) chunks
  exact hsorted.imp fun h => of_decide_eq_true h

theorem mustKeep_append_perm (chunks : List ContextChunk) :
    (mustKeep chunks ++ (droppable chunks).reverse).Perm chunks := by
  have hlow : (droppable chunks).reverse.Perm
      (chunks.filter fun c => !decide (MUST_KEEP_PRIORITY ≤ c.priority)) := by
    have hnot : (chunks.filter fun c => !decide (MUST_KEEP_PRIORITY ≤ c.priority))
        = chunks.filter fun c => decide (c.priority < MUST_KEEP_PRIORITY) := by
      congr 1
      funext c
      rw [← decide_not, decide_eq_decide]
      exact not_le
    rw [hnot]
    exact (List.reverse_perm _).trans (List.mergeSort_perm _ _)
  exact (List.Perm.append_left _ hlow).trans (List.filter_append_perm _ _)

variable {chunks : List ContextChunk}

theorem priority_of_mem_droppable {c : ContextChunk}
    (h : c ∈ droppable chunks) : c.priority < MUST_KEEP_PRIORITY := by
  have hmem := (List.mergeSort_perm _ _).subset h
  exact of_decide_eq_true (List.mem_filter.1 hmem).2

theorem tokens_dropLow_le (h : tokens (mustKeep chunks) ≤ SNAPSHOT_TOKEN_BUDGET) :
    tokens (dropLow chunks) ≤ SNAPSHOT_TOKEN_BUDGET := by
  have hrest := (@FirstFit.total_keep_le_iff _ ContextChunk.tokenCount (droppable chunks).reverse
    ((SNAPSHOT_TOKEN_BUDGET : Int) - tokens (mustKeep chunks))).2 (by omega)
  unfold dropLow keepFitting
  have htotal : tokens (mustKeep chunks ++ FirstFit.keep ContextChunk.tokenCount
        ((SNAPSHOT_TOKEN_BUDGET : Int) - tokens (mustKeep chunks)) (droppable chunks).reverse)
      = tokens (mustKeep chunks) + FirstFit.total ContextChunk.tokenCount
          (FirstFit.keep ContextChunk.tokenCount
            ((SNAPSHOT_TOKEN_BUDGET : Int) - tokens (mustKeep chunks)) (droppable chunks).reverse) :=
    FirstFit.total_append _ _
  rw [htotal]
  omega

theorem dropLow_of_gt
    (h : SNAPSHOT_TOKEN_BUDGET < tokens (mustKeep chunks)) : dropLow chunks = mustKeep chunks := by
  unfold dropLow keepFitting
  rw [(FirstFit.keep_eq_nil_iff _ _).2, List.append_nil]
  intro c _
  omega

theorem tokens_mustKeep_le (chunks : List ContextChunk) :
    tokens (mustKeep chunks) ≤ tokens chunks := by
  have hperm : tokens (mustKeep chunks ++ (droppable chunks).reverse) = tokens chunks :=
    FirstFit.total_perm (mustKeep_append_perm chunks)
  have htotal : tokens (mustKeep chunks ++ (droppable chunks).reverse)
      = tokens (mustKeep chunks) + tokens (droppable chunks).reverse := FirstFit.total_append _ _
  omega

-- ===== the outcomes

theorem trim_of_fits (h : tokens chunks ≤ SNAPSHOT_TOKEN_BUDGET) :
    trimRepositorySnapshot chunks = chunks := if_pos h

theorem trim_of_mustKeep_le (h : ¬ tokens chunks ≤ SNAPSHOT_TOKEN_BUDGET)
    (hkeep : tokens (mustKeep chunks) ≤ SNAPSHOT_TOKEN_BUDGET) :
    trimRepositorySnapshot chunks = dropLow chunks := by
  rw [trimRepositorySnapshot, if_neg h, if_pos (tokens_dropLow_le hkeep)]

theorem trim_of_mustKeep_gt (h : SNAPSHOT_TOKEN_BUDGET < tokens (mustKeep chunks)) :
    trimRepositorySnapshot chunks
      = layOut ((SNAPSHOT_TOKEN_BUDGET * CHARS_PER_TOKEN : Nat) : Int)
          (byPriority (mustKeep chunks)) := by
  have hall := tokens_mustKeep_le chunks
  rw [trimRepositorySnapshot, if_neg (by omega), dropLow_of_gt h, if_neg (by omega)]
  rfl

-- ===== laying out

theorem layOut_of_nonpos {room : Int} (h : room ≤ 0) (chunks : List ContextChunk) :
    layOut room chunks = [] := by
  cases chunks with
  | nil => rfl
  | cons c cs => rw [layOut, if_pos h]

theorem cutFrom_self (chunk : ContextChunk) : CutFrom chunk chunk := .inl rfl

theorem cutFrom_truncateTo (chunk : ContextChunk) (available : Nat) :
    CutFrom chunk (chunk.truncateTo available) := .inr ⟨_, rfl⟩

theorem layOut_parts : ∀ (chunks : List ContextChunk) (room : Int),
    ∃ front back, chunks = front ++ back ∧ List.Forall₂ CutFrom front (layOut room chunks) := by
  intro chunks
  induction chunks with
  | nil => exact fun _ => ⟨[], [], rfl, .nil⟩
  | cons c cs ih =>
      intro room
      unfold layOut
      split
      next => exact ⟨[], c :: cs, rfl, .nil⟩
      next =>
        split
        next =>
          obtain ⟨front, back, heq, hparts⟩ := ih (room - c.content.length)
          exact ⟨c :: front, back, by rw [heq, List.cons_append],
            .cons (cutFrom_self c) hparts⟩
        next =>
          obtain ⟨front, back, heq, hparts⟩ :=
            ih (room - (c.truncateTo room.toNat).content.length)
          exact ⟨c :: front, back, by rw [heq, List.cons_append],
            .cons (cutFrom_truncateTo c _) hparts⟩

theorem layOut_cons {room : Nat} (h : 0 < room) (c : ContextChunk) (cs : List ContextChunk) :
    layOut (room : Int) (c :: cs)
      = if c.content.length ≤ room then c :: layOut ((room - c.content.length : Nat) : Int) cs
        else c.truncateTo room
          :: layOut ((room : Int) - (truncated c.content room).length) cs := by
  rw [layOut, if_neg (by omega)]
  by_cases hfits : c.content.length ≤ room
  · rw [if_pos (by omega), if_pos hfits]
    congr 2
    omega
  · rw [if_neg (by omega), if_neg hfits]
    rfl

/-- Laying out overruns the room exactly where there is an overhang. -/
theorem overhangs_iff : ∀ (chunks : List ContextChunk) (room lost : Nat),
    (∀ c ∈ chunks, c.tokenCount = c.content.length / CHARS_PER_TOKEN) → 0 < room →
    (Overhangs room lost (chunks.map ContextChunk.content)
      ↔ room + lost + CHARS_PER_TOKEN ≤ CHARS_PER_TOKEN * tokens (layOut (room : Int) chunks)) := by
  intro chunks
  induction chunks with
  | nil =>
      intro room lost _ hroom
      refine iff_of_false id fun h => ?_
      simp [layOut, tokens] at h
      omega
  | cons c cs ih =>
      intro room lost hcount hroom
      have hc := hcount c (List.mem_cons_self ..)
      have ih' := fun room lost => ih room lost fun d hd => hcount d (List.mem_cons_of_mem c hd)
      have hfour : CHARS_PER_TOKEN = 4 := rfl
      rw [List.map_cons, Overhangs, layOut_cons hroom]
      by_cases hless : c.content.length < room
      · rw [if_pos hless, if_pos (Nat.le_of_lt hless), ih' _ _ (by omega)]
        unfold tokens
        rw [FirstFit.total_cons, hc, hfour]
        omega
      · rw [if_neg hless]
        by_cases heq : c.content.length = room
        · rw [if_pos heq, if_pos (Nat.le_of_eq heq), layOut_of_nonpos (by omega)]
          refine iff_of_false id fun h => ?_
          unfold tokens at h
          rw [FirstFit.total_cons, FirstFit.total_nil, hc, hfour] at h
          omega
        · have hlong : ¬ c.content.length ≤ room := by omega
          have hcut : (c.truncateTo room).tokenCount
              = (truncated c.content room).length / CHARS_PER_TOKEN := rfl
          rw [if_neg heq, if_neg hlong]
          generalize (truncated c.content room).length = n at hcut ⊢
          by_cases hroom' : n < room
          · have hrest : (room : Int) - n = ((room - n : Nat) : Int) := by omega
            rw [if_pos hroom', ih' _ _ (by omega), hrest]
            unfold tokens
            rw [FirstFit.total_cons, hcut, hfour]
            omega
          · rw [if_neg hroom', layOut_of_nonpos (by omega)]
            unfold tokens
            rw [FirstFit.total_cons, FirstFit.total_nil, hcut, hfour]
            omega

-- ===== the theorem

theorem forall₂_cutFrom_self (chunks : List ContextChunk) : List.Forall₂ CutFrom chunks chunks :=
  List.forall₂_same.2 fun c _ => cutFrom_self c

theorem snapshotKept_of_fits (h : tokens chunks ≤ SNAPSHOT_TOKEN_BUDGET) : SnapshotKept chunks where
  within := by rwa [trim_of_fits h]
  parts := ⟨chunks, [], by rw [List.append_nil], by
    rw [trim_of_fits h]
    exact forall₂_cutFrom_self chunks, fun d hd => by cases hd⟩
  whole := fun _ => trim_of_fits h

theorem snapshotKept_of_mustKeep_le (h : ¬ tokens chunks ≤ SNAPSHOT_TOKEN_BUDGET)
    (hkeep : tokens (mustKeep chunks) ≤ SNAPSHOT_TOKEN_BUDGET) : SnapshotKept chunks where
  within := by
    rw [trim_of_mustKeep_le h hkeep]
    exact tokens_dropLow_le hkeep
  parts := by
    rw [trim_of_mustKeep_le h hkeep]
    refine ⟨dropLow chunks, FirstFit.skip ContextChunk.tokenCount
      ((SNAPSHOT_TOKEN_BUDGET : Int) - tokens (mustKeep chunks)) (droppable chunks).reverse,
      ?_, forall₂_cutFrom_self _, fun d hd hhigh => ?_⟩
    · unfold dropLow keepFitting
      rw [List.append_assoc]
      exact (List.Perm.append_left _ (FirstFit.keep_skip_perm _ _)).trans
        (mustKeep_append_perm chunks)
    · have hmem := (@FirstFit.keep_skip_perm _ ContextChunk.tokenCount (droppable chunks).reverse
        ((SNAPSHOT_TOKEN_BUDGET : Int) - tokens (mustKeep chunks))).subset
          (List.mem_append_right _ hd)
      exact absurd hhigh (not_le.2 (priority_of_mem_droppable (List.mem_reverse.1 hmem)))
  whole := fun hfits => absurd hfits h

theorem parts_of_mustKeep_gt (h : SNAPSHOT_TOKEN_BUDGET < tokens (mustKeep chunks)) :
    ∃ sources dropped, (sources ++ dropped).Perm chunks
      ∧ List.Forall₂ CutFrom sources (trimRepositorySnapshot chunks)
      ∧ ∀ d ∈ dropped, MUST_KEEP_PRIORITY ≤ d.priority →
          ∀ k ∈ sources, d.priority ≤ k.priority := by
  obtain ⟨front, back, heq, hparts⟩ := layOut_parts (byPriority (mustKeep chunks))
    ((SNAPSHOT_TOKEN_BUDGET * CHARS_PER_TOKEN : Nat) : Int)
  refine ⟨front, back ++ (droppable chunks).reverse, ?_, by rwa [trim_of_mustKeep_gt h],
    fun d hd hhigh k hk => ?_⟩
  · rw [← List.append_assoc, ← heq]
    exact (List.Perm.append_right _ (byPriority_perm _)).trans (mustKeep_append_perm chunks)
  · rcases List.mem_append.1 hd with hd | hd
    · have hsorted := byPriority_sorted (mustKeep chunks)
      rw [heq] at hsorted
      exact (List.pairwise_append.1 hsorted).2.2 k hk d hd
    · exact absurd hhigh (not_le.2 (priority_of_mem_droppable (List.mem_reverse.1 hd)))

/-- A chunk of `n` characters without a line break. -/
def unbroken (n : Nat) (priority : Rat) (h : 0 < n) : ContextChunk where
  kind := .repositorySnapshot
  content := List.replicate n (some 'x')
  tokenCount := n / CHARS_PER_TOKEN
  priority := priority
  content_ok := by
    intro heq
    rw [List.replicate_eq_nil_iff] at heq
    omega
  trust_ok := trust_one

theorem rfindNewline_replicate (n : Nat) : rfindNewline (List.replicate n (some 'x')) = none := by
  induction n with
  | zero => rfl
  | succ n ih =>
      rw [List.replicate_succ, rfindNewline, ih]
      rfl

/-- More than 8003 characters on one line are cut at the eight thousandth,
and with the notice they are 2011 tokens. -/
theorem tokens_trim_unbroken {n : Nat} (hn : 8003 < n) :
    tokens (trimRepositorySnapshot [unbroken n 1 (by omega)]) = 2011 := by
  have hkeep : mustKeep [unbroken n 1 (by omega)] = [unbroken n 1 (by omega)] :=
    List.filter_eq_self.2 fun c hc => by
      rw [List.mem_singleton.1 hc]
      exact decide_eq_true (by norm_num [MUST_KEEP_PRIORITY, unbroken])
  have htokens : tokens [unbroken n 1 (by omega)] = n / 4 := rfl
  have htrim := @trim_of_mustKeep_gt [unbroken n 1 (by omega)] (by
    rw [hkeep, htokens, SNAPSHOT_TOKEN_BUDGET]
    omega)
  have hlength : (unbroken n 1 (by omega)).content.length = n := List.length_replicate
  have hcut : cutoff (unbroken n 1 (by omega)).content 8000 = 8000 := by
    rw [cutoff, unbroken, List.take_replicate, rfindNewline_replicate]
  have hnotice : TRUNCATION_NOTICE.length = 47 := by decide
  have htruncated : (truncated (unbroken n 1 (by omega)).content 8000).length = 8047 := by
    rw [truncated, hcut, List.length_append, List.length_take, hlength, hnotice]
    omega
  have hroom : SNAPSHOT_TOKEN_BUDGET * CHARS_PER_TOKEN = 8000 := rfl
  have hcount : ((unbroken n 1 (by omega)).truncateTo 8000).tokenCount
      = (truncated (unbroken n 1 (by omega)).content 8000).length / CHARS_PER_TOKEN := rfl
  rw [htrim, hkeep, byPriority, List.mergeSort_singleton, hroom, layOut_cons (by decide),
    if_neg (by omega), htruncated, layOut_of_nonpos (by decide)]
  unfold tokens
  rw [FirstFit.total_cons, FirstFit.total_nil, hcount, htruncated]
  rfl

theorem tokenCount_unbroken {n : Nat} (hn : 0 < n) (priority : Rat) :
    (unbroken n priority hn).tokenCount
      = (unbroken n priority hn).content.length / CHARS_PER_TOKEN := by
  rw [unbroken, List.length_replicate]

end Velune.Context
