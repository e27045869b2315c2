/-
What trimming drops (`trimming_iff`).

Both trimmings are first fits, over the turns from the newest to the oldest
and over the chunks from the most trusted down. Up to the first item that
does not fit they keep all; behind it they keep whatever is small enough.
So the order of removal is the documented one exactly when nothing there is.
-/
import Mathlib.Data.List.Sort
import Velune.Context.Assembler

namespace Velune.Context

open Lib

-- ===== the claims

structure TrimsOldest (chunks : List ContextChunk) (allocation : Int) : Prop where
  suffix : (trimWorkingMemory chunks allocation).1 <:+ chunks
  part : (trimWorkingMemory chunks allocation).1.Subperm chunks
  within : (tokens (trimWorkingMemory chunks allocation).1 : Int) ≤ allocation
  whole : (tokens chunks : Int) ≤ allocation → (trimWorkingMemory chunks allocation).1 = chunks
  report : (trimWorkingMemory chunks allocation).2
    = tokens chunks - tokens (trimWorkingMemory chunks allocation).1

/-- No chunk is kept that is trusted less than one that is dropped. -/
structure TrimsLowest (chunks : List ContextChunk) (allocation : Int) : Prop where
  ordered : ∃ dropped, ((trimRetrievedContext chunks allocation).1 ++ dropped).Perm chunks
    ∧ ∀ k ∈ (trimRetrievedContext chunks allocation).1, ∀ d ∈ dropped, d.trustScore ≤ k.trustScore
  part : (trimRetrievedContext chunks allocation).1.Subperm chunks
  within : (tokens (trimRetrievedContext chunks allocation).1 : Int) ≤ allocation
  whole : (tokens chunks : Int) ≤ allocation → (trimRetrievedContext chunks allocation).1 = chunks
  report : (trimRetrievedContext chunks allocation).2
    = tokens chunks - tokens (trimRetrievedContext chunks allocation).1

/-- Everything fits, or each turn older than the newest one that does not is
larger than the room it found. -/
def OlderTooLarge (chunks : List ContextChunk) (allocation : Int) : Prop :=
  (tokens chunks : Int) ≤ allocation ∨
    ∃ older chunk newer, chunks = older ++ chunk :: newer
      ∧ (tokens newer : Int) ≤ allocation ∧ allocation < tokens newer + chunk.tokenCount
      ∧ ∀ o ∈ older, allocation < tokens newer + o.tokenCount

/-- Everything fits, or each chunk trusted less than the most trusted one
that does not is larger than the room left by those that are trusted alike. -/
def LowerTooLarge (chunks : List ContextChunk) (allocation : Int) : Prop :=
  (tokens chunks : Int) ≤ allocation ∨
    ∃ front chunk back, byTrust chunks = front ++ chunk :: back
      ∧ (tokens front : Int) ≤ allocation ∧ allocation < tokens front + chunk.tokenCount
      ∧ ∀ c ∈ back, c.trustScore < chunk.trustScore →
          FirstFit.left ContextChunk.tokenCount (allocation - tokens front)
            (back.filter fun b => decide (b.trustScore = chunk.trustScore)) < c.tokenCount

-- ===== working memory

variable {chunks : List ContextChunk} {allocation : Int}

theorem trimWorkingMemory_of_fits
    (h : (tokens chunks : Int) ≤ allocation) : trimWorkingMemory chunks allocation = (chunks, 0) :=
  if_pos h

theorem trimWorkingMemory_of_not (h : ¬ (tokens chunks : Int) ≤ allocation) :
    trimWorkingMemory chunks allocation
      = ((keepFitting allocation chunks.reverse).reverse,
          (tokens chunks : Int) - tokens (keepFitting allocation chunks.reverse).reverse) :=
  if_neg h

theorem tokens_reverse (chunks : List ContextChunk) : tokens chunks.reverse = tokens chunks :=
  FirstFit.total_reverse chunks

theorem tokens_nonneg_of_le (h : (tokens chunks : Int) ≤ allocation) : 0 ≤ allocation := by
  omega

theorem trimsOldest_iff (chunks : List ContextChunk) (allocation : Int) :
    TrimsOldest chunks allocation ↔ OlderTooLarge chunks allocation := by
  by_cases hfits : (tokens chunks : Int) ≤ allocation
  · refine iff_of_true ?_ (.inl hfits)
    have heq := trimWorkingMemory_of_fits hfits
    constructor
    · exact heq ▸ List.suffix_rfl
    · rw [heq]
    · rwa [heq]
    · rw [heq]
      exact fun _ => rfl
    · rw [heq]
      exact (Int.sub_self _).symm
  · have heq := trimWorkingMemory_of_not hfits
    constructor
    · intro h
      have hwithin := h.within
      have hsuffix := h.suffix
      rw [heq] at hwithin hsuffix
      rw [tokens_reverse] at hwithin
      have hroom := (FirstFit.total_keep_le_iff _ _).1 hwithin
      have hover : allocation < (FirstFit.total ContextChunk.tokenCount chunks.reverse : Int) := by
        rw [FirstFit.total_reverse]
        exact not_le.1 hfits
      obtain ⟨front, chunk, back, hsplit, hfront, hchunk⟩ := FirstFit.exists_first hroom hover
      have hstart : keepFitting allocation chunks.reverse <+: chunks.reverse := by
        rw [← List.reverse_suffix, List.reverse_reverse]
        exact hsuffix
      unfold keepFitting at hstart
      rw [hsplit, FirstFit.keep_prefix_iff hfront hchunk] at hstart
      refine .inr ⟨back.reverse, chunk, front.reverse, ?_, ?_, ?_, fun o ho => ?_⟩
      · rw [← List.reverse_reverse chunks, hsplit]
        simp
      · rwa [tokens_reverse]
      · rwa [tokens_reverse]
      · rw [tokens_reverse]
        exact hstart o (List.mem_reverse.1 ho)
    · intro h
      obtain ⟨older, chunk, newer, rfl, hnewer, hchunk, holder⟩ := h.resolve_left hfits
      have hroom : 0 ≤ allocation := tokens_nonneg_of_le hnewer
      have hfront : (FirstFit.total ContextChunk.tokenCount newer.reverse : Int) ≤ allocation := by
        rwa [FirstFit.total_reverse]
      have hstart : keepFitting allocation (older ++ chunk :: newer).reverse
          <+: (older ++ chunk :: newer).reverse := by
        unfold keepFitting
        rw [show (older ++ chunk :: newer).reverse = newer.reverse ++ chunk :: older.reverse by simp,
          FirstFit.keep_prefix_iff hfront (by rwa [FirstFit.total_reverse])]
        intro o ho
        rw [FirstFit.total_reverse]
        exact holder o (List.mem_reverse.1 ho)
      have hsuffix : (keepFitting allocation (older ++ chunk :: newer).reverse).reverse
          <:+ older ++ chunk :: newer := by
        rw [← List.reverse_prefix, List.reverse_reverse]
        exact hstart
      constructor
      · rw [heq]
        exact hsuffix
      · rw [heq]
        exact hsuffix.sublist.subperm
      · rw [heq, tokens_reverse]
        exact (FirstFit.total_keep_le_iff _ _).2 hroom
      · exact fun hle => absurd hle hfits
      · rw [heq]

-- ===== retrieved context

theorem byTrust_perm (chunks : List ContextChunk) : (byTrust chunks).Perm chunks :=
  List.mergeSort_perm _ _

theorem byTrust_sorted (chunks : List ContextChunk) :
    (byTrust chunks).Pairwise fun a b => b.trustScore ≤ a.trustScore := by
  have hsorted := @List.pairwise_mergeSort ContextChunk
    (fun a b => decide (b.trustScore ≤ a.trustScore))
    (fun a b c hab hbc => by
      simp only [decide_eq_true_eq] at hab hbc ⊢
      exact hbc.trans hab)
    (fun a b => by
      simp only [Bool.or_eq_true, decide_eq_true_eq]
      exact le_total _ _) chunks
  exact hsorted.imp fun h => of_decide_eq_true h

theorem level_append {level : Rat} : ∀ {chunks : List ContextChunk},
    chunks.Pairwise (fun a b => b.trustScore ≤ a.trustScore) →
    (∀ c ∈ chunks, c.trustScore ≤ level) →
    chunks = chunks.filter (fun c => decide (c.trustScore = level))
      ++ chunks.filter (fun c => decide (c.trustScore < level)) := by
  intro chunks
  induction chunks with
  | nil => exact fun _ _ => rfl
  | cons c chunks ih =>
      intro hsorted hle
      rw [List.pairwise_cons] at hsorted
      have hc := hle c (List.mem_cons_self ..)
      rcases eq_or_lt_of_le hc with heq | hlt
      · have hrest := ih hsorted.2 fun c' hc' => hle c' (List.mem_cons_of_mem c hc')
        rw [List.filter_cons_of_pos (by simpa using heq), List.filter_cons_of_neg (by simp [heq]),
          List.cons_append, ← hrest]
      · have hbelow : ∀ c' ∈ c :: chunks, c'.trustScore < level := by
          intro c' hc'
          rcases List.mem_cons.1 hc' with rfl | hc'
          · exact hlt
          · exact (hsorted.1 c' hc').trans_lt hlt
        have hnone : (c :: chunks).filter (fun c => decide (c.trustScore = level)) = [] := by
          rw [List.filter_eq_nil_iff]
          intro c' hc'
          simpa using (hbelow c' hc').ne
        have hall : (c :: chunks).filter (fun c => decide (c.trustScore < level)) = c :: chunks := by
          rw [List.filter_eq_self]
          intro c' hc'
          simpa using hbelow c' hc'
        rw [hnone, hall, List.nil_append]

theorem trimRetrievedContext_of_fits (h : (tokens chunks : Int) ≤ allocation) :
    trimRetrievedContext chunks allocation = (chunks, 0) := if_pos h

theorem trimRetrievedContext_of_not (h : ¬ (tokens chunks : Int) ≤ allocation) :
    trimRetrievedContext chunks allocation
      = (keepFitting allocation (byTrust chunks),
          (tokens chunks : Int) - tokens (keepFitting allocation (byTrust chunks))) := if_neg h

/-- What is kept and dropped, around the most trusted chunk that does not
fit. -/
theorem keepFitting_levels {chunks front back : List ContextChunk} {chunk : ContextChunk}
    (hsplit : byTrust chunks = front ++ chunk :: back) (hfront : (tokens front : Int) ≤ allocation)
    (hchunk : allocation < tokens front + chunk.tokenCount) :
    keepFitting allocation (byTrust chunks)
        = front ++ (keepFitting (allocation - tokens front)
              (back.filter fun b => decide (b.trustScore = chunk.trustScore))
            ++ keepFitting (FirstFit.left ContextChunk.tokenCount (allocation - tokens front)
                (back.filter fun b => decide (b.trustScore = chunk.trustScore)))
              (back.filter fun b => decide (b.trustScore < chunk.trustScore)))
      ∧ ∃ dropped, (keepFitting allocation (byTrust chunks) ++ dropped).Perm chunks
        ∧ chunk ∈ dropped ∧ ∀ d ∈ dropped, d.trustScore ≤ chunk.trustScore := by
  have hsorted := byTrust_sorted chunks
  rw [hsplit, List.pairwise_append, List.pairwise_cons] at hsorted
  obtain ⟨-, ⟨hbelow, hback⟩, -⟩ := hsorted
  obtain ⟨hkeep, hskip⟩ := FirstFit.keep_at_first hfront hchunk
  refine ⟨?_, FirstFit.skip ContextChunk.tokenCount allocation (byTrust chunks), ?_, ?_, ?_⟩
  · unfold keepFitting
    rw [hsplit, hkeep, ← FirstFit.keep_append, ← level_append hback hbelow]
    rfl
  · exact (FirstFit.keep_skip_perm _ _).trans (byTrust_perm chunks)
  · rw [hsplit, hskip]
    exact List.mem_cons_self ..
  · intro d hd
    rw [hsplit, hskip] at hd
    rcases List.mem_cons.1 hd with rfl | hd
    · exact le_refl _
    · have hperm := @FirstFit.keep_skip_perm _ ContextChunk.tokenCount back
        (allocation - tokens front)
      exact hbelow d (hperm.subset (List.mem_append_right _ hd))

theorem trimsLowest_iff (chunks : List ContextChunk) (allocation : Int) :
    TrimsLowest chunks allocation ↔ LowerTooLarge chunks allocation := by
  by_cases hfits : (tokens chunks : Int) ≤ allocation
  · refine iff_of_true ?_ (.inl hfits)
    have heq := trimRetrievedContext_of_fits hfits
    constructor
    · rw [heq]
      exact ⟨[], by rw [List.append_nil], fun k _ d hd => by cases hd⟩
    · rw [heq]
    · rwa [heq]
    · rw [heq]
      exact fun _ => rfl
    · rw [heq]
      exact (Int.sub_self _).symm
  · have heq := trimRetrievedContext_of_not hfits
    have htotal : tokens (byTrust chunks) = tokens chunks := FirstFit.total_perm (byTrust_perm chunks)
    constructor
    · intro h
      have hwithin := h.within
      obtain ⟨dropped, hperm, hordered⟩ := h.ordered
      rw [heq] at hwithin hperm hordered
      have hroom := (FirstFit.total_keep_le_iff _ _).1 hwithin
      obtain ⟨front, chunk, back, hsplit, hfront, hchunk⟩ :=
        @FirstFit.exists_first _ _ (byTrust chunks) _ hroom (by
          rw [← not_le]
          intro hle
          exact hfits (htotal ▸ hle))
      obtain ⟨hlevels, dropped', hperm', hmem, -⟩ := keepFitting_levels hsplit hfront hchunk
      have hsame : dropped'.Perm dropped :=
        (List.perm_append_left_iff _).1 (hperm'.trans hperm.symm)
      refine .inr ⟨front, chunk, back, hsplit, hfront, hchunk, fun c hc hlow => ?_⟩
      have hnone : keepFitting (FirstFit.left ContextChunk.tokenCount (allocation - tokens front)
          (back.filter fun b => decide (b.trustScore = chunk.trustScore)))
          (back.filter fun b => decide (b.trustScore < chunk.trustScore)) = [] := by
        rw [List.eq_nil_iff_forall_not_mem]
        intro k hk
        have hkept : k ∈ keepFitting allocation (byTrust chunks) := by
          rw [hlevels]
          exact List.mem_append_right _ (List.mem_append_right _ hk)
        have hle := hordered k hkept chunk (hsame.subset hmem)
        have hlt := (FirstFit.keep_sublist _ _).subset hk
        rw [List.mem_filter] at hlt
        exact absurd (of_decide_eq_true hlt.2) (not_lt.2 hle)
      exact (FirstFit.keep_eq_nil_iff _ _).1 hnone c
        (List.mem_filter.2 ⟨hc, decide_eq_true hlow⟩)
    · intro h
      obtain ⟨front, chunk, back, hsplit, hfront, hchunk, hlow⟩ := h.resolve_left hfits
      obtain ⟨hlevels, dropped, hperm, -, hdropped⟩ := keepFitting_levels hsplit hfront hchunk
      have hnone : keepFitting (FirstFit.left ContextChunk.tokenCount (allocation - tokens front)
          (back.filter fun b => decide (b.trustScore = chunk.trustScore)))
          (back.filter fun b => decide (b.trustScore < chunk.trustScore)) = [] := by
        refine (FirstFit.keep_eq_nil_iff _ _).2 fun c hc => ?_
        rw [List.mem_filter] at hc
        exact hlow c hc.1 (of_decide_eq_true hc.2)
      have hsorted := byTrust_sorted chunks
      rw [hsplit, List.pairwise_append] at hsorted
      constructor
      · rw [heq]
        refine ⟨dropped, hperm, fun k hk d hd => (hdropped d hd).trans ?_⟩
        have hk : k ∈ keepFitting allocation (byTrust chunks) := hk
        rw [hlevels, hnone, List.append_nil, List.mem_append] at hk
        rcases hk with hk | hk
        · exact hsorted.2.2 k hk chunk (List.mem_cons_self ..)
        · have hk' := (FirstFit.keep_sublist _ _).subset hk
          rw [List.mem_filter] at hk'
          exact (of_decide_eq_true hk'.2).ge
      · rw [heq]
        exact (FirstFit.keep_sublist _ _).subperm.trans (byTrust_perm chunks).subperm
      · rw [heq]
        exact (FirstFit.total_keep_le_iff _ _).2 (tokens_nonneg_of_le hfront)
      · exact fun hle => absurd hle hfits
      · rw [heq]

-- ===== the theorem

/-- What trimming drops. -/
theorem trimming_iff (chunks : List ContextChunk) (allocation : Int) :
    (TrimsOldest chunks allocation ↔ OlderTooLarge chunks allocation)
      ∧ (TrimsLowest chunks allocation ↔ LowerTooLarge chunks allocation) :=
  ⟨trimsOldest_iff chunks allocation, trimsLowest_iff chunks allocation⟩

theorem mark_ne_nil : ([some 'x'] : RawStr) ≠ [] := List.cons_ne_nil _ _

theorem trust_one : (0 : Rat) ≤ 1 ∧ (1 : Rat) ≤ 1 := by norm_num

theorem trust_half : (0 : Rat) ≤ 1 / 2 ∧ (1 / 2 : Rat) ≤ 1 := by norm_num

def sized (n : Nat) (trust : Rat) (h : 0 ≤ trust ∧ trust ≤ 1) : ContextChunk where
  kind := .workingMemory
  content := [some 'x']
  tokenCount := n
  trustScore := trust
  content_ok := mark_ne_nil
  trust_ok := h

/-- A short old turn before a long new one, and a short chunk of little trust
beside a long one of much: in room for five tokens the short ones stay. -/
theorem not_trims_short :
    ¬ TrimsOldest [sized 1 1 trust_one, sized 9 1 trust_one] 5
      ∧ ¬ TrimsLowest [sized 9 1 trust_one, sized 1 (1 / 2) trust_half] 5 := by
  constructor
  · intro h
    have hsuffix : [sized 1 1 trust_one] <:+ [sized 1 1 trust_one, sized 9 1 trust_one] :=
      h.suffix
    rcases List.suffix_cons_iff.1 hsuffix with heq | hsuffix
    · cases heq
    · have hlast := List.mem_singleton.1 (hsuffix.subset (List.mem_cons_self ..))
      exact absurd (congrArg ContextChunk.tokenCount hlast) (by decide)
  · intro h
    have hsorted : byTrust [sized 9 1 trust_one, sized 1 (1 / 2) trust_half]
        = [sized 9 1 trust_one, sized 1 (1 / 2) trust_half] := by
      refine List.mergeSort_of_pairwise (List.pairwise_cons.2 ⟨fun c hc => ?_, List.pairwise_singleton _ _⟩)
      rw [List.mem_singleton.1 hc]
      exact decide_eq_true (by norm_num [sized])
    obtain ⟨dropped, hperm, hordered⟩ := h.ordered
    have hkept : (trimRetrievedContext [sized 9 1 trust_one, sized 1 (1 / 2) trust_half] 5).1
        = [sized 1 (1 / 2) trust_half] := by
      rw [trimRetrievedContext_of_not (by decide), hsorted]
      rfl
    rw [hkept] at hperm hordered
    have hmem : sized 9 1 trust_one ∈ [sized 1 (1 / 2) trust_half] ++ dropped :=
      hperm.symm.subset (List.mem_cons_self ..)
    rcases List.mem_append.1 hmem with hmem | hmem
    · exact absurd (congrArg ContextChunk.tokenCount (List.mem_singleton.1 hmem)) (by decide)
    · exact absurd (hordered _ (List.mem_cons_self ..) _ hmem) (by norm_num [sized])

end Velune.Context
