/-
What the assembly report says of the assembled context (`described`).

A section is one of seven, each rendered from what is kept of it; the report
counts the chunks after the emergency drop but the tokens before it. What
the emergency drop leaves is what it never touches, so that this fits is all
that a fitting context needs (`tokensOf_rendered_le`).
-/
import Velune.Context.Proofs.Trimming

namespace Velune.Context

open Lib

-- ===== the context

def tokensOf (count : Option (RawStr → Nat))
    (sections : List (ContextSection × List ContextChunk)) : Nat :=
  match count with
  | some count => count (renderContext sections)
  | none => tokens (chunksOf sections)

section

variable (count : Option (RawStr → Nat)) (budget : ContextBudget) (chunks : List ContextChunk)

def rendered : List (ContextSection × List ContextChunk) :=
  if budget.usableTokens < tokensOf count (keptSections budget chunks) then
    withoutRetrieved (keptSections budget chunks)
  else keptSections budget chunks

def report : ContextAssemblyReport := (assemble count budget chunks).2

def othersTokens : Nat :=
  tokens (ofSection .systemPrompt chunks) + tokens (ofSection .cognitiveContinuity chunks)
    + tokens (ofSection .architecturalDrift chunks)
    + tokens (trimRepositorySnapshot (ofSection .repositorySnapshot chunks))
    + tokens (trimWorkingMemory (ofSection .workingMemory chunks) budget.workingMemoryAllocation).1
    + tokens (ofSection .currentPrompt chunks)

/-- What a report says of its context, and what the context holds. -/
structure Described : Prop where
  text : (assemble count budget chunks).1 = renderContext (rendered count budget chunks)
  received : (report count budget chunks).totalChunksReceived = chunks.length
  counted : ((report count budget chunks).totalChunksReceived : Int)
    = (chunksOf (rendered count budget chunks)).length + (report count budget chunks).chunksDropped
      + (report count budget chunks).duplicatesDropped
  measured : chunks ≠ [] ∨ tokensOf count [] = 0 →
    rendered count budget chunks = keptSections budget chunks →
    (report count budget chunks).totalTokensAssembled = tokensOf count (rendered count budget chunks)
  whole : ∀ kind ∈ [ContextSection.systemPrompt, .architecturalDrift, .currentPrompt],
    ofSection kind chunks ≠ [] → (kind, ofSection kind chunks) ∈ rendered count budget chunks
  ordered : ((rendered count budget chunks).map Prod.fst).Sublist ContextSection.canonical
  fits : count = none → (othersTokens budget chunks : Int) ≤ budget.usableTokens →
    (tokens (chunksOf (rendered count budget chunks)) : Int) ≤ budget.usableTokens
  fits_counted : ∀ f, count = some f →
    (f (renderContext (withoutRetrieved (keptSections budget chunks))) : Int) ≤ budget.usableTokens →
    (f (assemble count budget chunks).1 : Int) ≤ budget.usableTokens

/-- The same without exception, and the context fitting as soon as the
untrimmable sections, the snapshot and the turns kept do. -/
structure DescribedAlways : Prop where
  measured : (report count budget chunks).totalTokensAssembled
    = tokensOf count (rendered count budget chunks)
  fits : ((tokens (ofSection .systemPrompt chunks) + tokens (ofSection .architecturalDrift chunks)
      + tokens (trimRepositorySnapshot (ofSection .repositorySnapshot chunks))
      + tokens (trimWorkingMemory (ofSection .workingMemory chunks)
          budget.workingMemoryAllocation).1
      + tokens (ofSection .currentPrompt chunks) : Nat) : Int) ≤ budget.usableTokens →
    (tokensOf count (rendered count budget chunks) : Int) ≤ budget.usableTokens

end

variable {count : Option (RawStr → Nat)} {budget : ContextBudget} {chunks : List ContextChunk}

-- ===== the sections

def keptSection (budget : ContextBudget) (chunks : List ContextChunk) (kind : ContextSection) :
    Option (ContextSection × List ContextChunk) :=
  match (processSection budget kind (ofSection kind chunks)).1 with
  | [] => none
  | kept => some (kind, kept)

theorem keptSections_eq (budget : ContextBudget) (chunks : List ContextChunk) :
    keptSections budget chunks = ContextSection.canonical.filterMap (keptSection budget chunks) :=
  rfl

theorem keptSection_eq_some {kind : ContextSection} {s : ContextSection × List ContextChunk} :
    keptSection budget chunks kind = some s ↔
      (processSection budget kind (ofSection kind chunks)).1 ≠ []
        ∧ s = (kind, (processSection budget kind (ofSection kind chunks)).1) := by
  unfold keptSection
  cases (processSection budget kind (ofSection kind chunks)).1 with
  | nil => simp
  | cons c cs => simp [eq_comm]

theorem map_fst_sections (kinds : List ContextSection) :
    ((kinds.filterMap (keptSection budget chunks)).map Prod.fst).Sublist kinds := by
  induction kinds with
  | nil => exact List.Sublist.refl _
  | cons kind kinds ih =>
      cases hkept : keptSection budget chunks kind with
      | none =>
          rw [List.filterMap_cons_none hkept]
          exact ih.cons kind
      | some s =>
          rw [List.filterMap_cons_some hkept, (keptSection_eq_some.1 hkept).2]
          exact ih.cons_cons kind

theorem tokens_sections (kinds : List ContextSection) :
    tokens (chunksOf (kinds.filterMap (keptSection budget chunks)))
      = FirstFit.total
          (fun kind => tokens (processSection budget kind (ofSection kind chunks)).1) kinds := by
  induction kinds with
  | nil => rfl
  | cons kind kinds ih =>
      rw [FirstFit.total_cons, ← ih]
      cases hkept : keptSection budget chunks kind with
      | none =>
          have hnil : (processSection budget kind (ofSection kind chunks)).1 = [] := by
            by_contra hne
            rw [keptSection_eq_some.2 ⟨hne, rfl⟩] at hkept
            cases hkept
          rw [List.filterMap_cons_none hkept, hnil]
          exact (Nat.zero_add _).symm
      | some s =>
          rw [List.filterMap_cons_some hkept, (keptSection_eq_some.1 hkept).2]
          exact FirstFit.total_append _ _

theorem withoutRetrieved_sections (kinds : List ContextSection) :
    withoutRetrieved (kinds.filterMap (keptSection budget chunks))
      = (kinds.filter fun kind => decide (kind ≠ .retrievedContext)).filterMap
          (keptSection budget chunks) := by
  induction kinds with
  | nil => rfl
  | cons kind kinds ih =>
      unfold withoutRetrieved at ih ⊢
      cases hkept : keptSection budget chunks kind with
      | none =>
          rw [List.filterMap_cons_none hkept, ih, List.filter_cons]
          split
          next => rw [List.filterMap_cons_none hkept]
          next => rfl
      | some s =>
          obtain ⟨-, rfl⟩ := keptSection_eq_some.1 hkept
          rw [List.filterMap_cons_some hkept, List.filter_cons, List.filter_cons, ih]
          split
          next => rw [List.filterMap_cons_some hkept]
          next => rfl

theorem tokens_withoutRetrieved (budget : ContextBudget) (chunks : List ContextChunk) :
    tokens (chunksOf (withoutRetrieved (keptSections budget chunks)))
      = othersTokens budget chunks := by
  have hkinds : (ContextSection.canonical.filter fun kind => decide (kind ≠ .retrievedContext))
      = [.systemPrompt, .cognitiveContinuity, .architecturalDrift, .repositorySnapshot,
          .workingMemory, .currentPrompt] := by decide
  rw [keptSections_eq, withoutRetrieved_sections, hkinds, tokens_sections]
  simp only [FirstFit.total_cons, FirstFit.total_nil, processSection, othersTokens]
  omega

theorem processSection_nil (budget : ContextBudget) (kind : ContextSection) :
    (processSection budget kind []).1 = [] := by
  have hretrieved : ∀ allocation, (trimRetrievedContext [] allocation).1 = [] := by
    intro allocation
    unfold trimRetrievedContext
    split
    next => rfl
    next =>
      rw [byTrust, List.mergeSort_nil]
      rfl
  have hturns : ∀ allocation, (trimWorkingMemory [] allocation).1 = [] := by
    intro allocation
    unfold trimWorkingMemory
    split
    next => rfl
    next => rfl
  cases kind with
  | retrievedContext => exact hretrieved _
  | workingMemory => exact hturns _
  | repositorySnapshot => rfl
  | systemPrompt => rfl
  | cognitiveContinuity => rfl
  | architecturalDrift => rfl
  | currentPrompt => rfl

theorem keptSections_nil (budget : ContextBudget) : keptSections budget [] = [] := by
  rw [keptSections_eq, List.filterMap_eq_nil_iff]
  intro kind _
  have hnil : ofSection kind [] = [] := rfl
  rw [keptSection, hnil, processSection_nil]

theorem rendered_nil (count : Option (RawStr → Nat)) (budget : ContextBudget) :
    rendered count budget [] = [] := by
  rw [rendered, keptSections_nil]
  split
  next => rfl
  next => rfl

-- ===== the report

theorem assemble_text (count : Option (RawStr → Nat)) (budget : ContextBudget)
    (chunks : List ContextChunk) :
    (assemble count budget chunks).1 = renderContext (rendered count budget chunks) := by
  by_cases h : chunks = []
  · rw [h, rendered_nil]
    rfl
  · rw [assemble, if_neg h, rendered]
    simp only [decide_eq_true_eq]
    cases count with
    | none => rfl
    | some f => rfl

theorem report_of_ne (h : chunks ≠ []) :
    (report count budget chunks).totalChunksReceived = chunks.length
      ∧ (report count budget chunks).totalTokensAssembled
          = tokensOf count (keptSections budget chunks)
      ∧ (report count budget chunks).duplicatesDropped = duplicatesIn budget chunks
      ∧ (report count budget chunks).chunksDropped = (chunks.length : Int)
          - (chunksOf (rendered count budget chunks)).length - duplicatesIn budget chunks := by
  have htext : (if decide (budget.usableTokens < tokensOf count (keptSections budget chunks)) then
      withoutRetrieved (keptSections budget chunks) else keptSections budget chunks)
      = rendered count budget chunks := by
    simp only [decide_eq_true_eq]
    rfl
  rw [← htext, report, assemble, if_neg h]
  cases count with
  | none => exact ⟨rfl, rfl, rfl, rfl⟩
  | some f => exact ⟨rfl, rfl, rfl, rfl⟩

theorem report_nil (count : Option (RawStr → Nat)) (budget : ContextBudget) :
    report count budget []
      = { totalChunksReceived := 0, totalTokensRequested := budget.usableTokens,
          totalTokensAssembled := 0 } := rfl

theorem counted (count : Option (RawStr → Nat)) (budget : ContextBudget)
    (chunks : List ContextChunk) :
    ((report count budget chunks).totalChunksReceived : Int)
      = (chunksOf (rendered count budget chunks)).length
        + (report count budget chunks).chunksDropped
        + (report count budget chunks).duplicatesDropped := by
  by_cases h : chunks = []
  · rw [h, report_nil, rendered_nil]
    rfl
  · obtain ⟨hreceived, -, hduplicates, hdropped⟩ := @report_of_ne count budget chunks h
    rw [hreceived, hduplicates, hdropped]
    omega

-- ===== fitting

/-- If what the emergency drop leaves fits, so does what is returned. -/
theorem tokensOf_rendered_le
    (h : (tokensOf count (withoutRetrieved (keptSections budget chunks)) : Int)
      ≤ budget.usableTokens) :
    (tokensOf count (rendered count budget chunks) : Int) ≤ budget.usableTokens := by
  unfold rendered
  split
  next => exact h
  next hnot => exact not_lt.1 hnot

theorem mem_rendered {kind : ContextSection} (hkind : kind ≠ .retrievedContext)
    {kept : List ContextChunk} (h : (kind, kept) ∈ keptSections budget chunks) :
    (kind, kept) ∈ rendered count budget chunks := by
  unfold rendered
  split
  next => exact List.mem_filter.2 ⟨h, decide_eq_true hkind⟩
  next => exact h

theorem mem_canonical (kind : ContextSection) : kind ∈ ContextSection.canonical := by
  cases kind <;> decide

theorem untrimmed_mem {kind : ContextSection}
    (hprocess : (processSection budget kind (ofSection kind chunks)).1 = ofSection kind chunks)
    (hkind : kind ≠ .retrievedContext) (hne : ofSection kind chunks ≠ []) :
    (kind, ofSection kind chunks) ∈ rendered count budget chunks := by
  refine mem_rendered hkind ?_
  rw [keptSections_eq, List.mem_filterMap]
  refine ⟨kind, mem_canonical kind, keptSection_eq_some.2 ⟨?_, ?_⟩⟩
  · rwa [hprocess]
  · rw [hprocess]

theorem rendered_ordered (count : Option (RawStr → Nat)) (budget : ContextBudget)
    (chunks : List ContextChunk) :
    ((rendered count budget chunks).map Prod.fst).Sublist ContextSection.canonical := by
  have hall := @map_fst_sections budget chunks ContextSection.canonical
  unfold rendered
  split
  next => exact (List.filter_sublist.map Prod.fst).trans hall
  next => exact hall

-- ===== the theorem

/-- The report describes the returned context, and its tokens where the
emergency drop removes nothing. -/
theorem described (count : Option (RawStr → Nat)) (budget : ContextBudget)
    (chunks : List ContextChunk) : Described count budget chunks where
  text := assemble_text count budget chunks
  received := by
    by_cases h : chunks = []
    · rw [h]
      rfl
    · exact (report_of_ne h).1
  counted := counted count budget chunks
  measured := by
    intro hsome hsame
    rw [hsame]
    by_cases h : chunks = []
    · rw [h, report_nil, keptSections_nil, hsome.resolve_left fun hne => hne h]
      rfl
    · exact (report_of_ne h).2.1
  whole := by
    intro kind hkind hne
    simp only [List.mem_cons, List.not_mem_nil, or_false] at hkind
    rcases hkind with rfl | rfl | rfl
    · exact untrimmed_mem rfl (by decide) hne
    · exact untrimmed_mem rfl (by decide) hne
    · exact untrimmed_mem rfl (by decide) hne
  ordered := rendered_ordered count budget chunks
  fits := by
    intro hcount hothers
    subst hcount
    refine @tokensOf_rendered_le none budget chunks ?_
    show (tokens (chunksOf (withoutRetrieved (keptSections budget chunks))) : Int) ≤ _
    rwa [tokens_withoutRetrieved]
  fits_counted := by
    intro f hcount hothers
    subst hcount
    rw [assemble_text]
    exact @tokensOf_rendered_le (some f) budget chunks hothers

def chunkOf (kind : ContextSection) (n : Nat) : ContextChunk where
  kind := kind
  content := [some 'x']
  tokenCount := n
  content_ok := mark_ne_nil
  trust_ok := trust_one

def narrow : ContextBudget where
  totalTokens := 3
  retrievalAllocation := 10
  workingMemoryAllocation := 0
  outputReservation := 0
  systemAllocation := 0

/-- Retrieved context that is dropped in the emergency is still counted; and
what no step trims, and no emergency drops, does not fit. -/
theorem not_describedAlways :
    ¬ DescribedAlways none narrow [chunkOf .retrievedContext 5]
      ∧ ¬ DescribedAlways none narrow [chunkOf .cognitiveContinuity 9] := by
  constructor
  · intro h
    have hmeasured := h.measured
    exact absurd hmeasured (by decide)
  · intro h
    have hfits := h.fits (by decide)
    exact absurd hfits (by decide)

end Velune.Context
