/-
`ContextAssembler` (`context/assembler.py`): chunks of a context, grouped
into seven sections, three of which are trimmed, rendered one after the
other; and the report of it.

Scores are exact numbers. A chunk's source and metadata, and what is logged,
are left out.
-/
import Velune.Context.Budget
import Velune.Domain
import Velune.Lib.Assoc
import Velune.Lib.FirstFit

namespace Velune.Context

open Lib

-- ===== the data

inductive ContextSection
  | systemPrompt | cognitiveContinuity | architecturalDrift | repositorySnapshot
  | retrievedContext | workingMemory | currentPrompt
  deriving DecidableEq, Repr

/-- `sorted(ContextSection)`. -/
def ContextSection.canonical : List ContextSection :=
  [.systemPrompt, .cognitiveContinuity, .architecturalDrift, .repositorySnapshot,
    .retrievedContext, .workingMemory, .currentPrompt]

def ContextSection.name : ContextSection → PyStr
  | .systemPrompt => "SYSTEM_PROMPT".toList
  | .cognitiveContinuity => "COGNITIVE_CONTINUITY".toList
  | .architecturalDrift => "ARCHITECTURAL_DRIFT".toList
  | .repositorySnapshot => "REPOSITORY_SNAPSHOT".toList
  | .retrievedContext => "RETRIEVED_CONTEXT".toList
  | .workingMemory => "WORKING_MEMORY".toList
  | .currentPrompt => "CURRENT_PROMPT".toList

def ContextSection.number : ContextSection → Char
  | .systemPrompt => '1'
  | .cognitiveContinuity => '2'
  | .architecturalDrift => '3'
  | .repositorySnapshot => '4'
  | .retrievedContext => '5'
  | .workingMemory => '6'
  | .currentPrompt => '7'

structure ContextChunk where
  kind : ContextSection
  content : RawStr
  tokenCount : Nat
  trustScore : Rat := 1
  priority : Rat := 1 / 2
  content_ok : content ≠ []
  trust_ok : 0 ≤ trustScore ∧ trustScore ≤ 1

def tokens (chunks : List ContextChunk) : Nat := FirstFit.total ContextChunk.tokenCount chunks

structure ContextAssemblyReport where
  totalChunksReceived : Nat
  totalTokensRequested : Int
  totalTokensAssembled : Int
  sectionsPresent : List ContextSection := []
  sectionsTrimmed : Assoc ContextSection Int := []
  chunksDropped : Int := 0
  duplicatesDropped : Nat := 0
  budgetExceeded : Bool := false

-- ===== duplicates

/-- `" ".join(content.split())`. -/
def splitWords : RawStr → List RawStr
  | [] => []
  | c :: s =>
      if c.any Text.isSpace then splitWords s
      else
        match s, splitWords s with
        | d :: _, word :: words => if d.any Text.isSpace then [c] :: word :: words else (c :: word) :: words
        | _, words => [c] :: words

def normalized (content : RawStr) : RawStr := List.intercalate [some ' '] (splitWords content)

def better (existing chunk : ContextChunk) : ContextChunk :=
  if existing.trustScore < chunk.trustScore
      ∨ existing.trustScore = chunk.trustScore ∧ existing.priority < chunk.priority then chunk
  else existing

/-- One turn of the loop; the entries keep the order of the keys. -/
def keepBest (best : Assoc RawStr ContextChunk) (chunk : ContextChunk) : Assoc RawStr ContextChunk :=
  match best.get? (normalized chunk.content) with
  | none => best.set (normalized chunk.content) chunk
  | some existing => best.set (normalized chunk.content) (better existing chunk)

/-- `_deduplicate_retrieved_context`. -/
def deduplicate (chunks : List ContextChunk) : List ContextChunk × Nat :=
  let deduped := (chunks.foldl keepBest []).map Prod.snd
  (deduped, chunks.length - deduped.length)

-- ===== trimming

def keepFitting (room : Int) (chunks : List ContextChunk) : List ContextChunk :=
  FirstFit.keep ContextChunk.tokenCount room chunks

/-- `sorted(chunks, key=…, reverse=True)`. -/
def byTrust (chunks : List ContextChunk) : List ContextChunk :=
  chunks.mergeSort fun a b => decide (b.trustScore ≤ a.trustScore)

def trimRetrievedContext (chunks : List ContextChunk) (allocation : Int) :
    List ContextChunk × Int :=
  if (tokens chunks : Int) ≤ allocation then (chunks, 0)
  else
    let kept := keepFitting allocation (byTrust chunks)
    (kept, tokens chunks - tokens kept)

def trimWorkingMemory (chunks : List ContextChunk) (allocation : Int) : List ContextChunk × Int :=
  if (tokens chunks : Int) ≤ allocation then (chunks, 0)
  else
    let kept := (keepFitting allocation chunks.reverse).reverse
    (kept, tokens chunks - tokens kept)

-- ===== the snapshot

def SNAPSHOT_TOKEN_BUDGET : Nat := 2000

def CHARS_PER_TOKEN : Nat := 4

def MUST_KEEP_PRIORITY : Rat := 9 / 10

def TRUNCATION_NOTICE : RawStr :=
  PyStr.raw "\n... [snapshot truncated to fit context budget]".toList

/-- `text.rfind("\n")`. -/
def rfindNewline : RawStr → Option Nat
  | [] => none
  | c :: s =>
      match rfindNewline s with
      | some i => some (i + 1)
      | none => if c = some '\n' then some 0 else none

def cutoff (content : RawStr) (available : Nat) : Nat :=
  match rfindNewline (content.take available) with
  | some (i + 1) => i + 1
  | _ => available

def truncated (content : RawStr) (available : Nat) : RawStr :=
  content.take (cutoff content available) ++ TRUNCATION_NOTICE

theorem truncated_ne_nil (content : RawStr) (available : Nat) :
    truncated content available ≠ [] := by
  intro h
  cases (List.append_eq_nil_iff.1 h).2

def ContextChunk.truncateTo (chunk : ContextChunk) (available : Nat) : ContextChunk :=
  { chunk with
    content := truncated chunk.content available
    tokenCount := (truncated chunk.content available).length / CHARS_PER_TOKEN
    content_ok := truncated_ne_nil chunk.content available }

def layOut : Int → List ContextChunk → List ContextChunk
  | _, [] => []
  | room, chunk :: chunks =>
      if room ≤ 0 then []
      else if chunk.content.length ≤ room then
        chunk :: layOut (room - chunk.content.length) chunks
      else
        let cut := chunk.truncateTo room.toNat
        cut :: layOut (room - cut.content.length) chunks

def mustKeep (chunks : List ContextChunk) : List ContextChunk :=
  chunks.filter fun c => decide (MUST_KEEP_PRIORITY ≤ c.priority)

def droppable (chunks : List ContextChunk) : List ContextChunk :=
  (chunks.filter fun c => decide (c.priority < MUST_KEEP_PRIORITY)).mergeSort
    fun a b => decide (a.priority ≤ b.priority)

def dropLow (chunks : List ContextChunk) : List ContextChunk :=
  mustKeep chunks
    ++ keepFitting ((SNAPSHOT_TOKEN_BUDGET : Int) - tokens (mustKeep chunks)) (droppable chunks).reverse

def trimRepositorySnapshot (chunks : List ContextChunk) : List ContextChunk :=
  if tokens chunks ≤ SNAPSHOT_TOKEN_BUDGET then chunks
  else if tokens (dropLow chunks) ≤ SNAPSHOT_TOKEN_BUDGET then dropLow chunks
  else
    layOut ((SNAPSHOT_TOKEN_BUDGET * CHARS_PER_TOKEN : Nat) : Int)
      ((dropLow chunks).mergeSort fun a b => decide (b.priority ≤ a.priority))

-- ===== rendering

def renderSection (kind : ContextSection) (chunks : List ContextChunk) : RawStr :=
  PyStr.raw ("--- SECTION: ".toList ++ kind.name ++ " (".toList ++ [kind.number]
      ++ " of 7) ---".toList)
    ++ some '\n' :: List.intercalate (PyStr.raw "\n\n".toList) (chunks.map ContextChunk.content)
    ++ some '\n' :: PyStr.raw "--- END SECTION ---".toList

/-- `_render_assembled_context`, of sections in canonical order. -/
def renderContext (sections : List (ContextSection × List ContextChunk)) : RawStr :=
  List.intercalate (PyStr.raw "\n\n".toList) (sections.map fun s => renderSection s.1 s.2)

-- ===== assembly

/-- What becomes of one section: its chunks, the duplicates among them and
the tokens trimmed. -/
def processSection (budget : ContextBudget) (kind : ContextSection) (chunks : List ContextChunk) :
    List ContextChunk × Nat × Int :=
  match kind with
  | .retrievedContext =>
      let (deduped, duplicates) := deduplicate chunks
      let (kept, trimmed) := trimRetrievedContext deduped budget.retrievalAllocation
      (kept, duplicates, trimmed)
  | .workingMemory =>
      let (kept, trimmed) := trimWorkingMemory chunks budget.workingMemoryAllocation
      (kept, 0, trimmed)
  | .repositorySnapshot => (trimRepositorySnapshot chunks, 0, 0)
  | _ => (chunks, 0, 0)

def ofSection (kind : ContextSection) (chunks : List ContextChunk) : List ContextChunk :=
  chunks.filter fun c => decide (c.kind = kind)

def keptSections (budget : ContextBudget) (chunks : List ContextChunk) :
    List (ContextSection × List ContextChunk) :=
  ContextSection.canonical.filterMap fun kind =>
    match (processSection budget kind (ofSection kind chunks)).1 with
    | [] => none
    | kept => some (kind, kept)

def duplicatesIn (budget : ContextBudget) (chunks : List ContextChunk) : Nat :=
  (processSection budget .retrievedContext (ofSection .retrievedContext chunks)).2.1

def trimmedIn (budget : ContextBudget) (chunks : List ContextChunk) : Assoc ContextSection Int :=
  ContextSection.canonical.filterMap fun kind =>
    let trimmed := (processSection budget kind (ofSection kind chunks)).2.2
    if 0 < trimmed then some (kind, trimmed) else none

def chunksOf (sections : List (ContextSection × List ContextChunk)) : List ContextChunk :=
  sections.flatMap Prod.snd

def withoutRetrieved (sections : List (ContextSection × List ContextChunk)) :
    List (ContextSection × List ContextChunk) :=
  sections.filter fun s => decide (s.1 ≠ .retrievedContext)

/-- `assemble`; `count` counts the tokens of a text, where there is a model. -/
def assemble (count : Option (RawStr → Nat)) (budget : ContextBudget) (chunks : List ContextChunk) :
    RawStr × ContextAssemblyReport :=
  if chunks = [] then
    ([], { totalChunksReceived := 0, totalTokensRequested := budget.usableTokens,
           totalTokensAssembled := 0 })
  else
    let kept := keptSections budget chunks
    let finalTokenCount :=
      match count with
      | some count => count (renderContext kept)
      | none => tokens (chunksOf kept)
    let exceeded := decide (budget.usableTokens < finalTokenCount)
    let left := if exceeded then withoutRetrieved kept else kept
    let duplicates := duplicatesIn budget chunks
    (renderContext left,
      { totalChunksReceived := chunks.length
        totalTokensRequested := budget.usableTokens
        totalTokensAssembled := finalTokenCount
        sectionsPresent := left.map Prod.fst
        sectionsTrimmed := trimmedIn budget chunks
        chunksDropped := (chunks.length : Int) - (chunksOf left).length - duplicates
        duplicatesDropped := duplicates
        budgetExceeded := exceeded })

end Velune.Context
