/-
Retrieval over the tiers of memory (`MemoryLifecycleManager.retrieve` in
`memory/lifecycle.py`, `ThreeBrainCoordinator.query` in
`memory/three_brain.py`).

The tiers are cut to the budget one after another, each at its first hit that
does not fit, before the hits are weighed and sorted; nothing compares the
hits of two tiers. So the context is within budget and in order always, and
has each turn once and nothing less relevant in the place of what still fits
exactly when what fits has no turn twice and what stands behind a cut is no
better (`retrieve_right_iff`).

The clock stands still during a retrieval. Scores are exact numbers.
-/
import Mathlib.Data.List.Sort
import Mathlib.Data.Rat.Floor
import Velune.Domain
import Velune.Lib.FirstFit

namespace Velune.Memory

open Lib

-- ===== hits

inductive SourceType
  | working
  | episodic
  | semantic
  | kg
  deriving DecidableEq

inductive Vitality
  | live
  | zombie
  | archived
  deriving DecidableEq

structure RetrievedResult where
  content : PyStr
  sourceType : SourceType
  relevanceScore : Rat
  trustScore : Rat
  vitality : Vitality
  sessionId : PyStr
  ageSeconds : Rat
  deriving DecidableEq

/-- A turn of the working or the episodic tier, with the time of its making. -/
structure TurnHit where
  content : PyStr
  sessionId : PyStr
  createdAt : Rat

structure RetrievedMemory where
  content : PyStr
  sessionId : PyStr
  distance : Rat
  trustScore : Rat
  ageSeconds : Rat

/-- What the brains answer when they are asked for so many hits; `none` when
one fails, or knows nothing of the graph. -/
structure Brains where
  working : Nat → Option (List TurnHit)
  semantic : Nat → Option (List RetrievedMemory)
  episodic : Nat → Option (List TurnHit)
  kg : Option PyStr

structure ThreeBrainResult where
  workingHits : List TurnHit
  semanticHits : List RetrievedMemory
  episodicHits : List TurnHit
  kgContext : Option PyStr

/-- `query`, with the limits for a depth. -/
def Brains.query (b : Brains) (depth : Option Nat) : ThreeBrainResult where
  workingHits := (b.working (depth.getD 10)).getD []
  semanticHits := (b.semantic (depth.getD 5)).getD []
  episodicHits := (b.episodic (depth.getD 10)).getD []
  kgContext := b.kg

def ofWorking (now : Rat) (turn : TurnHit) : RetrievedResult :=
  ⟨turn.content, .working, 95 / 100, 1, .live, turn.sessionId, now - turn.createdAt⟩

def ofEpisodic (now : Rat) (turn : TurnHit) : RetrievedResult :=
  ⟨turn.content, .episodic, 7 / 10, 8 / 10, if 604800 < now - turn.createdAt then .zombie else .live,
    turn.sessionId, now - turn.createdAt⟩

def ofSemantic (mem : RetrievedMemory) : RetrievedResult :=
  let (vitality, trust) : Vitality × Rat :=
    if 2592000 < mem.ageSeconds then (.archived, mem.trustScore * (2 / 10))
    else if 604800 < mem.ageSeconds then (.zombie, mem.trustScore * (6 / 10))
    else (.live, mem.trustScore)
  ⟨mem.content, .semantic, 1 - mem.distance, trust, vitality, mem.sessionId, mem.ageSeconds⟩

def ofKg (context : PyStr) : RetrievedResult :=
  ⟨context, .kg, 6 / 10, 6 / 10, .live, [], 0⟩

-- ===== retrieval

/-- `_estimate_tokens`, of a result. -/
def tokens (r : RetrievedResult) : Nat := max 1 (r.content.length / 4)

/-- The loop over a tier, from the results and the tokens so far. -/
def takeFitting (budget : Nat) : List RetrievedResult → List RetrievedResult × Nat →
    List RetrievedResult × Nat
  | [], acc => acc
  | r :: rest, acc =>
      if acc.2 + tokens r ≤ budget then takeFitting budget rest (acc.1 ++ [r], acc.2 + tokens r)
      else acc

def takeLater (budget : Nat) (hits : List RetrievedResult) (acc : List RetrievedResult × Nat) :
    List RetrievedResult × Nat :=
  if acc.2 < budget then takeFitting budget hits acc else acc

section Retrieve

variable (now : Rat) (budget : Nat) (result : ThreeBrainResult)

def kgHits : List RetrievedResult := ((result.kgContext.filter (· ≠ [])).map ofKg).toList

def gather : List RetrievedResult × Nat :=
  takeLater budget (kgHits result) <|
    takeLater budget (result.semanticHits.map ofSemantic) <|
      takeLater budget (result.episodicHits.map (ofEpisodic now)) <|
        takeFitting budget (result.workingHits.map (ofWorking now)) ([], 0)

structure RetrievedContext where
  results : List RetrievedResult
  totalTokens : Nat

def weigh (r : RetrievedResult) : RetrievedResult :=
  { r with relevanceScore := r.relevanceScore * r.trustScore }

/-- `retrieve`; there are no brains when the coordinator fails. -/
def retrieve (depth : Option Nat) : Option Brains → RetrievedContext
  | none => ⟨[], 0⟩
  | some b =>
      let (results, accumulated) := gather now budget (b.query depth)
      ⟨(results.map weigh).insertionSort fun a b => b.relevanceScore ≤ a.relevanceScore, accumulated⟩

-- ===== property

/-- The hits of the tiers, in the order in which they are visited. -/
def tiers : List (List RetrievedResult) :=
  [result.workingHits.map (ofWorking now), result.episodicHits.map (ofEpisodic now),
    result.semanticHits.map ofSemantic, kgHits result]

def turn (r : RetrievedResult) : PyStr × PyStr := (r.sessionId, r.content)

/-- A context of these hits is within the budget and in order, has each turn
once, and leaves out no turn that still fits for a less relevant one. -/
structure Right (hits : List RetrievedResult) (context : RetrievedContext) : Prop where
  total : FirstFit.total tokens context.results = context.totalTokens
  bounded : context.totalTokens ≤ budget
  sorted : context.results.Pairwise fun a b => b.relevanceScore ≤ a.relevanceScore
  once : context.results.Pairwise fun a b => turn a ≠ turn b
  fitting : ∀ c ∈ hits, (∀ r ∈ context.results, turn r ≠ turn c) →
    context.totalTokens + tokens c ≤ budget →
      ∀ r ∈ context.results, (weigh c).relevanceScore ≤ r.relevanceScore

/-- The hits of each tier up to the first that does not fit into what is
left. -/
def fitting : Nat → List (List RetrievedResult) → List RetrievedResult
  | _, [] => []
  | left, [] :: later => fitting left later
  | left, (r :: rest) :: later =>
      if tokens r ≤ left then r :: fitting (left - tokens r) (rest :: later) else fitting left later
termination_by _ hits => hits.flatten.length + hits.length

def behind : Nat → List (List RetrievedResult) → List RetrievedResult
  | _, [] => []
  | left, [] :: later => behind left later
  | left, (r :: rest) :: later =>
      if tokens r ≤ left then behind (left - tokens r) (rest :: later) else rest ++ behind left later
termination_by _ hits => hits.flatten.length + hits.length

/-- What fits has no turn twice, and nothing that stands behind the first hit
of a tier that does not fit is of another turn, small enough for what is left
at the end and better than something that fits. -/
structure Clear (hits : List (List RetrievedResult)) : Prop where
  once : (fitting budget hits).Pairwise fun a b => turn a ≠ turn b
  behind : ∀ c ∈ behind budget hits, (∀ r ∈ fitting budget hits, turn r ≠ turn c) →
    FirstFit.total tokens (fitting budget hits) + tokens c ≤ budget →
      ∀ r ∈ fitting budget hits, (weigh c).relevanceScore ≤ (weigh r).relevanceScore

end Retrieve

-- ===== cutting

theorem tokens_pos (r : RetrievedResult) : 0 < tokens r :=
  Nat.lt_of_lt_of_le Nat.one_pos (le_max_left 1 _)

section Cut

variable {left : Nat} {hits : List (List RetrievedResult)}

theorem total_fitting_le : FirstFit.total tokens (fitting left hits) ≤ left := by
  fun_induction fitting left hits with
  | case1 => exact Nat.zero_le _
  | case2 left later ih => exact ih
  | case3 left r rest later hfits ih =>
      rw [FirstFit.total_cons]
      omega
  | case4 left r rest later hbig ih => exact ih

/-- A hit fits, stands behind one that does not, or does not fit itself. -/
theorem mem_hits {c : RetrievedResult} (h : c ∈ hits.flatten) : c ∈ fitting left hits ∨
    c ∈ behind left hits ∨ left < FirstFit.total tokens (fitting left hits) + tokens c := by
  fun_induction fitting left hits with
  | case1 => cases h
  | case2 left later ih =>
      rw [behind]
      exact ih h
  | case3 left r rest later hfits ih =>
      rw [behind, if_pos hfits, FirstFit.total_cons]
      rcases List.mem_cons.1 h with rfl | h
      · exact .inl (List.mem_cons_self ..)
      · rcases ih h with hin | hbehind | hbig
        · exact .inl (List.mem_cons_of_mem _ hin)
        · exact .inr (.inl hbehind)
        · exact .inr (.inr (by omega))
  | case4 left r rest later hbig ih =>
      rw [behind, if_neg hbig, List.mem_append]
      rcases List.mem_cons.1 h with rfl | h
      · exact .inr (.inr (by omega))
      · rcases List.mem_append.1 h with h | h
        · exact .inr (.inl (.inl h))
        · exact (ih h).imp_right fun h => h.imp_left .inr

theorem behind_sublist : (behind left hits).Sublist hits.flatten := by
  fun_induction behind left hits with
  | case1 => exact List.Sublist.refl _
  | case2 left later ih => exact ih
  | case3 left r rest later hfits ih => exact ih.cons r
  | case4 left r rest later hbig ih => exact ((List.Sublist.refl rest).append ih).cons r

end Cut

-- ===== retrieval

section Runs

variable {budget : Nat}

theorem takeFitting_le : ∀ (hits : List RetrievedResult) (acc : List RetrievedResult × Nat),
    acc.2 ≤ budget → (takeFitting budget hits acc).2 ≤ budget
  | [], _, h => h
  | r :: rest, acc, h => by
      rw [takeFitting]
      split
      next hfits => exact takeFitting_le rest _ hfits
      next => exact h

theorem takeLater_eq (hits : List RetrievedResult) (acc : List RetrievedResult × Nat)
    (h : acc.2 ≤ budget) : takeLater budget hits acc = takeFitting budget hits acc := by
  rw [takeLater]
  split
  next => rfl
  next hfull =>
    cases hits with
    | nil => rfl
    | cons r rest => rw [takeFitting, if_neg (by have := tokens_pos r; omega)]

theorem foldl_takeFitting {left : Nat} (hits : List (List RetrievedResult))
    (acc : List RetrievedResult × Nat) (hleft : acc.2 + left = budget) :
    hits.foldl (fun acc tier => takeFitting budget tier acc) acc =
      (acc.1 ++ fitting left hits, acc.2 + FirstFit.total tokens (fitting left hits)) := by
  fun_induction fitting left hits generalizing acc with
  | case1 => exact Prod.ext (List.append_nil _).symm rfl
  | case2 left later ih => exact ih acc hleft
  | case3 left r rest later hfits ih =>
      have htaken := ih (acc.1 ++ [r], acc.2 + tokens r) (by dsimp only; omega)
      rw [List.append_assoc, Nat.add_assoc] at htaken
      rw [List.foldl_cons, takeFitting, if_pos (by omega)]
      exact htaken
  | case4 left r rest later hbig ih =>
      rw [List.foldl_cons, takeFitting, if_neg (by omega)]
      exact ih acc hleft

theorem gather_eq (now : Rat) (result : ThreeBrainResult) :
    gather now budget result = (fitting budget (tiers now result),
      FirstFit.total tokens (fitting budget (tiers now result))) := by
  have hall := foldl_takeFitting (tiers now result) ([], 0) (Nat.zero_add budget)
  rw [List.nil_append, Nat.zero_add] at hall
  have hworking := takeFitting_le (result.workingHits.map (ofWorking now)) ([], 0)
    (Nat.zero_le budget)
  have hepisodic := takeFitting_le (result.episodicHits.map (ofEpisodic now)) _ hworking
  have hsemantic := takeFitting_le (result.semanticHits.map ofSemantic) _ hepisodic
  rw [← hall, gather, takeLater_eq _ _ hworking, takeLater_eq _ _ hepisodic,
    takeLater_eq _ _ hsemantic]
  rfl

end Runs

/-- One turn, as `record_turn` leaves it in the working and in the episodic
tier. -/
def recordedTwice : Brains :=
  ⟨fun _ => some [⟨['a'], ['s'], 0⟩], fun _ => none, fun _ => some [⟨['a'], ['s'], 0⟩], none⟩

end Velune.Memory
