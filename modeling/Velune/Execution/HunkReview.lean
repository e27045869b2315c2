/-
Reviewing a change hunk by hunk (`execution/hunk_review.py`): how a change
is cut into hunks and put together again by what was decided about each.

The comparison of the two texts is `difflib`'s, the parameter `getOpcodes`.

A reviewed change is the original with the accepted changes made.

Both the merge and the text it should be are patches of the original
(`merge_eq_patch`, `chosen_eq_patch`): the merge of what the hunks hold,
the other of what the comparison found. The changes are the same, because
the hunks cover them all and none of them twice.
-/
import Mathlib.Data.List.Nodup
import Velune.Domain
import Velune.Lib.Diff

namespace Velune.Execution

open Lib Lib.Diff

inductive HunkDecision
  | accept
  | reject
  deriving DecidableEq, Repr

structure HunkResult where
  decision : HunkDecision
  opcodes : List Opcode
  deriving DecidableEq, Repr

/-- The two texts of a `FileDiff`. -/
structure FileDiff where
  original : PyStr
  proposed : PyStr
  deriving DecidableEq, Repr

def FileDiff.originalLines (diff : FileDiff) : List PyStr := Text.splitlinesKeep diff.original

def FileDiff.proposedLines (diff : FileDiff) : List PyStr := Text.splitlinesKeep diff.proposed

def CONTEXT_LINES : Nat := 3

def splitIntoHunks (getOpcodes : List PyStr → List PyStr → List Opcode) (diff : FileDiff) :
    List (List Opcode) :=
  groupedOpcodes CONTEXT_LINES (getOpcodes diff.originalLines diff.proposedLines)

/-- The locals of `_reconstruct`. -/
structure Merge where
  out : List PyStr
  origPos : Nat

def mergeOpcode (diff : FileDiff) (decision : HunkDecision) (m : Merge) (c : Opcode) : Merge :=
  -- original lines before this opcode that were in no hunk
  let m := if m.origPos < c.i1 then
    ⟨m.out ++ slice diff.originalLines m.origPos c.i1, c.i1⟩ else m
  match c.tag with
  | .equal => ⟨m.out ++ slice diff.originalLines c.i1 c.i2, c.i2⟩
  | tag =>
      if decision = .accept then
        if tag = .replace ∨ tag = .insert then
          ⟨m.out ++ slice diff.proposedLines c.j1 c.j2, c.i2⟩
        else ⟨m.out, c.i2⟩
      else if tag = .replace ∨ tag = .delete then
        ⟨m.out ++ slice diff.originalLines c.i1 c.i2, c.i2⟩
      else ⟨m.out, c.i2⟩

def reconstruct (diff : FileDiff) (results : List HunkResult) : PyStr :=
  let m := results.foldl
    (fun m result => result.opcodes.foldl (mergeOpcode diff result.decision) m) ⟨[], 0⟩
  (if m.origPos < diff.originalLines.length then m.out ++ diff.originalLines.drop m.origPos
    else m.out).flatten

/-- `review_hunks`, the answers given beforehand. -/
def reviewHunks (getOpcodes : List PyStr → List PyStr → List Opcode) (diff : FileDiff)
    (autoAccept : Bool) (answers : List HunkDecision) : PyStr :=
  if autoAccept then diff.proposed
  else
    let groups := splitIntoHunks getOpcodes diff
    if groups = [] then diff.proposed
    else reconstruct diff (List.zipWith HunkResult.mk answers groups)

variable {diff : FileDiff} {codes : List Opcode} {results : List HunkResult}

-- ===== property

def accepted (results : List HunkResult) (c : Opcode) : Bool :=
  results.any fun result => decide (result.decision = .accept) && decide (c ∈ result.opcodes)

/-- The proposed lines for every accepted change, the original lines
everywhere else. -/
def chosen (diff : FileDiff) (codes : List Opcode) (results : List HunkResult) : PyStr :=
  (codes.flatMap fun c =>
    if c.changed && accepted results c then slice diff.proposedLines c.j1 c.j2
    else slice diff.originalLines c.i1 c.i2).flatten

/-- What a comparison and its groups promise: opcodes that walk through both
texts, and hunks in order, none reaching into the next, that have all the
changes. -/
structure Contract (diff : FileDiff) (codes : List Opcode) (groups : List (List Opcode)) : Prop where
  walk : Walk diff.originalLines diff.proposedLines 0 0 codes diff.originalLines.length
    diff.proposedLines.length
  inOrder : InOrder 0 groups.flatten
  covers : groups.flatten.filter (·.changed) = codes.filter (·.changed)

-- ===== patches

def edits (diff : FileDiff) (marked : List (Opcode × Bool)) : List (Nat × Nat × List PyStr) :=
  marked.filterMap fun m =>
    if m.1.changed && m.2 then some (m.1.i1, m.1.i2, slice diff.proposedLines m.1.j1 m.1.j2)
    else none

theorem edits_cons (c : Opcode) (mark : Bool) (marked : List (Opcode × Bool)) :
    edits diff ((c, mark) :: marked)
      = if c.changed && mark then
          (c.i1, c.i2, slice diff.proposedLines c.j1 c.j2) :: edits diff marked
        else edits diff marked := by
  unfold edits
  rw [List.filterMap_cons]
  cases c.changed && mark <;> rfl

theorem edits_filter (marked : List (Opcode × Bool)) :
    edits diff (marked.filter (·.1.changed)) = edits diff marked := by
  induction marked with
  | nil => rfl
  | cons m marked ih =>
      obtain ⟨c, mark⟩ := m
      rw [List.filter_cons, edits_cons]
      split
      next hm => rw [edits_cons, ih]
      next hm =>
        rw [ih, if_neg]
        rw [Bool.and_eq_true]
        exact fun h => hm h.1

theorem head_edits : ∀ {marked : List (Opcode × Bool)} {i : Nat},
    InOrder i (marked.map (·.1)) → ∀ e ∈ (edits diff marked).head?, i ≤ e.1
  | [], _, _ => fun e he => by cases he
  | (c, mark) :: marked, i, h => by
      obtain ⟨hi, hle, hrest⟩ := h
      rw [edits_cons]
      split
      next =>
        intro e he
        cases he
        exact hi
      next => exact fun e he => Nat.le_trans (Nat.le_trans hi hle) (head_edits hrest e he)

def marks (results : List HunkResult) : List (Opcode × Bool) :=
  results.flatMap fun result => result.opcodes.map fun c => (c, decide (result.decision = .accept))

/-- One opcode puts down the original lines up to it, and its own choice. -/
theorem mergeOpcode_eq {decision : HunkDecision} {m : Merge} {c : Opcode} (hpos : m.origPos ≤ c.i1)
    (hfits : c.changed = true → c.Fits diff.originalLines diff.proposedLines) :
    mergeOpcode diff decision m c
      = ⟨m.out ++ (slice diff.originalLines m.origPos c.i1
          ++ if c.changed && decide (decision = .accept) then slice diff.proposedLines c.j1 c.j2
            else slice diff.originalLines c.i1 c.i2), c.i2⟩ := by
  -- the copy of what was in no hunk, whether it is there or not
  have hcopy : (if m.origPos < c.i1 then
      (⟨m.out ++ slice diff.originalLines m.origPos c.i1, c.i1⟩ : Merge) else m)
        = ⟨m.out ++ slice diff.originalLines m.origPos c.i1, c.i1⟩ := by
    split
    next => rfl
    next hnot =>
      have heq : m.origPos = c.i1 := Nat.le_antisymm hpos (Nat.le_of_not_lt hnot)
      rw [← heq, slice_self, List.append_nil]
  unfold mergeOpcode
  rw [hcopy]
  cases htag : c.tag with
  | equal =>
      rw [changed_equal htag]
      simp
  | replace =>
      have hc : c.changed = true := by rw [Opcode.changed, htag]; rfl
      cases decision <;> simp [hc]
  | delete =>
      have hc : c.changed = true := by rw [Opcode.changed, htag]; rfl
      have hnone := (hfits hc).2.2.2.2
      rw [htag] at hnone
      cases decision with
      | accept => simp [hc, hnone.2, slice_self]
      | reject => simp
  | insert =>
      have hc : c.changed = true := by rw [Opcode.changed, htag]; rfl
      have hnone := (hfits hc).2.2.2.2
      rw [htag] at hnone
      cases decision with
      | accept => simp [hc]
      | reject => simp [hnone.1, slice_self]

/-- The end of `_reconstruct`. -/
def Merge.finish (diff : FileDiff) (m : Merge) : List PyStr :=
  if m.origPos < diff.originalLines.length then m.out ++ diff.originalLines.drop m.origPos
  else m.out

theorem merge_eq_patch : ∀ {marked : List (Opcode × Bool)} {m : Merge},
    InOrder m.origPos (marked.map (·.1)) →
    (∀ k ∈ marked, k.1.changed = true → k.1.Fits diff.originalLines diff.proposedLines) →
    (marked.foldl (fun m k => mergeOpcode diff (if k.2 then .accept else .reject) m k.1) m).finish
        diff
      = m.out ++ patch diff.originalLines m.origPos (edits diff marked)
  | [], m, _, _ => by
      show Merge.finish diff m = m.out ++ diff.originalLines.drop m.origPos
      unfold Merge.finish
      split
      next => rfl
      next hend => rw [List.drop_eq_nil_of_le (Nat.le_of_not_lt hend), List.append_nil]
  | (c, mark) :: marked, m, horder, hfits => by
      obtain ⟨hpos, hle, hrest⟩ := horder
      obtain ⟨hc, hfits⟩ := List.forall_mem_cons.1 hfits
      have hmark : decide ((if mark then HunkDecision.accept else .reject) = .accept) = mark := by
        cases mark <;> rfl
      have ih := fun m' h => @merge_eq_patch marked m' h hfits
      rw [List.foldl_cons, mergeOpcode_eq hpos hc, ih _ hrest, hmark]
      show (m.out ++ (slice diff.originalLines m.origPos c.i1 ++ _))
        ++ patch diff.originalLines c.i2 (edits diff marked) = _
      rw [edits_cons]
      split
      next hedit =>
        show _ = m.out ++ patch diff.originalLines m.origPos
          ((c.i1, c.i2, slice diff.proposedLines c.j1 c.j2) :: _)
        simp only [List.append_assoc]
        rfl
      next hkeep =>
        rw [List.append_assoc, List.append_assoc]
        show m.out ++ (slice diff.originalLines m.origPos c.i1 ++
          (slice diff.originalLines c.i1 c.i2 ++ _)) = _
        rw [slice_append_patch _ hle (head_edits hrest),
          slice_append_patch _ hpos fun e he => Nat.le_trans hle (head_edits hrest e he)]

theorem chosen_eq_patch {mark : Opcode → Bool} : ∀ {codes : List Opcode} {i j : Nat},
    Walk diff.originalLines diff.proposedLines i j codes diff.originalLines.length
      diff.proposedLines.length →
    (codes.flatMap fun c =>
      if c.changed && mark c then slice diff.proposedLines c.j1 c.j2
      else slice diff.originalLines c.i1 c.i2)
      = patch diff.originalLines i (edits diff (codes.map fun c => (c, mark c)))
  | [], i, _, h => by
      show [] = diff.originalLines.drop i
      rw [← h.1, List.drop_length]
  | c :: codes, _, _, h => by
      obtain ⟨rfl, rfl, hfits, hrest⟩ := h
      have horder : InOrder c.i2 ((codes.map fun c => (c, mark c)).map (·.1)) := by
        have hsame : (codes.map fun c => (c, mark c)).map (·.1) = codes ++ [] := by
          rw [List.map_map, List.append_nil]
          exact List.map_id codes
        rw [hsame]
        exact inOrder_append hrest trivial
      rw [List.flatMap_cons, chosen_eq_patch hrest, List.map_cons, edits_cons]
      split
      next hedit =>
        show _ = slice diff.originalLines c.i1 c.i1 ++ (_ ++ _)
        rw [slice_self]
        rfl
      next hkeep => exact slice_append_patch _ hfits.1 (head_edits horder)

-- ===== one change

theorem foldl_results (results : List HunkResult) : ∀ m : Merge,
    results.foldl (fun m result => result.opcodes.foldl (mergeOpcode diff result.decision) m) m
      = (marks results).foldl
          (fun m k => mergeOpcode diff (if k.2 then .accept else .reject) m k.1) m := by
  induction results with
  | nil => exact fun m => rfl
  | cons result results ih =>
      intro m
      have hdecision : (if decide (result.decision = .accept) then HunkDecision.accept else .reject)
          = result.decision := by
        cases result.decision <;> rfl
      have hmarks : marks (result :: results)
          = result.opcodes.map (fun c => (c, decide (result.decision = .accept)))
            ++ marks results := List.flatMap_cons
      rw [List.foldl_cons, ih, hmarks, List.foldl_append, List.foldl_map]
      simp only [hdecision]

theorem map_marks (results : List HunkResult) :
    (marks results).map (·.1) = (results.map (·.opcodes)).flatten := by
  induction results with
  | nil => rfl
  | cons result results ih =>
      have hmarks : marks (result :: results)
          = result.opcodes.map (fun c => (c, decide (result.decision = .accept)))
            ++ marks results := List.flatMap_cons
      have hopcodes : (result.opcodes.map fun c => (c, decide (result.decision = .accept))).map (·.1)
          = result.opcodes := by
        rw [List.map_map]
        exact List.map_id _
      rw [hmarks, List.map_append, ih, hopcodes]
      rfl

theorem accepted_iff {c : Opcode} : accepted results c = true ↔ (c, true) ∈ marks results := by
  unfold accepted marks
  rw [List.any_eq_true, List.mem_flatMap]
  refine exists_congr fun result => and_congr_right fun _ => ?_
  rw [Bool.and_eq_true, decide_eq_true_eq, decide_eq_true_eq, List.mem_map]
  constructor
  · exact fun h => ⟨c, h.2, by rw [decide_eq_true h.1]⟩
  · intro h
    obtain ⟨d, hd, heq⟩ := h
    obtain ⟨rfl, hdecision⟩ := Prod.mk.inj heq
    exact ⟨of_decide_eq_true hdecision, hd⟩

theorem edits_marks (h : Contract diff codes (results.map (·.opcodes))) :
    edits diff (marks results) = edits diff (codes.map fun c => (c, accepted results c)) := by
  have hfst : ((marks results).filter (·.1.changed)).map (·.1) = codes.filter (·.changed) := by
    rw [← h.covers, ← map_marks, List.filter_map]
    rfl
  have hnodup : (((marks results).filter (·.1.changed)).map (·.1)).Nodup := by
    rw [hfst]
    exact h.walk.nodup
  have hmark : ∀ k ∈ (marks results).filter (·.1.changed), (k.1, accepted results k.1) = k := by
    intro k hk
    obtain ⟨c, mark⟩ := k
    refine Prod.ext rfl ?_
    show accepted results c = mark
    rw [Bool.eq_iff_iff, accepted_iff]
    constructor
    · intro htrue
      have hmem : (c, true) ∈ (marks results).filter (·.1.changed) :=
        List.mem_filter.2 ⟨htrue, (List.mem_filter.1 hk).2⟩
      have hsame := List.inj_on_of_nodup_map hnodup hmem hk rfl
      rw [← (Prod.mk.inj hsame).2]
    · intro hmark
      rw [← hmark]
      exact (List.mem_filter.1 hk).1
  have hlist : (marks results).filter (·.1.changed)
      = (codes.map fun c => (c, accepted results c)).filter (·.1.changed) := by
    rw [List.filter_map]
    show _ = (codes.filter (·.changed)).map fun c => (c, accepted results c)
    rw [← hfst, List.map_map]
    exact (List.map_congr_left hmark).trans (List.map_id _) |>.symm
  rw [← edits_filter, hlist, edits_filter]

/-- Whatever was decided about each hunk, the text put together is the one
with the proposed lines for every accepted change and the original lines
everywhere else; it is the proposed text when all were accepted, and the
original when all were rejected. -/
theorem reconstruct_spec {groups : List (List Opcode)} (hcontract : Contract diff codes groups)
    (hresults : results.map (·.opcodes) = groups) :
    reconstruct diff results = chosen diff codes results ∧
      ((∀ result ∈ results, result.decision = .accept) →
        reconstruct diff results = diff.proposed) ∧
      ((∀ result ∈ results, result.decision = .reject) →
        reconstruct diff results = diff.original) := by
  subst hresults
  have hfits : ∀ k ∈ marks results, k.1.changed = true →
      k.1.Fits diff.originalLines diff.proposedLines := by
    intro k hk hchanged
    have hmem : k.1 ∈ codes.filter (·.changed) := by
      rw [← hcontract.covers, ← map_marks]
      exact List.mem_filter.2 ⟨List.mem_map_of_mem hk, hchanged⟩
    exact (hcontract.walk.le_of_mem k.1 (List.mem_of_mem_filter hmem)).2.2
  have horder : InOrder 0 ((marks results).map (·.1)) := by
    rw [map_marks]
    exact hcontract.inOrder
  have hall : reconstruct diff results = chosen diff codes results := by
    have hmerge : reconstruct diff results = (Merge.finish diff (results.foldl
        (fun m result => result.opcodes.foldl (mergeOpcode diff result.decision) m) ⟨[], 0⟩)).flatten :=
      rfl
    rw [hmerge, foldl_results, merge_eq_patch horder hfits, List.nil_append, edits_marks hcontract,
      chosen, chosen_eq_patch hcontract.walk]
  refine ⟨hall, fun haccept => ?_, fun hreject => ?_⟩
  · have hpieces : (codes.flatMap fun c =>
        if c.changed && accepted results c then slice diff.proposedLines c.j1 c.j2
        else slice diff.originalLines c.i1 c.i2)
        = codes.flatMap fun c => slice diff.proposedLines c.j1 c.j2 := by
      refine List.flatMap_congr fun c hc => ?_
      cases hchanged : c.changed with
      | false =>
          have htag : c.tag = .equal := by simpa [Opcode.changed] using hchanged
          exact ((hcontract.walk.le_of_mem c hc).2.2.gap htag).equal
      | true =>
          have hmem : c ∈ (results.map (·.opcodes)).flatten.filter (·.changed) := by
            rw [hcontract.covers]
            exact List.mem_filter.2 ⟨hc, hchanged⟩
          obtain ⟨opcodes, hopcodes, hin⟩ := List.mem_flatten.1 (List.mem_of_mem_filter hmem)
          obtain ⟨result, hresult, rfl⟩ := List.mem_map.1 hopcodes
          have hacc : accepted results c = true :=
            List.any_eq_true.2 ⟨result, hresult, by
              rw [Bool.and_eq_true, decide_eq_true_eq, decide_eq_true_eq]
              exact ⟨haccept result hresult, hin⟩⟩
          rw [hacc]
          rfl
    rw [hall, chosen, hpieces, flatMap_right hcontract.walk, slice_zero, List.take_length]
    exact Text.flatten_splitlinesKeep diff.proposed
  · have hnone : ∀ c, accepted results c = false := by
      intro c
      refine List.any_eq_false.2 fun result hresult => ?_
      rw [hreject result hresult]
      exact Bool.false_ne_true
    have hpieces : (codes.flatMap fun c =>
        if c.changed && accepted results c then slice diff.proposedLines c.j1 c.j2
        else slice diff.originalLines c.i1 c.i2)
        = codes.flatMap fun c => slice diff.originalLines c.i1 c.i2 := by
      refine List.flatMap_congr fun c _ => ?_
      rw [hnone, Bool.and_false]
      rfl
    rw [hall, chosen, hpieces, flatMap_left hcontract.walk, slice_zero, List.take_length]
    exact Text.flatten_splitlinesKeep diff.original

def oneLine : FileDiff := ⟨"a\nb\n".toList, "a\nc\n".toList⟩

def oneLineCodes : List Opcode := [⟨.equal, 0, 1, 0, 1⟩, ⟨.replace, 1, 2, 1, 2⟩]

theorem reconstruct_spec_one :
    reconstruct oneLine [⟨.accept, oneLineCodes⟩] = oneLine.proposed := by
  have hcontract : Contract oneLine oneLineCodes [oneLineCodes] := by
    refine ⟨⟨rfl, rfl, ⟨by decide, by decide, by decide, by decide, ?_⟩, rfl, rfl,
      ⟨by decide, by decide, by decide, by decide, by decide, by decide⟩, rfl, rfl⟩, ?_, rfl⟩
    · exact ⟨by decide, by decide, by decide, by decide, rfl, by decide⟩
    · exact ⟨by decide, by decide, by decide, by decide, trivial⟩
  refine (reconstruct_spec hcontract rfl).2.1 fun result hresult => ?_
  rw [List.mem_singleton.1 hresult]

end Velune.Execution
