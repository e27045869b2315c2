/-
A revision is a patch with causes (`PatchWithCauses`): it is read off what
`Applied` says of all its edits and `Answered` of all its responses.
-/
import Velune.Council.Proofs.Edits
import Velune.Council.Proofs.Outcome

namespace Velune.Council

open Lib

-- ===== objections

def Objection (critiques : List (PyStr × Critique)) (cause : CauseRef) : Prop :=
  ∃ c ∈ critiques, c.1 = cause.reviewerSeat ∧ cause.objectionIndex < c.2.disagreements.length

variable {critiques : List (PyStr × Critique)}

theorem mem_objectionEntries {e : Key × Disagreement} :
    e ∈ objectionEntries critiques ↔ ∃ c ∈ critiques, ∃ i, c.2.disagreements[i]? = some e.2
      ∧ e.1 = (c.1, i + 1) := by
  unfold objectionEntries
  simp only [List.mem_flatMap, List.mem_map, List.mem_zipIdx_iff_le_and_getElem?_sub]
  constructor
  · intro h
    obtain ⟨c, hc, item, ⟨hfrom, hget⟩, rfl⟩ := h
    exact ⟨c, hc, item.2 - 1, hget, congrArg (c.1, ·) (Nat.sub_add_cancel hfrom).symm⟩
  · intro h
    obtain ⟨c, hc, i, hget, hkey⟩ := h
    exact ⟨c, hc, (e.2, i + 1), ⟨Nat.le_add_left 1 i, hget⟩, Prod.ext hkey.symm rfl⟩

theorem objection_of_key {key : Key} (h : key ∈ (objectionsOf critiques).keys) :
    1 ≤ key.2 ∧ Objection critiques (causeRef key) := by
  have hmem := ((Assoc.mem_keys_foldl_set key _ _).1 h).resolve_left List.not_mem_nil
  obtain ⟨e, he, rfl⟩ := List.mem_map.1 hmem
  obtain ⟨c, hc, i, hget, hkey⟩ := mem_objectionEntries.1 he
  rw [hkey]
  exact ⟨Nat.le_add_left 1 i, c, hc, rfl, (List.getElem?_eq_some_iff.1 hget).1⟩

theorem nodup_objectionEntries : ∀ {critiques : List (PyStr × Critique)},
    (critiques.map (·.1)).Nodup → ((objectionEntries critiques).map (·.1)).Nodup := by
  intro critiques
  induction critiques with
  | nil => exact fun _ => List.nodup_nil
  | cons c rest ih =>
      intro h
      obtain ⟨hnew, hrest⟩ := List.nodup_cons.1 h
      have hfirst : ((c.2.disagreements.zipIdx 1).map fun item => (c.1, item.2))
          = (List.range' 1 c.2.disagreements.length).map fun i => (c.1, i) := by
        rw [← List.zipIdx_map_snd 1 c.2.disagreements, List.map_map]
        rfl
      unfold objectionEntries
      rw [List.flatMap_cons, List.map_append, List.map_map]
      show (List.map (fun item : Disagreement × Nat => (c.1, item.2)) _ ++ (objectionEntries rest).map _).Nodup
      rw [hfirst]
      refine List.nodup_append.2 ⟨?_, ih hrest, ?_⟩
      · exact List.Nodup.map (fun i j hij => (Prod.mk.inj hij).2) List.nodup_range'
      · intro key hkey other hother heq
        obtain ⟨i, -, rfl⟩ := List.mem_map.1 hkey
        obtain ⟨e, he, rfl⟩ := List.mem_map.1 hother
        obtain ⟨c', hc', j, -, hother'⟩ := mem_objectionEntries.1 he
        rw [hother'] at heq
        exact hnew (List.mem_map.2 ⟨c', hc', (Prod.mk.inj heq).1.symm⟩)

/-- Every objection that must be answered is among the required ones, when
no reviewer comes twice. -/
theorem mem_requiredResponses
    (hreviewers : (critiques.map (·.1)).Nodup) {c : PyStr × Critique} (hc : c ∈ critiques) {i : Nat}
    {d : Disagreement} (hd : c.2.disagreements[i]? = some d)
    (hsevere : d.severity = .major ∨ d.severity = .critical) :
    (c.1, i + 1) ∈ requiredResponses critiques := by
  have hentries : objectionsOf critiques = objectionEntries critiques :=
    Assoc.foldl_set_new (nodup_objectionEntries hreviewers)
  unfold requiredResponses
  rw [hentries]
  refine List.mem_map.2 ⟨((c.1, i + 1), d), List.mem_filter.2 ⟨?_, ?_⟩, rfl⟩
  · exact mem_objectionEntries.2 ⟨c, hc, i, hd, rfl⟩
  · rcases hsevere with h | h
    · simp [h]
    · simp [h]

-- ===== responses

/-- What the answers are filed in: each has a decision and a note, and
answers an objection. -/
structure Answered (objections : Assoc Key Disagreement) (decisions : Assoc Key Decision)
    (notes : Assoc Key Text240) : Prop where
  once : decisions.keys.Nodup
  noted : ∀ key ∈ decisions.keys, key ∈ notes.keys
  known : ∀ key ∈ decisions.keys, key ∈ objections.keys

theorem answered_answers {objections : Assoc Key Disagreement} {decisions' : Assoc Key Decision}
    {notes' : Assoc Key Text240} :
    ∀ {responses : List ResponseDraft} {index : Nat} {decisions : Assoc Key Decision}
      {notes : Assoc Key Text240}, Answered objections decisions notes →
        answers objections index responses decisions notes = .ok (decisions', notes') →
          Answered objections decisions' notes' := by
  intro responses
  induction responses with
  | nil =>
      intro index decisions notes ha h
      cases h
      exact ha
  | cons response rest ih =>
      intro index decisions notes ha h
      unfold answers at h
      split at h
      next => cases h
      next hknown =>
        split at h
        next => cases h
        next =>
          refine ih ⟨Assoc.keys_set ha.once _ _, fun key hkey => ?_, fun key hkey => ?_⟩ h
          · exact (Assoc.mem_keys_set ..).2 (((Assoc.mem_keys_set ..).1 hkey).imp_right (ha.noted key))
          · rcases (Assoc.mem_keys_set ..).1 hkey with rfl | hkey
            · exact Decidable.not_not.1 hknown
            · exact ha.known key hkey

theorem causeRef_inj {a b : Key} (ha : 1 ≤ a.2) (hb : 1 ≤ b.2) (h : causeRef a = causeRef b) : a = b := by
  obtain ⟨hseat, hindex⟩ := CauseRef.mk.inj h
  refine Prod.ext hseat ?_
  omega

theorem map_critique_noted {notes : Assoc Key Text240} {decisions : Assoc Key Decision}
    (h : ∀ e ∈ decisions, e.1 ∈ notes.keys) :
    (decisions.filterMap fun e => (notes.get? e.1).map fun note =>
      ({ critique := causeRef e.1, note := note } : CritiqueResponse)).map (·.critique)
        = decisions.map fun e => causeRef e.1 := by
  rw [List.map_filterMap, ← List.filterMap_eq_map]
  refine List.filterMap_congr fun e he => ?_
  obtain ⟨note, hnote⟩ := (Assoc.mem_keys_iff ..).1 (h e he)
  rw [hnote]
  rfl

/-- The critiques a list of responses answers: those of the decisions that
are wanted. -/
theorem responsesFor_perm {objections : Assoc Key Disagreement} {decisions : Assoc Key Decision}
    {notes : Assoc Key Text240} (ha : Answered objections decisions notes) (reviewers : List PyStr)
    (wanted : Decision → Bool) :
    ((responsesFor reviewers decisions notes wanted).map (·.critique)).Perm
      ((decisions.filter fun e => wanted e.2).map fun e => causeRef e.1) := by
  unfold responsesFor
  rw [map_critique_noted]
  · exact ((List.mergeSort_perm decisions _).filter _).map _
  · intro e he
    have hmem : e ∈ decisions := (List.mergeSort_perm decisions _).mem_iff.1 (List.mem_filter.1 he).1
    exact ha.noted e.1 (List.mem_map_of_mem hmem)

theorem countP_decisions (q : Key × Decision → Bool) (decisions : Assoc Key Decision) :
    (decisions.filter fun e => isAccepted e.2).countP q
      + (decisions.filter fun e => e.2 == .reject).countP q
      + (decisions.filter fun e => e.2 == .insufficientEvidence).countP q = decisions.countP q := by
  induction decisions with
  | nil => rfl
  | cons e rest ih =>
      obtain ⟨key, decision⟩ := e
      cases decision with
      | accept =>
          simp only [isAccepted, List.filter_cons, beq_self_eq_true, Bool.true_or, List.countP_cons,
            reduceCtorEq, beq_iff_eq, if_true, if_false] at ih ⊢
          omega
      | partly =>
          simp only [isAccepted, List.filter_cons, beq_self_eq_true, Bool.or_true, List.countP_cons,
            reduceCtorEq, beq_iff_eq, if_true, if_false] at ih ⊢
          omega
      | reject =>
          simp [isAccepted, List.countP_cons] at ih ⊢
          omega
      | insufficientEvidence =>
          simp [isAccepted, List.countP_cons] at ih ⊢
          omega

section Responses

variable {objections : Assoc Key Disagreement} {decisions : Assoc Key Decision}
  {notes : Assoc Key Text240} {reviewers : List PyStr} (ha : Answered objections decisions notes)

include ha

theorem mem_responsesFor {wanted : Decision → Bool} {cause : CauseRef} :
    cause ∈ (responsesFor reviewers decisions notes wanted).map (·.critique) ↔
      ∃ e ∈ decisions, wanted e.2 = true ∧ causeRef e.1 = cause := by
  rw [(responsesFor_perm ha reviewers wanted).mem_iff, List.mem_map]
  refine exists_congr fun e => ?_
  rw [List.mem_filter, and_assoc]

variable (hnumbered : ∀ key ∈ objections.keys, 1 ≤ key.2)

include hnumbered

theorem Answered.decision_eq {e e' : Key × Decision} (he : e ∈ decisions) (he' : e' ∈ decisions)
    (h : causeRef e.1 = causeRef e'.1) : e = e' := by
  have hpos : ∀ e ∈ decisions, 1 ≤ e.1.2 := fun e he =>
    hnumbered _ (ha.known _ (List.mem_map_of_mem he))
  have hkey := causeRef_inj (hpos e he) (hpos e' he') h
  exact List.inj_on_of_nodup_map ha.once he he' hkey

theorem Answered.count_eq_one {key : Key} (hkey : key ∈ decisions.keys) :
    ((responsesFor reviewers decisions notes isAccepted
      ++ responsesFor reviewers decisions notes (· == .reject)
      ++ responsesFor reviewers decisions notes (· == .insufficientEvidence)).map
        (·.critique)).count (causeRef key) = 1 := by
  have hcount : ∀ wanted : Decision → Bool,
      ((responsesFor reviewers decisions notes wanted).map (·.critique)).count (causeRef key)
        = (decisions.filter fun e => wanted e.2).countP fun e => causeRef e.1 == causeRef key := by
    intro wanted
    rw [(responsesFor_perm ha reviewers wanted).count_eq, List.count, List.countP_map]
    rfl
  obtain ⟨e, he, rfl⟩ := List.mem_map.1 hkey
  have hall : (decisions.map fun e => causeRef e.1).Nodup := by
    refine List.Nodup.map_on (fun a ha' b hb hab => ha.decision_eq hnumbered ha' hb hab) ?_
    exact ha.once.of_map _
  have hone := List.count_eq_one_of_mem hall (List.mem_map_of_mem he)
  rw [List.count, List.countP_map] at hone
  rw [List.map_append, List.map_append, List.count_append, List.count_append, hcount, hcount, hcount,
    countP_decisions]
  exact hone

end Responses

-- ===== the result

structure Made (cls : CharClasses) (draft : RevisionDraft) (seat : Seat) (p : Perspective)
    (critiques : List (PyStr × Critique)) (profile : PrefixedProfile) (r : Revision)
    (decisions : Assoc Key Decision) (notes : Assoc Key Text240) (st : EditState) : Prop where
  answered : answers (objectionsOf critiques) 0 draft.responses [] [] = .ok (decisions, notes)
  required : ∀ key ∈ requiredResponses critiques, key ∈ decisions.keys
  edited : applyEdits (objectionsOf critiques) decisions seat.claimPrefix p.claims 0
    { claims := p.claims, nextNumber := nextClaimNumber p } draft.edits = .ok st
  resting : strayDependency r.claims = none
  known : ∀ reviewer ∈ critiques.map (·.1), (profile.claimPrefix reviewer).isSome
  cited : foreignClaimIds cls (revisionTexts draft r.revisedPosition notes r.claims)
    (allowedPrefixes seat profile (critiques.map (·.1))) profile.prefixes = []
  seatId : r.seatId = seat.id
  status : r.status = .reaffirmed ↔ draft.edits = [] ∧ r.revisedPosition = p.position
    ∧ r.revisedConfidence = p.confidence
  changes : r.changes = st.changes
  accepted : r.accepted = responsesFor (critiques.map (·.1)) decisions notes isAccepted
  rejected : r.rejected = responsesFor (critiques.map (·.1)) decisions notes (· == .reject)
  deferred : r.deferred
    = responsesFor (critiques.map (·.1)) decisions notes (· == .insufficientEvidence)
  claims : r.claims = st.claims ++ st.additions
  disagreements : r.remainingDisagreements = draft.remainingDisagreements
  uncertainties : r.remainingUncertainties = draft.remainingUncertainties

theorem made_of_ok {cls : CharClasses} {draft : RevisionDraft} {seat : Seat} {p : Perspective}
    {profile : PrefixedProfile} {r : Revision}
    (h : revisionFromDraft cls draft seat p critiques profile = .ok r) :
    ∃ decisions notes st, Made cls draft seat p critiques profile r decisions notes st := by
  unfold revisionFromDraft at h
  dsimp only at h
  split at h
  next => cases h
  next decisions notes hanswers =>
    split at h
    next => cases h
    next hrequired =>
      split at h
      next => cases h
      next st hedits =>
        split at h
        next => cases h
        next =>
          split at h
          next => cases h
          next hresting =>
            split at h
            next => cases h
            next =>
              split at h
              next => cases h
              next hknown =>
                split at h
                next => cases h
                next hcited =>
                  cases h
                  refine ⟨decisions, notes, st, ?_⟩
                  constructor
                  case answered => exact hanswers
                  case required =>
                    intro key hkey
                    have hmem := List.find?_eq_none.1 hrequired key hkey
                    simpa using hmem
                  case edited => exact hedits
                  case resting => exact hresting
                  case known =>
                    intro reviewer hreviewer
                    have hsome := List.find?_eq_none.1 hknown reviewer hreviewer
                    simpa [Option.isSome_iff_ne_none] using hsome
                  case cited => exact hcited
                  case status => simp [and_assoc]
                  all_goals rfl

structure PatchWithCauses (seat : Seat) (p : Perspective) (critiques : List (PyStr × Critique))
    (r : Revision) : Prop where
  kept : r.claims.filter (·.id ∉ r.changes.map (·.claimId))
    = p.claims.filter (·.id ∉ r.changes.map (·.claimId))
  logged : ∀ id, (r.changes.filter (·.claimId = id)).map (·.change)
    = (kindOf (claimOf p.claims id) (claimOf r.claims id)).toList
  caused : ∀ change ∈ r.changes, ∀ cause ∈ change.causedBy, Objection critiques cause
    ∧ cause ∈ r.accepted.map (·.critique)
    ∧ cause ∉ r.rejected.map (·.critique) ∧ cause ∉ r.deferred.map (·.critique)
  fresh : ∀ change ∈ r.changes, change.change = .added →
    (∃ n, change.claimId = claimId seat.claimPrefix n) ∧ change.claimId ∉ p.claims.map (·.id)
  distinct : (r.claims.map (·.id)).Nodup
  answered : ∀ c ∈ critiques, ∀ (i : Nat) (d : Disagreement), c.2.disagreements[i]? = some d →
    d.severity = .major ∨ d.severity = .critical →
      ((r.accepted ++ r.rejected ++ r.deferred).map (·.critique)).count
        { reviewerSeat := c.1, objectionIndex := i } = 1
  reaffirmed : r.status = .reaffirmed ↔ r.claims = p.claims ∧ r.revisedPosition = p.position
    ∧ r.revisedConfidence = p.confidence

section Result

variable {cls : CharClasses} {draft : RevisionDraft} {seat : Seat} {p : Perspective}
  {critiques : List (PyStr × Critique)} {profile : PrefixedProfile} {r : Revision}
  {decisions : Assoc Key Decision} {notes : Assoc Key Text240} {st : EditState}
  (hm : Made cls draft seat p critiques profile r decisions notes st)

include hm

theorem Made.answers_ok : Answered (objectionsOf critiques) decisions notes := by
  have hnone : Answered (objectionsOf critiques) [] [] :=
    ⟨List.nodup_nil, fun key hkey => absurd hkey List.not_mem_nil,
      fun key hkey => absurd hkey List.not_mem_nil⟩
  exact answered_answers hnone hm.answered

theorem Made.applied : Applied (objectionsOf critiques) decisions seat.claimPrefix p.claims
    (nextClaimNumber p) draft.edits st :=
  applied_applyEdits p.ids_unique (fun _ hn => fresh_claimId hn) applied_nil hm.edited

theorem Made.logged (id : ClaimId) : (r.changes.filter (·.claimId = id)).map (·.change)
    = (kindOf (claimOf p.claims id) (claimOf r.claims id)).toList := by
  rw [hm.changes, hm.claims]
  exact hm.applied.logged id

theorem Made.named_iff {id : ClaimId} :
    id ∈ r.changes.map (·.claimId) ↔ kindOf (claimOf p.claims id) (claimOf r.claims id) ≠ none := by
  have hlogged := hm.logged id
  constructor
  · intro h hnone
    obtain ⟨change, hchange, hid⟩ := List.mem_map.1 h
    rw [hnone] at hlogged
    have hmem : change ∈ r.changes.filter (·.claimId = id) :=
      List.mem_filter.2 ⟨hchange, by simpa using hid⟩
    rw [List.map_eq_nil_iff.1 hlogged] at hmem
    exact List.not_mem_nil hmem
  · intro h
    obtain ⟨kind, hkind⟩ := Option.ne_none_iff_exists'.1 h
    rw [hkind] at hlogged
    have hmem : kind ∈ (r.changes.filter (·.claimId = id)).map (·.change) := by
      rw [hlogged]
      exact List.mem_singleton_self kind
    obtain ⟨change, hchange, -⟩ := List.mem_map.1 hmem
    obtain ⟨hin, hid⟩ := List.mem_filter.1 hchange
    exact List.mem_map.2 ⟨change, hin, by simpa using hid⟩

theorem Made.distinct : (r.claims.map (·.id)).Nodup := by
  have ha := hm.applied
  rw [hm.claims, List.map_append, ha.added]
  refine List.nodup_append.2 ⟨?_, ?_, ?_⟩
  · have hsub : (st.claims.map (·.id)).Sublist (p.claims.map (·.id)) := by
      rw [ha.claims]
      generalize p.claims = original
      induction original with
      | nil => exact List.Sublist.refl _
      | cons old rest ih =>
          rw [List.filterMap_cons]
          cases hrevised : revised draft.edits old with
          | none => exact ih.cons _
          | some new =>
              rw [List.map_cons, List.map_cons, id_of_revised hrevised]
              exact ih.cons_cons _
    exact p.ids_unique.sublist hsub
  · exact List.Nodup.map (claimId_injective seat.claimPrefix) List.nodup_range'
  · intro id hid other hother heq
    rw [← ha.added] at hother
    refine (ha.new_id (fun _ hn => fresh_claimId hn) hother).2 (heq ▸ ?_)
    rw [ha.claims] at hid
    obtain ⟨new, hnew, rfl⟩ := List.mem_map.1 hid
    obtain ⟨old, hold, hrevised⟩ := List.mem_filterMap.1 hnew
    exact List.mem_map.2 ⟨old, hold, (id_of_revised hrevised).symm⟩

theorem Made.added_new {change : Change} (hchange : change ∈ r.changes)
    (hadded : change.change = .added) :
    claimOf p.claims change.claimId = none ∧ change.claimId ∈ st.additions.map (·.id) := by
  have hlogged := hm.logged change.claimId
  have hmem : ChangeKind.added
      ∈ (kindOf (claimOf p.claims change.claimId) (claimOf r.claims change.claimId)).toList := by
    rw [← hlogged]
    refine List.mem_map.2 ⟨change, List.mem_filter.2 ⟨hchange, by simp⟩, hadded⟩
  cases hold : claimOf p.claims change.claimId with
  | some old =>
      rw [hold] at hmem
      cases hnew : claimOf r.claims change.claimId with
      | none =>
          rw [hnew] at hmem
          exact absurd (List.mem_singleton.1 hmem) (by decide)
      | some new =>
          rw [hnew] at hmem
          by_cases hsame : new = old
          · rw [hsame, kindOf_self] at hmem
            exact absurd hmem List.not_mem_nil
          · rw [kindOf_of_ne hsame] at hmem
            have hkind := List.mem_singleton.1 hmem
            unfold changeKind at hkind
            split at hkind
            next => split at hkind <;> cases hkind
            next => cases hkind
  | none =>
      refine ⟨rfl, ?_⟩
      rw [hold] at hmem
      cases hnew : claimOf r.claims change.claimId with
      | none =>
          rw [hnew] at hmem
          exact absurd hmem List.not_mem_nil
      | some new =>
          rw [hm.claims, claimOf_append, hm.applied.claims, claimOf_revised p.ids_unique, hold,
            Option.bind_none, Option.none_or] at hnew
          exact List.mem_map.2 ⟨new, List.mem_of_find?_eq_some hnew, id_of_claimOf hnew⟩

theorem Made.kept : r.claims.filter (·.id ∉ r.changes.map (·.claimId))
    = p.claims.filter (·.id ∉ r.changes.map (·.claimId)) := by
  have ha := hm.applied
  have hnone : st.additions.filter (·.id ∉ r.changes.map (·.claimId)) = [] := by
    refine List.filter_eq_nil_iff.2 fun c hc => ?_
    have hnew := (ha.new_id (fun _ hn => fresh_claimId hn) (List.mem_map_of_mem hc)).2
    have hin : c ∈ r.claims := hm.claims ▸ List.mem_append_right _ hc
    have hnamed : c.id ∈ r.changes.map (·.claimId) := by
      rw [hm.named_iff, claimOf_eq_none.2 hnew, claimOf_of_mem hm.distinct hin]
      exact fun h => by cases h
    simp only [hnamed, not_true_eq_false, decide_false, Bool.false_eq_true, not_false_eq_true]
  rw [hm.claims, List.filter_append, hnone, List.append_nil, ha.claims, List.filter_filterMap,
    ← List.filterMap_eq_filter]
  refine List.filterMap_congr fun old hold => ?_
  have hcurrent : claimOf r.claims old.id = revised draft.edits old := by
    rw [hm.claims]
    exact ha.claimOf_own p.ids_unique (fun _ hn => fresh_claimId hn) (claimOf_of_mem p.ids_unique hold)
  have hnamed := @Made.named_iff _ _ _ _ _ _ _ _ _ _ hm old.id
  rw [claimOf_of_mem p.ids_unique hold, hcurrent] at hnamed
  cases hrevised : revised draft.edits old with
  | none =>
      rw [hrevised] at hnamed
      have hin := hnamed.2 (fun h => by cases h)
      simp [Option.guard, hin]
  | some new =>
      rw [hrevised] at hnamed
      by_cases hsame : new = old
      · rw [hsame, kindOf_self] at hnamed
        have hout : old.id ∉ r.changes.map (·.claimId) := fun h => hnamed.1 h rfl
        rw [hsame]
        rfl
      · rw [kindOf_of_ne hsame] at hnamed
        have hin := hnamed.2 (fun h => by cases h)
        have hid := id_of_revised hrevised
        simp only [Option.filter_some, Option.guard, hid, hin, not_true_eq_false, decide_false,
          Bool.false_eq_true, if_false]

theorem Made.caused {change : Change} (hchange : change ∈ r.changes) {cause : CauseRef}
    (hcause : cause ∈ change.causedBy) :
    Objection critiques cause ∧ cause ∈ r.accepted.map (·.critique)
      ∧ cause ∉ r.rejected.map (·.critique) ∧ cause ∉ r.deferred.map (·.critique) := by
  have ha := hm.applied
  have hanswers := hm.answers_ok
  have hnumbered : ∀ key ∈ (objectionsOf critiques).keys, 1 ≤ key.2 := fun key hkey =>
    (objection_of_key hkey).1
  rw [hm.changes] at hchange
  obtain ⟨edit, hedit, -, hcauses⟩ := ha.caused change hchange
  rw [hcauses] at hcause
  obtain ⟨draftCause, hdraft, rfl⟩ := List.mem_map.1 hcause
  obtain ⟨hknown, hdecision⟩ := ha.holds edit hedit draftCause hdraft
  obtain ⟨decision, hget, haccepted⟩ :
      ∃ d, decisions.get? draftCause.key = some d ∧ isAccepted d = true := by
    rcases hdecision with h | h
    · exact ⟨_, h, rfl⟩
    · exact ⟨_, h, rfl⟩
  have hmem := (Assoc.get?_eq_some_iff hanswers.once).1 hget
  have hother : ∀ wanted : Decision → Bool, wanted decision = false →
      causeRef draftCause.key
        ∉ (responsesFor (critiques.map (·.1)) decisions notes wanted).map (·.critique) := by
    intro wanted hwanted h
    obtain ⟨e, he, hkind, hsame⟩ := (mem_responsesFor hanswers).1 h
    rw [hanswers.decision_eq hnumbered he hmem hsame, hwanted] at hkind
    cases hkind
  refine ⟨(objection_of_key hknown).2, ?_, ?_, ?_⟩
  · rw [hm.accepted]
    exact (mem_responsesFor hanswers).2 ⟨_, hmem, haccepted, rfl⟩
  · rw [hm.rejected]
    refine hother _ ?_
    cases decision with
    | reject => cases haccepted
    | _ => rfl
  · rw [hm.deferred]
    refine hother _ ?_
    cases decision with
    | insufficientEvidence => cases haccepted
    | _ => rfl

theorem Made.reaffirmed : r.status = .reaffirmed ↔ r.claims = p.claims
    ∧ r.revisedPosition = p.position ∧ r.revisedConfidence = p.confidence := by
  rw [hm.status]
  refine and_congr_left fun _ => ?_
  have ha := hm.applied
  constructor
  · intro hnone
    have hedited := hm.edited
    rw [hnone] at hedited
    cases hedited
    rw [hm.claims]
    exact List.append_nil _
  · intro hsame
    rcases List.eq_nil_or_concat r.changes with hnone | ⟨front, change, hchanges⟩
    · have hcount := ha.count
      rw [← hm.changes, hnone] at hcount
      exact List.eq_nil_of_length_eq_zero hcount.symm
    · have hnamed : change.claimId ∈ r.changes.map (·.claimId) := by
        rw [hchanges]
        simp
      rw [hm.named_iff, hsame, kindOf_self] at hnamed
      exact absurd rfl hnamed

end Result

/-- A revision of a perspective is a patch with causes. -/
theorem patchWithCauses {cls : CharClasses} {draft : RevisionDraft} {seat : Seat} {p : Perspective}
    {critiques : List (PyStr × Critique)} {profile : PrefixedProfile} {r : Revision}
    (hreviewers : (critiques.map (·.1)).Nodup)
    (h : revisionFromDraft cls draft seat p critiques profile = .ok r) :
    PatchWithCauses seat p critiques r := by
  obtain ⟨decisions, notes, st, hm⟩ := made_of_ok h
  constructor
  case kept => exact hm.kept
  case logged => exact hm.logged
  case caused => exact fun change hchange cause hcause => hm.caused hchange hcause
  case fresh =>
    intro change hchange hadded
    obtain ⟨hnone, hnew⟩ := hm.added_new hchange hadded
    obtain ⟨⟨n, hn, -⟩, hold⟩ := hm.applied.new_id (fun _ hn => fresh_claimId hn) hnew
    exact ⟨⟨n, hn⟩, hold⟩
  case distinct => exact hm.distinct
  case answered =>
    intro c hc i d hd hsevere
    have hkey := hm.required _ (mem_requiredResponses hreviewers hc hd hsevere)
    rw [hm.accepted, hm.rejected, hm.deferred]
    exact hm.answers_ok.count_eq_one (fun key hkey => (objection_of_key hkey).1) hkey
  case reaffirmed => exact hm.reaffirmed

-- ===== an analyst

def generalPrefix (seatId : PyStr) : PyStr :=
  if seatId = "analyst".toList then "AN".toList
  else if seatId = "skeptic".toList then "SK".toList
  else if seatId = "creative".toList then "CR".toList
  else if seatId = "fact_checker".toList then "FC".toList
  else if seatId = "practicalist".toList then "PR".toList
  else if seatId = "moderator".toList then "MO".toList
  else if seatId = "arbitrator".toList then "AR".toList
  else "SY".toList

def generalPrefixes : PrefixedProfile where
  toRoleProfile := generalProfile
  prefixOf := generalPrefix
  prefix_ok := by decide
  prefixes_unique := by decide

def asciiClasses : CharClasses where
  isWord := fun c => Text.isAlnum c || c == '_'
  isDecimal := Text.isDigit
  word_of_decimal := fun c h => by simp [Text.isAlnum, h]

def analystSeat : Seat where
  toSeatSpec := perspectiveSeat "analyst" analyst_slug
  claimPrefix := "AN".toList
  prefix_ok := by decide

def twoClaims : PerspectiveDraft where
  position := ⟨"Ship it.".toList, by decide, by decide⟩
  claims := [
    { text := ⟨"It is fast.".toList, by decide, by decide⟩, status := .inferred, confidence := 8000 },
    { text := ⟨"It is cheap.".toList, by decide, by decide⟩, status := .inferred, confidence := 6000,
      dependsOn := [1] }]
  confidence := 7000
  claims_ne := by decide
  claims_max := by decide

def analystView : Perspective where
  seatId := "analyst".toList
  position := ⟨"Ship it.".toList, by decide, by decide⟩
  claims := [
    { id := "AN-1".toList, text := ⟨"It is fast.".toList, by decide, by decide⟩, status := .inferred,
      confidence := 8000 },
    { id := "AN-2".toList, text := ⟨"It is cheap.".toList, by decide, by decide⟩, status := .inferred,
      confidence := 6000, dependsOn := ["AN-1".toList] }]
  confidence := 7000
  claims_ne := by decide
  claims_max := by decide
  ids_unique := by decide

theorem perspectiveFromDraft_twoClaims : perspectiveFromDraft twoClaims analystSeat = .ok analystView :=
  rfl

def skepticCritiques : List (PyStr × Critique) :=
  [("skeptic".toList, {
    reviewerSeat := "skeptic".toList
    targetSeat := "analyst".toList
    steelman := ⟨"Speed matters.".toList, by decide, by decide⟩
    disagreements := [{
      claimId := "AN-1".toList
      objection := ⟨"Nobody measured it.".toList, by decide, by decide⟩
      kind := .unsupported
      severity := .major }]
    confidence := 5000
    not_self := by decide })]

def skepticSlug : Slug := ⟨"skeptic".toList, by decide⟩

theorem first_numbered : 1 ≤ 1 ∧ 1 ≤ MAX_OBJECTIONS := by decide

theorem one_cause : 1 ≤ 1 ∧ 1 ≤ 4 := by decide

def acceptedDraft (edit : EditDraft) : RevisionDraft where
  responses := [{
    reviewer := skepticSlug
    objection := 1
    decision := .accept
    note := ⟨"True.".toList, by decide, by decide⟩
    numbered := first_numbered }]
  edits := [edit]
  responses_max := by decide
  edits_max := Nat.le_of_ble_eq_true rfl
  listed_max := by decide

def restOnSecond : EditDraft where
  op := .modify
  claimId := some "AN-1".toList
  dependsOn := some ["AN-2".toList]
  reason := ⟨"It is fast because it is cheap.".toList, by decide, by decide⟩
  causedBy := [{ reviewer := skepticSlug, objection := 1, numbered := first_numbered }]
  caused := one_cause
  depends_max := by decide

theorem revisionFromDraft_restOnSecond : ∃ r,
    revisionFromDraft asciiClasses (acceptedDraft restOnSecond) analystSeat analystView skepticCritiques
      generalPrefixes = .ok r
    ∧ r.claims.map (fun c => (c.id, c.dependsOn))
      = [("AN-1".toList, ["AN-2".toList]), ("AN-2".toList, ["AN-1".toList])] :=
  ⟨_, rfl, rfl⟩

theorem patchWithCauses_restOnSecond : ∃ r,
    revisionFromDraft asciiClasses (acceptedDraft restOnSecond) analystSeat analystView skepticCritiques
      generalPrefixes = .ok r
    ∧ PatchWithCauses analystSeat analystView skepticCritiques r := by
  obtain ⟨r, hr, -⟩ := revisionFromDraft_restOnSecond
  exact ⟨r, hr, patchWithCauses (by decide) hr⟩

end Velune.Council
