/-
What the texts of a critique and of a revision cite. A text is `Entitled`
when every claim id in it that is of a seat's is of one of its authors':
the seat itself and, for a critique, its target, for a revision, the
reviewers that addressed it. The check of the critiques sees all their
texts; the one of the revisions does not see what supports a claim, so
there it is left to the edits (`entitled_iff`).
-/
import Velune.Council.Proofs.Resting

namespace Velune.Council

open Lib

-- ===== vocabulary

def Entitled (cls : CharClasses) (profile : PrefixedProfile) (authors : List PyStr) (text : PyStr) :
    Prop :=
  ∀ ref ∈ claimRefs cls false text, ∀ spec ∈ profile.toRoleProfile.allSeats,
    profile.prefixOf spec.id = ref.1 → spec.id ∈ authors

structure Critique.Entitled (cls : CharClasses) (profile : PrefixedProfile) (c : Critique) :
    Prop where
  steelman : Council.Entitled cls profile [c.targetSeat, c.reviewerSeat] c.steelman.val
  objections : ∀ d ∈ c.disagreements,
    Council.Entitled cls profile [c.targetSeat, c.reviewerSeat] d.objection.val
  resolutions : ∀ d ∈ c.disagreements,
    Council.Entitled cls profile [c.targetSeat, c.reviewerSeat] d.suggestedResolution.val

structure Perspective.Entitled (cls : CharClasses) (profile : PrefixedProfile) (authors : List PyStr)
    (p : Perspective) : Prop where
  position : Council.Entitled cls profile authors p.position.val
  texts : ∀ c ∈ p.claims, Council.Entitled cls profile authors c.text.val
  supports : ∀ c ∈ p.claims, Council.Entitled cls profile authors c.support.val

structure Revision.Entitled (cls : CharClasses) (profile : PrefixedProfile) (authors : List PyStr)
    (r : Revision) : Prop where
  position : Council.Entitled cls profile authors r.revisedPosition.val
  reasons : ∀ change ∈ r.changes, Council.Entitled cls profile authors change.reason.val
  notes : ∀ response ∈ r.accepted ++ r.rejected ++ r.deferred,
    Council.Entitled cls profile authors response.note.val
  disagreements : ∀ text ∈ r.remainingDisagreements, Council.Entitled cls profile authors text.val
  uncertainties : ∀ text ∈ r.remainingUncertainties, Council.Entitled cls profile authors text.val
  texts : ∀ c ∈ r.claims, Council.Entitled cls profile authors c.text.val
  supports : ∀ c ∈ r.claims, Council.Entitled cls profile authors c.support.val

-- ===== the check

theorem PrefixedProfile.claimPrefix_iff (profile : PrefixedProfile) {id tag : PyStr} :
    profile.claimPrefix id = some tag ↔
      ∃ spec ∈ profile.toRoleProfile.allSeats, spec.id = id ∧ profile.prefixOf spec.id = tag := by
  unfold PrefixedProfile.claimPrefix RoleProfile.seat
  rw [Option.map_eq_some_iff]
  constructor
  · intro h
    obtain ⟨spec, hfound, htag⟩ := h
    have hid := List.find?_some hfound
    exact ⟨spec, List.mem_of_find?_eq_some hfound, by simpa using hid, htag⟩
  · intro h
    obtain ⟨spec, hmem, rfl, htag⟩ := h
    cases hfound : profile.toRoleProfile.allSeats.find? (·.id == spec.id) with
    | none => exact absurd (List.find?_eq_none.1 hfound spec hmem) (by simp)
    | some found =>
        have hid : found.id = spec.id := by
          have := List.find?_some hfound
          simpa using this
        exact ⟨found, rfl, by rw [hid]; exact htag⟩

/-- The search for foreign claim ids finds none exactly if the texts cite
only claims of the seats whose prefixes are allowed. -/
theorem foreignClaimIds_eq_nil {cls : CharClasses} {profile : PrefixedProfile} {authors : List PyStr}
    {texts : List PyStr} :
    foreignClaimIds cls texts (authors.filterMap profile.claimPrefix) profile.prefixes = []
      ↔ ∀ text ∈ texts, Entitled cls profile authors text := by
  have hallowed : ∀ tag, tag ∈ authors.filterMap profile.claimPrefix ↔
      ∃ spec ∈ profile.toRoleProfile.allSeats, spec.id ∈ authors ∧ profile.prefixOf spec.id = tag := by
    intro tag
    rw [List.mem_filterMap]
    constructor
    · intro h
      obtain ⟨id, hid, htag⟩ := h
      obtain ⟨spec, hspec, rfl, hprefixed⟩ := profile.claimPrefix_iff.1 htag
      exact ⟨spec, hspec, hid, hprefixed⟩
    · intro h
      obtain ⟨spec, hspec, hid, htag⟩ := h
      exact ⟨spec.id, hid, profile.claimPrefix_iff.2 ⟨spec, hspec, rfl, htag⟩⟩
  have hknown : ∀ tag, tag ∈ profile.prefixes ↔
      ∃ spec ∈ profile.toRoleProfile.allSeats, profile.prefixOf spec.id = tag := fun tag => List.mem_map
  unfold foreignClaimIds
  rw [List.map_eq_nil_iff, List.filter_eq_nil_iff]
  simp only [List.mem_flatMap, Bool.and_eq_true, List.contains_iff_mem, Bool.not_eq_true',
    Bool.eq_false_iff, ne_eq, not_and, not_not, hknown, hallowed]
  constructor
  · intro h text htext ref href spec hspec htag
    obtain ⟨found, hfound, hauthor, hsame⟩ := h ref ⟨text, htext, href⟩ ⟨spec, hspec, htag⟩
    have heq : found = spec :=
      List.inj_on_of_nodup_map profile.prefixes_unique hfound hspec (hsame.trans htag.symm)
    exact heq ▸ hauthor
  · intro h ref href hseat
    obtain ⟨text, htext, hcites⟩ := href
    obtain ⟨spec, hspec, htag⟩ := hseat
    exact ⟨spec, hspec, h text htext ref hcites spec hspec htag, htag⟩

-- ===== critiques

section Critiques

variable {cls : CharClasses} {reviewer : Seat} {shown : Assoc PyStr (List ClaimId)}
  {profile : PrefixedProfile}

theorem entitled_critiqueOf (hreviewer : profile.claimPrefix reviewer.id = some reviewer.claimPrefix)
    {index : Nat} {review : ReviewDraft} {c : Critique}
    (h : critiqueOf cls reviewer shown profile index review = .ok c) : c.Entitled cls profile := by
  unfold critiqueOf at h
  dsimp only at h
  split at h
  next => cases h
  next =>
    split at h
    next => cases h
    next =>
      split at h
      next => cases h
      next =>
        split at h
        next => cases h
        next targetPrefix htarget =>
          split at h
          next => cases h
          next hnone =>
            split at h
            next =>
              cases h
              have hallowed : [targetPrefix, reviewer.claimPrefix]
                  = [review.target, reviewer.id].filterMap profile.claimPrefix := by
                simp [htarget, hreviewer]
              rw [hallowed, foreignClaimIds_eq_nil] at hnone
              unfold ReviewDraft.texts at hnone
              constructor
              case steelman => exact hnone _ (by simp)
              case objections =>
                intro d hd
                obtain ⟨item, hitem, rfl⟩ := List.mem_map.1 hd
                refine hnone _ (List.mem_append_left _ (List.mem_cons_of_mem _ ?_))
                exact List.mem_map.2 ⟨item, hitem, rfl⟩
              case resolutions =>
                intro d hd
                obtain ⟨item, hitem, rfl⟩ := List.mem_map.1 hd
                exact hnone _ (List.mem_append_right _ (List.mem_map.2 ⟨item, hitem, rfl⟩))
            next => cases h

theorem critiqueOf_of_mem {cs : List Critique} {c : Critique} : ∀ {reviews : List ReviewDraft} {index : Nat},
    critiquesOf cls reviewer shown profile index reviews = .ok cs → c ∈ cs →
      ∃ i review, critiqueOf cls reviewer shown profile i review = .ok c := by
  intro reviews
  induction reviews generalizing cs with
  | nil =>
      intro index h hc
      cases h
      exact absurd hc List.not_mem_nil
  | cons review rest ih =>
      intro index h hc
      unfold critiquesOf at h
      split at h
      next => cases h
      next first hfirst =>
        split at h
        next => cases h
        next others hothers =>
          cases h
          rcases List.mem_cons.1 hc with rfl | hc
          · exact ⟨index, review, hfirst⟩
          · exact ih hothers hc

theorem entitled_critiquesFromDraft
    (hreviewer : profile.claimPrefix reviewer.id = some reviewer.claimPrefix) {draft : ReviewReplyDraft}
    {cs : List Critique} (h : critiquesFromDraft cls draft reviewer shown profile = .ok cs) :
    ∀ c ∈ cs, c.Entitled cls profile := by
  intro c hc
  unfold critiquesFromDraft at h
  dsimp only at h
  split at h
  next => cases h
  next =>
    split at h
    next => cases h
    next =>
      split at h
      next => cases h
      next critiques hcritiques =>
        split at h
        next => cases h
        next =>
          cases h
          have hmem : c ∈ critiques := (List.mergeSort_perm critiques _).mem_iff.1 hc
          obtain ⟨i, review, hone⟩ := critiqueOf_of_mem hcritiques hmem
          exact entitled_critiqueOf hreviewer hone

end Critiques

-- ===== revisions

theorem note_of_responsesFor {reviewers : List PyStr} {decisions : Assoc Key Decision}
    {notes : Assoc Key Text240} {wanted : Decision → Bool} {response : CritiqueResponse}
    (h : response ∈ responsesFor reviewers decisions notes wanted) :
    response.note ∈ notes.map (·.2) := by
  unfold responsesFor at h
  obtain ⟨e, -, hnote⟩ := List.mem_filterMap.1 h
  obtain ⟨note, hget, rfl⟩ := Option.map_eq_some_iff.1 hnote
  exact List.mem_map_of_mem (Assoc.mem_of_get? hget)

section Revisions

variable {cls : CharClasses} {draft : RevisionDraft} {seat : Seat} {p : Perspective}
  {critiques : List (PyStr × Critique)} {profile : PrefixedProfile} {r : Revision}
  {decisions : Assoc Key Decision} {notes : Assoc Key Text240} {st : EditState}
  (hm : Made cls draft seat p critiques profile r decisions notes st)

include hm

theorem Made.searched (hseat : profile.claimPrefix seat.id = some seat.claimPrefix) :
    ∀ text ∈ revisionTexts draft r.revisedPosition notes r.claims,
      Entitled cls profile (seat.id :: critiques.map (·.1)) text := by
  refine foreignClaimIds_eq_nil.1 ?_
  rw [List.filterMap_cons_some hseat]
  exact hm.cited

theorem Made.support_mem {edit : EditDraft} (hedit : edit ∈ draft.edits) {support : MaybeText 200}
    (hsupport : edit.support = some support) : ∃ c ∈ r.claims, c.support = support := by
  have hshaped := hm.applied.shaped edit hedit
  by_cases hadd : edit.op = .add
  · obtain ⟨before, after, hparts⟩ := List.append_of_mem hedit
    obtain ⟨c, hc⟩ := Option.isSome_iff_exists.1
      (hshaped.add hadd (claimId seat.claimPrefix (nextClaimNumber p + addCount before)))
    refine ⟨c, hm.mem_claims.2 (.inr (mem_additionsFrom.2 ⟨before, edit, after, hparts, hadd, hc⟩)), ?_⟩
    unfold EditDraft.claim at hc
    split at hc
    next =>
      cases hc
      rw [hsupport]
      rfl
    next => cases hc
  · obtain ⟨id, hid⟩ := Option.isSome_iff_exists.1 (hshaped.modify hadd)
    have hown : id ∈ p.claims.map (·.id) := by
      refine hm.applied.own id ?_
      rw [hm.applied.touched]
      exact List.mem_filterMap.2 ⟨edit, hedit, hid⟩
    obtain ⟨old, hold, rfl⟩ := List.mem_map.1 hown
    have hop : edit.op ≠ .retract := by
      intro hretract
      have hbare := hshaped.retract hretract
      unfold EditDraft.provides at hbare
      simp [hsupport] at hbare
    have hrevised : revised draft.edits old = some (edit.patch old) := by
      rw [revised_of_some (editOf_of_mem hm.once hedit hid)]
      exact if_neg hop
    refine ⟨edit.patch old, hm.mem_claims.2 (.inl ⟨old, hold, hrevised⟩), ?_⟩
    unfold EditDraft.patch
    rw [hsupport]
    rfl

/-- The support of a claim is the one it had, none, or one an edit gives. -/
theorem Made.support_cases {c : Claim} (hc : c ∈ r.claims) :
    (∃ old ∈ p.claims, c.support = old.support) ∨ c.support.val = []
      ∨ ∃ edit ∈ draft.edits, edit.support = some c.support := by
  rcases hm.mem_claims.1 hc with ⟨old, hold, hrevised⟩ | hadded
  · cases hedit : editOf draft.edits old.id with
    | none =>
        rw [revised_of_none hedit] at hrevised
        exact .inl ⟨old, hold, congrArg Claim.support (Option.some.inj hrevised).symm⟩
    | some edit =>
        rw [revised_of_some hedit] at hrevised
        unfold EditDraft.revise at hrevised
        split at hrevised
        next => cases hrevised
        next =>
          rw [← Option.some.inj hrevised]
          cases hsupport : edit.support with
          | none => exact .inl ⟨old, hold, by unfold EditDraft.patch; rw [hsupport]; rfl⟩
          | some support =>
              refine .inr (.inr ⟨edit, List.mem_of_find?_eq_some hedit, ?_⟩)
              unfold EditDraft.patch
              rw [hsupport]
              rfl
  · obtain ⟨before, edit, after, heq, -, hclaim⟩ := mem_additionsFrom.1 hadded
    unfold EditDraft.claim at hclaim
    split at hclaim
    next =>
      cases hclaim
      cases hsupport : edit.support with
      | none => exact .inr (.inl rfl)
      | some support => exact .inr (.inr ⟨edit, by rw [heq]; simp, hsupport⟩)
    next => cases hclaim

/-- A revision is entitled to all it cites exactly if what its edits give as
support is. -/
theorem Made.entitled_seat_iff (hseat : profile.claimPrefix seat.id = some seat.claimPrefix)
    (hp : p.Entitled cls profile (seat.id :: critiques.map (·.1))) :
    r.Entitled cls profile (seat.id :: critiques.map (·.1)) ↔ ∀ edit ∈ draft.edits,
      ∀ support, edit.support = some support →
        Entitled cls profile (seat.id :: critiques.map (·.1)) support.val := by
  have hsearched := hm.searched hseat
  unfold revisionTexts at hsearched
  constructor
  · intro h edit hedit support hsupport
    obtain ⟨c, hc, rfl⟩ := hm.support_mem hedit hsupport
    exact h.supports c hc
  · intro h
    constructor
    case position => exact hsearched _ (by simp)
    case reasons =>
      intro change hchange
      obtain ⟨edit, hedit, hreason, -⟩ := hm.applied.caused change (hm.changes ▸ hchange)
      rw [hreason]
      refine hsearched _ (List.mem_append_left _ (List.mem_append_right _ ?_))
      exact List.mem_map.2 ⟨edit, hedit, rfl⟩
    case notes =>
      intro response hresponse
      have hnote : response.note ∈ notes.map (·.2) := by
        rw [hm.accepted, hm.rejected, hm.deferred, List.mem_append, List.mem_append] at hresponse
        rcases hresponse with (h | h) | h
        · exact note_of_responsesFor h
        · exact note_of_responsesFor h
        · exact note_of_responsesFor h
      obtain ⟨e, he, hsame⟩ := List.mem_map.1 hnote
      refine hsearched _ (List.mem_append_left _ (List.mem_append_left _ (List.mem_append_right _ ?_)))
      exact List.mem_map.2 ⟨e, he, congrArg CappedText.val hsame⟩
    case disagreements =>
      intro text htext
      rw [hm.disagreements] at htext
      refine hsearched _ ?_
      simp only [List.mem_append]
      exact .inl (.inl (.inl (.inl (.inr (List.mem_map.2 ⟨text, htext, rfl⟩)))))
    case uncertainties =>
      intro text htext
      rw [hm.uncertainties] at htext
      refine hsearched _ ?_
      simp only [List.mem_append]
      exact .inl (.inl (.inl (.inr (List.mem_map.2 ⟨text, htext, rfl⟩))))
    case texts =>
      intro c hc
      exact hsearched _ (List.mem_append_right _ (List.mem_map.2 ⟨c, hc, rfl⟩))
    case supports =>
      intro c hc
      rcases hm.support_cases hc with ⟨old, hold, hsame⟩ | hnone | ⟨edit, hedit, hsupport⟩
      · exact hsame ▸ hp.supports old hold
      · rw [hnone]
        exact fun ref href => absurd href List.not_mem_nil
      · exact h edit hedit c.support hsupport

end Revisions

def supportByCreative : EditDraft where
  op := .modify
  claimId := some "AN-1".toList
  support := some ⟨"See CR-1.".toList, by decide⟩
  reason := ⟨"It was measured.".toList, by decide, by decide⟩
  causedBy := [{ reviewer := skepticSlug, objection := 1, numbered := first_numbered }]
  caused := one_cause
  depends_max := by decide

theorem revisionFromDraft_supportByCreative : ∃ r,
    revisionFromDraft asciiClasses (acceptedDraft supportByCreative) analystSeat analystView
      skepticCritiques generalPrefixes = .ok r
    ∧ "See CR-1.".toList ∈ r.claims.map (·.support.val) :=
  ⟨_, rfl, by decide⟩

theorem entitled_analystView (authors : List PyStr) :
    analystView.Entitled asciiClasses generalPrefixes authors := by
  have hnone : ∀ text : PyStr, claimRefs asciiClasses false text = [] →
      Entitled asciiClasses generalPrefixes authors text := by
    intro text hrefs ref href
    rw [hrefs] at href
    exact absurd href List.not_mem_nil
  constructor
  case position => exact hnone _ (by decide)
  case texts =>
    intro c hc
    refine hnone _ ?_
    rcases List.mem_cons.1 hc with rfl | hc
    · decide
    · rw [List.mem_singleton.1 hc]
      decide
  case supports =>
    intro c hc
    refine hnone _ ?_
    rcases List.mem_cons.1 hc with rfl | hc
    · decide
    · rw [List.mem_singleton.1 hc]
      decide

theorem confidence_lt : 5000 < 10001 := by decide

def skepticReply : ReviewReplyDraft where
  reviews := [{
    target := "analyst".toList
    steelman := ⟨"AN-1 is the point.".toList, by decide, by decide⟩
    agreements := ["AN-1".toList]
    noMaterialIssues := true
    confidence := ⟨5000, confidence_lt⟩
    agreements_max := by decide
    disagreements_max := by decide }]
  reviews_ne := by decide
  reviews_max := by decide

def skepticSeat : Seat where
  toSeatSpec := perspectiveSeat "skeptic" skeptic_slug
  claimPrefix := "SK".toList
  prefix_ok := by decide

theorem critiquesFromDraft_skepticReply : ∃ cs,
    critiquesFromDraft asciiClasses skepticReply skepticSeat [("analyst".toList, ["AN-1".toList])]
      generalPrefixes = .ok cs :=
  ⟨_, rfl⟩

end Velune.Council
