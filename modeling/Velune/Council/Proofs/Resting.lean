/-
What the claims of a revision rest on. In a perspective a claim rests on
earlier ones, so none on itself. A revision keeps them among its own
claims, and none resting on itself exactly when no dependency that an edit
gives on a claim of no lower number can be gone back (`rests_sound_iff`).
-/
import Velune.Council.Proofs.Revision
import Velune.Lib.Topo

namespace Velune.Council

open Lib Relation

-- ===== vocabulary

/-- The claim `b` rests on `a`. -/
def Rests (claims : List Claim) (a b : ClaimId) : Prop :=
  ∃ c ∈ claims, c.id = b ∧ a ∈ c.dependsOn

structure Sound (claims : List Claim) : Prop where
  own : ∀ a b, Rests claims a b → a ∈ claims.map (·.id) ∧ b ∈ claims.map (·.id)
  acyclic : Topo.Acyclic (Rests claims)

/-- An edit makes `b` rest on `a`. -/
inductive ByEdit (p : Perspective) (claimPrefix : PyStr) (edits : List EditDraft) :
    ClaimId → ClaimId → Prop
  | modified (edit : EditDraft) (a b : ClaimId) (deps : List ClaimId) : edit ∈ edits →
      edit.op ≠ .retract → edit.claimId = some b → edit.dependsOn = some deps → a ∈ deps →
      ByEdit p claimPrefix edits a b
  | added (before : List EditDraft) (edit : EditDraft) (after : List EditDraft) (c : Claim)
      (a : ClaimId) : edits = before ++ edit :: after → edit.op = .add →
      edit.claim (claimId claimPrefix (nextClaimNumber p + addCount before)) = some c →
      a ∈ c.dependsOn → ByEdit p claimPrefix edits a c.id

/-- No edit takes away what `b` rests on. -/
def Spared (edits : List EditDraft) (b : ClaimId) : Prop :=
  ∀ edit ∈ edits, edit.claimId = some b → edit.op ≠ .retract ∧ edit.dependsOn = none

/-- After the edits `b` rests on `a`. -/
def Given (p : Perspective) (claimPrefix : PyStr) (edits : List EditDraft) (a b : ClaimId) : Prop :=
  ByEdit p claimPrefix edits a b ∨ Rests p.claims a b ∧ Spared edits b

/-- No edit makes a claim rest on one of no lower number that rests on
it. -/
def NoWayBack (p : Perspective) (claimPrefix : PyStr) (edits : List EditDraft) : Prop :=
  ∀ a b, ByEdit p claimPrefix edits a b → claimNumber b ≤ claimNumber a →
    ¬ReflTransGen (Given p claimPrefix edits) b a

-- ===== perspectives

theorem lt_of_claimsFromDraft {claimPrefix : PyStr} :
    ∀ {items : List ClaimDraft} {number : Nat} {claims : List Claim},
      claimsFromDraft claimPrefix number items = .ok claims →
        ∀ c ∈ claims, ∀ dep ∈ c.dependsOn, claimNumber dep < claimNumber c.id := by
  intro items
  induction items with
  | nil =>
      intro number claims h c hc
      cases h
      exact absurd hc List.not_mem_nil
  | cons item rest ih =>
      intro number claims h
      unfold claimsFromDraft at h
      split at h
      next => cases h
      next hdeps =>
        split at h
        next =>
          split at h
          next => cases h
          next claims' hrest =>
            cases h
            refine List.forall_mem_cons.2 ⟨fun dep hdep => ?_, ih hrest⟩
            obtain ⟨n, hn, rfl⟩ := List.mem_map.1 hdep
            have hbounds := List.find?_eq_none.1 hdeps n hn
            simp only [decide_not, Bool.not_eq_true', decide_eq_false_iff_not, not_not] at hbounds
            rw [claimNumber_claimId, claimNumber_claimId]
            omega
        next => cases h

theorem lt_of_rests {view : PerspectiveDraft} {seat : Seat} {p : Perspective}
    (h : perspectiveFromDraft view seat = .ok p) {a b : ClaimId} (hab : Rests p.claims a b) :
    claimNumber a < claimNumber b := by
  obtain ⟨c, hc, rfl, hdep⟩ := hab
  exact lt_of_claimsFromDraft (perspectiveFromDraft_eq h).1 c hc a hdep

-- ===== revisions

theorem mem_additionsFrom {claimPrefix : PyStr} {c : Claim} :
    ∀ {edits : List EditDraft} {n : Nat}, c ∈ additionsFrom claimPrefix n edits ↔
      ∃ before edit after, edits = before ++ edit :: after ∧ edit.op = .add
        ∧ edit.claim (claimId claimPrefix (n + addCount before)) = some c := by
  intro edits
  induction edits using List.reverseRecOn with
  | nil =>
      intro n
      refine iff_of_false List.not_mem_nil fun h => ?_
      obtain ⟨before, edit, after, heq, -⟩ := h
      simp at heq
  | append_singleton edits last ih =>
      intro n
      rw [additionsFrom_concat, List.mem_append, ih]
      constructor
      · intro h
        rcases h with ⟨before, edit, after, rfl, hadd, hclaim⟩ | h
        · exact ⟨before, edit, after ++ [last], by simp, hadd, hclaim⟩
        · unfold additionsFrom at h
          split at h
          next hadd =>
            refine ⟨edits, last, [], rfl, hadd, ?_⟩
            simpa [additionsFrom] using h
          next => exact absurd h List.not_mem_nil
      · intro h
        obtain ⟨before, edit, after, heq, hadd, hclaim⟩ := h
        rcases List.eq_nil_or_concat after with rfl | ⟨front, final, rfl⟩
        · obtain ⟨rfl, hlast⟩ := List.append_inj' heq rfl
          cases hlast
          refine .inr ?_
          unfold additionsFrom
          rw [if_pos hadd, hclaim]
          exact List.mem_append_left _ (List.mem_singleton_self c)
        · rw [List.concat_eq_append, ← List.cons_append, ← List.append_assoc] at heq
          obtain ⟨rfl, -⟩ := List.append_inj' heq rfl
          exact .inl ⟨before, edit, front, rfl, hadd, hclaim⟩

theorem editOf_of_mem {edits : List EditDraft} (honce : (edits.filterMap (·.claimId)).Nodup)
    {edit : EditDraft} {id : ClaimId} (hmem : edit ∈ edits) (hid : edit.claimId = some id) :
    editOf edits id = some edit := by
  obtain ⟨before, after, rfl⟩ := List.append_of_mem hmem
  have hnew : id ∉ before.filterMap (·.claimId) := by
    rw [List.filterMap_append, List.filterMap_cons_some hid] at honce
    exact fun h => (List.nodup_append.1 honce).2.2 id h id (List.mem_cons_self ..) rfl
  unfold editOf
  rw [List.find?_append, show before.find? _ = none from editOf_eq_none.2 hnew, Option.none_or,
    List.find?_cons_of_pos (by simp [hid])]

section Revisions

variable {cls : CharClasses} {draft : RevisionDraft} {seat : Seat} {p : Perspective}
  {critiques : List (PyStr × Critique)} {profile : PrefixedProfile} {r : Revision}
  {decisions : Assoc Key Decision} {notes : Assoc Key Text240} {st : EditState}
  (hm : Made cls draft seat p critiques profile r decisions notes st)

include hm

theorem Made.once : (draft.edits.filterMap (·.claimId)).Nodup := hm.applied.touched ▸ hm.applied.once

/-- The claims of a revision: those of the perspective as the edits leave
them, and those the edits add. -/
theorem Made.mem_claims {c : Claim} : c ∈ r.claims ↔
    (∃ old ∈ p.claims, revised draft.edits old = some c)
      ∨ c ∈ additionsFrom seat.claimPrefix (nextClaimNumber p) draft.edits := by
  rw [hm.claims, List.mem_append, hm.applied.claims, hm.applied.additions, List.mem_filterMap]

/-- What the claims of a revision rest on can be told from the edits. -/
theorem Made.rests_iff {a b : ClaimId} :
    Rests r.claims a b ↔ Given p seat.claimPrefix draft.edits a b := by
  constructor
  · intro h
    obtain ⟨c, hc, rfl, hdep⟩ := h
    rcases hm.mem_claims.1 hc with ⟨old, hold, hrevised⟩ | hadded
    · have hid := id_of_revised hrevised
      cases hedit : editOf draft.edits old.id with
      | none =>
          rw [revised_of_none hedit] at hrevised
          have hsame : old = c := Option.some.inj hrevised
          subst hsame
          refine .inr ⟨⟨old, hold, rfl, hdep⟩, fun edit hmem hnamed => ?_⟩
          rw [editOf_of_mem hm.once hmem hnamed] at hedit
          cases hedit
      | some edit =>
          have hmem : edit ∈ draft.edits := List.mem_of_find?_eq_some hedit
          have hnamed : edit.claimId = some old.id := by
            have := List.find?_some hedit
            simpa using this
          rw [revised_of_some hedit] at hrevised
          unfold EditDraft.revise at hrevised
          split at hrevised
          next => cases hrevised
          next hop =>
            rw [← Option.some.inj hrevised] at hdep ⊢
            cases hdeps : edit.dependsOn with
            | none =>
                have hkept : a ∈ old.dependsOn := by
                  unfold EditDraft.patch at hdep
                  rw [hdeps] at hdep
                  exact hdep
                refine .inr ⟨⟨old, hold, rfl, hkept⟩, fun other hother hsame => ?_⟩
                rw [editOf_of_mem hm.once hother (show other.claimId = some old.id from hsame)] at hedit
                cases hedit
                exact ⟨hop, hdeps⟩
            | some deps =>
                have hgiven : a ∈ deps := by
                  unfold EditDraft.patch at hdep
                  rw [hdeps] at hdep
                  exact hdep
                exact .inl (.modified edit a old.id deps hmem hop hnamed hdeps hgiven)
    · obtain ⟨before, edit, after, heq, hadd, hclaim⟩ := mem_additionsFrom.1 hadded
      exact .inl (.added before edit after c a heq hadd hclaim hdep)
  · intro h
    rcases h with h | ⟨⟨old, hold, rfl, hdep⟩, hspared⟩
    · cases h with
      | modified edit a b deps hmem hop hnamed hdeps hgiven =>
          have hown : b ∈ p.claims.map (·.id) := by
            refine hm.applied.own b ?_
            rw [hm.applied.touched]
            exact List.mem_filterMap.2 ⟨edit, hmem, hnamed⟩
          obtain ⟨old, hold, rfl⟩ := List.mem_map.1 hown
          have hrevised : revised draft.edits old = some (edit.patch old) := by
            rw [revised_of_some (editOf_of_mem hm.once hmem hnamed)]
            exact if_neg hop
          refine ⟨edit.patch old, hm.mem_claims.2 (.inl ⟨old, hold, hrevised⟩), rfl, ?_⟩
          unfold EditDraft.patch
          rw [hdeps]
          exact hgiven
      | added before edit after c a heq hadd hclaim hdep =>
          exact ⟨c, hm.mem_claims.2 (.inr (mem_additionsFrom.2 ⟨before, edit, after, heq, hadd, hclaim⟩)),
            rfl, hdep⟩
    · cases hedit : editOf draft.edits old.id with
      | none => exact ⟨old, hm.mem_claims.2 (.inl ⟨old, hold, revised_of_none hedit⟩), rfl, hdep⟩
      | some edit =>
          have hnamed : edit.claimId = some old.id := by
            have := List.find?_some hedit
            simpa using this
          obtain ⟨hop, hdeps⟩ := hspared edit (List.mem_of_find?_eq_some hedit) hnamed
          have hrevised : revised draft.edits old = some (edit.patch old) := by
            rw [revised_of_some hedit]
            exact if_neg hop
          refine ⟨edit.patch old, hm.mem_claims.2 (.inl ⟨old, hold, hrevised⟩), rfl, ?_⟩
          unfold EditDraft.patch
          rw [hdeps]
          exact hdep

theorem Made.own {a b : ClaimId} (h : Rests r.claims a b) :
    a ∈ r.claims.map (·.id) ∧ b ∈ r.claims.map (·.id) := by
  obtain ⟨c, hc, rfl, hdep⟩ := h
  refine ⟨?_, List.mem_map_of_mem hc⟩
  have hnone := List.findSome?_eq_none_iff.1 hm.resting c hc
  rw [Option.map_eq_none_iff, List.find?_eq_none] at hnone
  have hstray := hnone a hdep
  simp only [decide_eq_true_eq, not_or, not_not] at hstray
  exact hstray.2

end Revisions

/-- The claims of a revision rest soundly on one another exactly if no edit
makes one rest on one of no lower number that rests on it. -/
theorem rests_sound_iff {cls : CharClasses} {view : PerspectiveDraft} {draft : RevisionDraft}
    {seat : Seat} {p : Perspective} {critiques : List (PyStr × Critique)}
    {profile : PrefixedProfile} {r : Revision} (hview : perspectiveFromDraft view seat = .ok p)
    (h : revisionFromDraft cls draft seat p critiques profile = .ok r) :
    Sound r.claims ↔ NoWayBack p seat.claimPrefix draft.edits := by
  obtain ⟨decisions, notes, st, hm⟩ := made_of_ok h
  have hrests : Rests r.claims = Given p seat.claimPrefix draft.edits := by
    funext a b
    exact propext hm.rests_iff
  have hranked : Topo.Acyclic (Rests r.claims) ↔ NoWayBack p seat.claimPrefix draft.edits := by
    rw [hrests, Topo.acyclic_iff_rank claimNumber]
    refine forall₂_congr fun a b => ⟨fun hall hedit => hall (.inl hedit), fun hall hgiven hle => ?_⟩
    rcases hgiven with hedit | ⟨hold, -⟩
    · exact hall hedit hle
    · exact absurd (lt_of_rests hview hold) (Nat.not_lt.2 hle)
  exact ⟨fun hsound => hranked.1 hsound.acyclic,
    fun hback => ⟨fun a b hab => hm.own hab, hranked.2 hback⟩⟩

theorem rests_sound_iff_analyst : ∃ r,
    revisionFromDraft asciiClasses (acceptedDraft restOnSecond) analystSeat analystView skepticCritiques
      generalPrefixes = .ok r
    ∧ (Sound r.claims ↔ NoWayBack analystView analystSeat.claimPrefix [restOnSecond]) := by
  obtain ⟨r, hr, -⟩ := revisionFromDraft_restOnSecond
  exact ⟨r, hr, rests_sound_iff perspectiveFromDraft_twoClaims hr⟩

/-- Two claims of a revision may rest on each other. -/
theorem not_sound_restOnSecond : perspectiveFromDraft twoClaims analystSeat = .ok analystView ∧ ∃ r,
    revisionFromDraft asciiClasses (acceptedDraft restOnSecond) analystSeat analystView skepticCritiques
      generalPrefixes = .ok r
    ∧ ¬Sound r.claims := by
  obtain ⟨r, hr, hclaims⟩ := revisionFromDraft_restOnSecond
  refine ⟨perspectiveFromDraft_twoClaims, r, hr, fun hsound => hsound.acyclic "AN-1".toList ?_⟩
  have hrests : ∀ a b, (b, [a]) ∈ r.claims.map (fun c => (c.id, c.dependsOn)) → Rests r.claims a b := by
    intro a b hab
    obtain ⟨c, hc, heq⟩ := List.mem_map.1 hab
    obtain ⟨hid, hdeps⟩ := Prod.mk.inj heq
    exact ⟨c, hc, hid, hdeps ▸ List.mem_singleton_self a⟩
  rw [hclaims] at hrests
  have hfirst := hrests "AN-2".toList "AN-1".toList (List.mem_cons_self ..)
  have hsecond := hrests "AN-1".toList "AN-2".toList (List.mem_cons_of_mem _ (List.mem_cons_self ..))
  exact .tail (.single hsecond) hfirst

end Velune.Council
