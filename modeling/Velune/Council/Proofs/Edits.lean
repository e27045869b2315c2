/-
The loop of a revision over its edits folds four collections. `Applied`
says what they are after any sequence of edits: the claims that are left
are those of the perspective as the edits made so far leave them, the new
ones are numbered on from the first free number, and the changes with a
claim's id are the one that leads from the claim it was to the claim it
is. One edit keeps this (`Applied.concat`), so a run does
(`applied_applyEdits`).
-/
import Mathlib.Data.List.Nodup
import Velune.Council.Revision

namespace Velune.Council

open Lib

-- ===== numbers

theorem claimId_injective (claimPrefix : PyStr) : Function.Injective (claimId claimPrefix) := by
  intro m n h
  have hdigits := (List.cons.inj (List.append_cancel_left h)).2
  have hnumbers := congrArg (fun digits => Nat.ofDigitChars 10 digits 0) hdigits
  simpa using hnumbers

theorem takeWhile_digits (n : Nat) (rest : List Char) :
    ((Nat.toDigits 10 n).reverse ++ '-' :: rest).takeWhile (· != '-')
      = (Nat.toDigits 10 n).reverse := by
  have hdigits : ∀ c ∈ (Nat.toDigits 10 n).reverse, (c != '-') = true := by
    intro c hc
    have hdigit := Nat.isDigit_of_mem_toDigits (by decide) (by decide) (List.mem_reverse.1 hc)
    rw [bne_iff_ne]
    intro heq
    rw [heq] at hdigit
    exact absurd hdigit (by decide)
  rw [List.takeWhile_append_of_pos hdigits]
  simp

@[simp] theorem claimNumber_claimId (claimPrefix : PyStr) (n : Nat) :
    claimNumber (claimId claimPrefix n) = n := by
  unfold claimNumber claimId
  rw [List.reverse_append, List.reverse_cons, List.append_assoc, List.singleton_append,
    takeWhile_digits, List.reverse_reverse]
  exact Nat.ofDigitChars_ten_toDigits

theorem perspectiveFromDraft_eq {draft : PerspectiveDraft} {seat : Seat} {p : Perspective}
    (h : perspectiveFromDraft draft seat = .ok p) :
    claimsFromDraft seat.claimPrefix 1 draft.claims = .ok p.claims ∧ p.seatId = seat.id := by
  unfold perspectiveFromDraft at h
  split at h
  next => cases h
  next claims hclaims =>
    split at h
    next => cases h; exact ⟨hclaims, rfl⟩
    next => cases h

theorem lt_nextClaimNumber {p : Perspective} {c : Claim} (hc : c ∈ p.claims) :
    claimNumber c.id < nextClaimNumber p := by
  have hmax : ∀ (ns : List Nat) (m : Nat), (∀ n ∈ ns, n ≤ ns.foldl max m) ∧ m ≤ ns.foldl max m := by
    intro ns
    induction ns with
    | nil => exact fun m => ⟨fun n hn => absurd hn List.not_mem_nil, Nat.le_refl m⟩
    | cons k ks ih =>
        intro m
        obtain ⟨hks, hm⟩ := ih (max m k)
        refine ⟨fun n hn => ?_, Nat.le_trans (Nat.le_max_left m k) hm⟩
        rcases List.mem_cons.1 hn with rfl | hn
        · exact Nat.le_trans (Nat.le_max_right m n) hm
        · exact hks n hn
  exact Nat.lt_succ_of_le ((hmax _ 0).1 _ (List.mem_map.2 ⟨c, hc, rfl⟩))

theorem fresh_claimId {p : Perspective} {claimPrefix : PyStr} {n : Nat} (hn : nextClaimNumber p ≤ n) :
    claimId claimPrefix n ∉ p.claims.map (·.id) := by
  intro hmem
  obtain ⟨c, hc, hid⟩ := List.mem_map.1 hmem
  have hlt := lt_nextClaimNumber hc
  rw [hid, claimNumber_claimId] at hlt
  exact absurd hlt (Nat.not_lt.2 hn)

-- ===== vocabulary

def claimOf (claims : List Claim) (id : ClaimId) : Option Claim := claims.find? (·.id == id)

/-- The change from what a claim was to what it is, if it is one. -/
def kindOf : Option Claim → Option Claim → Option ChangeKind
  | none, none => none
  | some _, none => some .retracted
  | none, some _ => some .added
  | some old, some new =>
      if new = old then none
      else if { old with confidence := new.confidence } = new then
        some (if new.confidence < old.confidence then .weakened else .strengthened)
      else some .modified

def editOf (edits : List EditDraft) (id : ClaimId) : Option EditDraft :=
  edits.find? fun edit => edit.claimId == some id

def EditDraft.revise (edit : EditDraft) (old : Claim) : Option Claim :=
  if edit.op = .retract then none else some (edit.patch old)

def revised (edits : List EditDraft) (old : Claim) : Option Claim :=
  ((editOf edits old.id).map fun edit => edit.revise old).getD (some old)

def additionsFrom (claimPrefix : PyStr) : Nat → List EditDraft → List Claim
  | _, [] => []
  | n, edit :: rest =>
      if edit.op = .add then
        (edit.claim (claimId claimPrefix n)).toList ++ additionsFrom claimPrefix (n + 1) rest
      else additionsFrom claimPrefix n rest

def addCount (edits : List EditDraft) : Nat := edits.countP (·.op == .add)

variable {id : ClaimId} {edits : List EditDraft} {old : Claim}

theorem id_of_claimOf {claims : List Claim} {c : Claim} (h : claimOf claims id = some c) :
    c.id = id := by
  have := List.find?_some h
  simpa using this

theorem claimOf_eq_none {claims : List Claim} :
    claimOf claims id = none ↔ id ∉ claims.map (·.id) := by
  unfold claimOf
  rw [List.find?_eq_none]
  simp

theorem claimOf_append (front back : List Claim) (id : ClaimId) :
    claimOf (front ++ back) id = (claimOf front id).or (claimOf back id) := List.find?_append

theorem claimOf_of_mem {claims : List Claim} (hids : (claims.map (·.id)).Nodup) {c : Claim}
    (hc : c ∈ claims) : claimOf claims c.id = some c := by
  cases h : claimOf claims c.id with
  | none => exact absurd (List.mem_map_of_mem hc) (claimOf_eq_none.1 h)
  | some c' =>
      have hmem := List.mem_of_find?_eq_some h
      rw [List.inj_on_of_nodup_map hids hmem hc (id_of_claimOf h)]

theorem id_of_revised {old new : Claim} (h : revised edits old = some new) : new.id = old.id := by
  unfold revised EditDraft.revise at h
  cases hedit : editOf edits old.id with
  | none =>
      rw [hedit] at h
      exact congrArg Claim.id (Option.some.inj h).symm
  | some edit =>
      rw [hedit, Option.map_some, Option.getD_some] at h
      split at h
      next => cases h
      next => exact (congrArg Claim.id (Option.some.inj h)).symm

theorem revised_of_none (h : editOf edits old.id = none) : revised edits old = some old := by
  unfold revised
  rw [h]
  rfl

theorem revised_of_some {edit : EditDraft}
    (h : editOf edits old.id = some edit) : revised edits old = edit.revise old := by
  unfold revised
  rw [h]
  rfl

theorem editOf_eq_none : editOf edits id = none ↔ id ∉ edits.filterMap (·.claimId) := by
  unfold editOf
  rw [List.find?_eq_none, List.mem_filterMap]
  simp

theorem editOf_concat (edits : List EditDraft) (edit : EditDraft) (id : ClaimId) :
    editOf (edits ++ [edit]) id
      = (editOf edits id).or (if edit.claimId = some id then some edit else none) := by
  unfold editOf
  rw [List.find?_append, List.find?_singleton]
  simp

theorem additionsFrom_concat (claimPrefix : PyStr) (edit : EditDraft) : ∀ (edits : List EditDraft) (n : Nat),
    additionsFrom claimPrefix n (edits ++ [edit])
      = additionsFrom claimPrefix n edits
        ++ additionsFrom claimPrefix (n + addCount edits) [edit] := by
  intro edits
  induction edits with
  | nil => exact fun n => rfl
  | cons first rest ih =>
      intro n
      rw [List.cons_append]
      unfold additionsFrom addCount
      rw [List.countP_cons]
      split
      next hadd =>
        rw [ih (n + 1), List.append_assoc]
        simp only [hadd, beq_self_eq_true, if_true]
        rw [Nat.add_assoc, Nat.add_comm 1]
        rfl
      next hadd =>
        rw [ih n]
        simp only [beq_iff_eq, hadd, if_false]
        rfl

theorem revised_concat {edit : EditDraft}
    (h : edit.claimId ≠ some old.id) : revised (edits ++ [edit]) old = revised edits old := by
  unfold revised
  rw [editOf_concat, if_neg h, Option.or_none]

/-- Of claims with ids of their own, the one of an id is left as the edits
leave it. -/
theorem claimOf_revised {original : List Claim} (hids : (original.map (·.id)).Nodup)
    (edits : List EditDraft) (id : ClaimId) :
    claimOf (original.filterMap (revised edits)) id = (claimOf original id).bind (revised edits) := by
  cases hold : claimOf original id with
  | none =>
      refine claimOf_eq_none.2 fun hmem => claimOf_eq_none.1 hold ?_
      obtain ⟨new, hnew, rfl⟩ := List.mem_map.1 hmem
      obtain ⟨old, hmem', hrevised⟩ := List.mem_filterMap.1 hnew
      exact List.mem_map.2 ⟨old, hmem', (id_of_revised hrevised).symm⟩
  | some old =>
      obtain ⟨front, back, rfl⟩ := List.append_of_mem (List.mem_of_find?_eq_some hold)
      have hid : old.id = id := id_of_claimOf hold
      have hothers : ∀ c, c ∈ front ∨ c ∈ back → c.id ≠ id := by
        intro c hc heq
        rw [List.map_append, List.map_cons] at hids
        have hnew : old.id ∉ front.map (·.id) ++ back.map (·.id) :=
          (List.nodup_middle.1 hids).notMem
        refine hnew (List.mem_append.2 (hc.imp (fun h => ?_) fun h => ?_))
        · exact List.mem_map.2 ⟨c, h, heq.trans hid.symm⟩
        · exact List.mem_map.2 ⟨c, h, heq.trans hid.symm⟩
      have hnone : ∀ cs : List Claim, (∀ c ∈ cs, c.id ≠ id) →
          claimOf (cs.filterMap (revised edits)) id = none := by
        intro cs hcs
        refine claimOf_eq_none.2 fun hmem => ?_
        obtain ⟨new, hnew, hid'⟩ := List.mem_map.1 hmem
        obtain ⟨c, hc, hrevised⟩ := List.mem_filterMap.1 hnew
        exact hcs c hc ((id_of_revised hrevised).symm.trans hid')
      rw [List.filterMap_append, claimOf_append, hnone front fun c hc => hothers c (.inl hc),
        Option.none_or, List.filterMap_cons, Option.bind_some]
      cases hrevised : revised edits old with
      | none => exact hnone back fun c hc => hothers c (.inr hc)
      | some new =>
          have hnew : new.id = id := (id_of_revised hrevised).trans hid
          show claimOf (new :: _) id = some new
          unfold claimOf
          rw [List.find?_cons_of_pos (by simp [hnew])]

theorem id_of_claim {edit : EditDraft} {c : Claim} (h : edit.claim id = some c) : c.id = id := by
  unfold EditDraft.claim at h
  split at h
  next => cases h; rfl
  next => cases h

/-- Two different claims of one id make a change of the kind the code finds. -/
theorem kindOf_of_ne {old new : Claim} (h : new ≠ old) :
    kindOf (some old) (some new) = some (changeKind old new) := by
  unfold kindOf changeKind
  simp only [if_neg h]
  split
  next => rfl
  next => rfl

theorem kindOf_self (c : Option Claim) : kindOf c c = none := by
  cases c with
  | none => rfl
  | some c => exact if_pos rfl

-- ===== one edit

section Edits

variable {objections : Assoc Key Disagreement} {decisions : Assoc Key Decision} {claimPrefix : PyStr}
  {original : List Claim} {st st' : EditState} {edit : EditDraft} {index first : Nat}
  {done : List EditDraft}

def Holds (objections : Assoc Key Disagreement) (decisions : Assoc Key Decision)
    (cause : CauseDraft) : Prop :=
  cause.key ∈ objections.keys
    ∧ (decisions.get? cause.key = some .accept ∨ decisions.get? cause.key = some .partly)

theorem holds_of_causeError : ∀ {causes : List CauseDraft},
    causeError objections decisions index causes = none →
      ∀ cause ∈ causes, Holds objections decisions cause := by
  intro causes
  induction causes with
  | nil => exact fun _ cause hcause => absurd hcause List.not_mem_nil
  | cons cause rest ih =>
      intro h
      unfold causeError at h
      split at h
      next => cases h
      next hknown =>
        split at h
        next => cases h
        next haccepted =>
          refine List.forall_mem_cons.2 ⟨⟨Decidable.not_not.1 hknown, ?_⟩, ih h⟩
          rw [not_and_or, ne_eq, ne_eq, not_not, not_not] at haccepted
          exact haccepted

structure Shaped (edit : EditDraft) : Prop where
  add : edit.op = .add → ∀ id, (edit.claim id).isSome
  modify : edit.op ≠ .add → edit.claimId.isSome
  retract : edit.op = .retract → edit.provides = false

theorem claim_isSome {a : ClaimId} {c : Claim} (h : edit.claim a = some c) (b : ClaimId) :
    (edit.claim b).isSome := by
  unfold EditDraft.claim at h ⊢
  split at h
  next => rfl
  next => cases h

inductive Applies (claimPrefix : PyStr) (original : List Claim) (st : EditState) (edit : EditDraft) :
    EditState → Prop
  | add (added : Claim) : edit.op = .add → edit.claimId = none →
      edit.claim (claimId claimPrefix st.nextNumber) = some added →
      Applies claimPrefix original st edit { st with
        nextNumber := st.nextNumber + 1
        additions := st.additions ++ [added]
        changes := st.changes ++ [edit.changeOf added.id .added] }
  | retract (id : ClaimId) (old : Claim) : edit.op = .retract → edit.claimId = some id →
      claimOf original id = some old → id ∉ st.touched →
      Applies claimPrefix original st edit { st with
        touched := st.touched ++ [id]
        claims := st.claims.filter (·.id != id)
        changes := st.changes ++ [edit.changeOf id .retracted] }
  | modify (id : ClaimId) (old : Claim) : edit.op = .modify → edit.claimId = some id →
      claimOf original id = some old → id ∉ st.touched → edit.patch old ≠ old →
      Applies claimPrefix original st edit { st with
        touched := st.touched ++ [id]
        claims := st.claims.map fun claim => if claim.id = id then edit.patch old else claim
        changes := st.changes ++ [edit.changeOf id (changeKind old (edit.patch old))] }

theorem applyEdit_cases
    (h : applyEdit objections decisions claimPrefix original index st edit = .ok st') :
    (∀ cause ∈ edit.causedBy, Holds objections decisions cause) ∧ Shaped edit
      ∧ Applies claimPrefix original st edit st' := by
  unfold applyEdit at h
  split at h
  next => cases h
  next hcauses =>
    refine ⟨holds_of_causeError hcauses, ?_⟩
    split at h
    next hop =>
      split at h
      next => cases h
      next hid =>
        split at h
        next => cases h
        next added hadded =>
          split at h
          next => cases h
          next =>
            split at h
            next =>
              cases h
              refine ⟨⟨fun _ => claim_isSome hadded, fun hother => absurd hop hother, fun hother => ?_⟩,
                .add added hop (Option.not_isSome_iff_eq_none.1 hid) hadded⟩
              rw [hop] at hother
              cases hother
            next => cases h
    next hop =>
      split at h
      next id old hid hold =>
        have hfound : claimOf original id = some old := by
          rw [hid] at hold
          simpa [claimOf] using hold
        split at h
        next => cases h
        next htouched =>
          split at h
          next hretract =>
            split at h
            next => cases h
            next hbare =>
              cases h
              exact ⟨⟨fun hadd => absurd hadd hop, fun _ => hid ▸ rfl, fun _ => Bool.eq_false_iff.2 hbare⟩,
                .retract id old hretract hid hfound htouched⟩
          next hretract =>
            split at h
            next => cases h
            next =>
              dsimp only at h
              split at h
              next => cases h
              next hnew =>
                cases h
                refine ⟨⟨fun hadd => absurd hadd hop, fun _ => hid ▸ rfl, fun hother =>
                  absurd hother hretract⟩, .modify id old ?_ hid hfound htouched hnew⟩
                cases hedit : edit.op with
                | modify => rfl
                | retract => exact absurd hedit hretract
                | add => exact absurd hedit hop
      next => cases h

structure Applied (objections : Assoc Key Disagreement) (decisions : Assoc Key Decision)
    (claimPrefix : PyStr) (original : List Claim) (first : Nat) (done : List EditDraft)
    (st : EditState) : Prop where
  claims : st.claims = original.filterMap (revised done)
  additions : st.additions = additionsFrom claimPrefix first done
  added : st.additions.map (·.id) = (List.range' first (addCount done)).map (claimId claimPrefix)
  number : st.nextNumber = first + addCount done
  touched : st.touched = done.filterMap (·.claimId)
  once : st.touched.Nodup
  own : ∀ id ∈ st.touched, id ∈ original.map (·.id)
  count : st.changes.length = done.length
  logged : ∀ id, (st.changes.filter (·.claimId = id)).map (·.change)
    = (kindOf (claimOf original id) (claimOf (st.claims ++ st.additions) id)).toList
  caused : ∀ change ∈ st.changes, ∃ edit ∈ done, change.reason = edit.reason
    ∧ change.causedBy = edit.causedBy.map fun cause => causeRef cause.key
  holds : ∀ edit ∈ done, ∀ cause ∈ edit.causedBy, Holds objections decisions cause
  shaped : ∀ edit ∈ done, Shaped edit

theorem logged_concat {changes : List Change} {change : Change}
    {old before after : ClaimId → Option Claim}
    (hlogged : ∀ id, (changes.filter (·.claimId = id)).map (·.change)
      = (kindOf (old id) (before id)).toList)
    (hother : ∀ id, id ≠ change.claimId → after id = before id)
    (hbefore : kindOf (old change.claimId) (before change.claimId) = none)
    (hafter : kindOf (old change.claimId) (after change.claimId) = some change.change) :
    ∀ id, ((changes ++ [change]).filter (·.claimId = id)).map (·.change)
      = (kindOf (old id) (after id)).toList := by
  intro id
  rw [List.filter_append, List.map_append, hlogged id]
  by_cases hid : id = change.claimId
  · rw [hid, hbefore, hafter]
    simp
  · rw [hother id hid, List.filter_cons_of_neg (by simpa using fun heq => hid heq.symm)]
    simp

section Step

variable (hids : (original.map (·.id)).Nodup)
  (hfresh : ∀ n, first ≤ n → claimId claimPrefix n ∉ original.map (·.id))
  (ha : Applied objections decisions claimPrefix original first done st)

include hfresh ha

theorem Applied.new_id (h : id ∈ st.additions.map (·.id)) :
    (∃ n, id = claimId claimPrefix n ∧ n < st.nextNumber) ∧ id ∉ original.map (·.id) := by
  rw [ha.added] at h
  obtain ⟨n, hn, rfl⟩ := List.mem_map.1 h
  obtain ⟨hfirst, hlast⟩ := List.mem_range'_1.1 hn
  exact ⟨⟨n, rfl, ha.number ▸ hlast⟩, hfresh n hfirst⟩

theorem Applied.addition_none (h : id ∈ original.map (·.id)) : claimOf st.additions id = none :=
  claimOf_eq_none.2 fun hmem => (ha.new_id hfresh hmem).2 h

include hids

theorem Applied.claimOf_own (hold : claimOf original id = some old) :
    claimOf (st.claims ++ st.additions) id = revised done old := by
  have hmem : id ∈ original.map (·.id) :=
    List.mem_map.2 ⟨old, List.mem_of_find?_eq_some hold, id_of_claimOf hold⟩
  rw [claimOf_append, ha.addition_none hfresh hmem, Option.or_none, ha.claims, claimOf_revised hids,
    hold, Option.bind_some]

theorem Applied.claimOf_untouched (hold : claimOf original id = some old)
    (h : id ∉ st.touched) : claimOf (st.claims ++ st.additions) id = some old := by
  rw [ha.claimOf_own hids hfresh hold]
  refine revised_of_none (editOf_eq_none.2 ?_)
  rw [id_of_claimOf hold, ← ha.touched]
  exact h

end Step

theorem revise_claims (hnew : ∀ old ∈ original, edit.claimId = some old.id →
      editOf done old.id = none) (f : Claim → Option Claim)
    (hone : ∀ old ∈ original, edit.claimId = some old.id → f old = edit.revise old)
    (hother : ∀ c, edit.claimId ≠ some c.id → f c = some c) :
    (original.filterMap (revised done)).filterMap f = original.filterMap (revised (done ++ [edit])) := by
  rw [List.filterMap_filterMap]
  refine List.filterMap_congr fun old hold => ?_
  by_cases hid : edit.claimId = some old.id
  · have hnone := hnew old hold hid
    rw [revised_of_none hnone, Option.bind_some, hone old hold hid]
    symm
    apply revised_of_some
    rw [editOf_concat, hnone, if_pos hid, Option.none_or]
  · rw [revised_concat hid]
    cases hrevised : revised done old with
    | none => rfl
    | some new =>
        refine hother new ?_
        rw [id_of_revised hrevised]
        exact hid

theorem addCount_concat (edits : List EditDraft) (edit : EditDraft) :
    addCount (edits ++ [edit]) = addCount edits + if edit.op = .add then 1 else 0 := by
  unfold addCount
  rw [List.countP_append, List.countP_singleton]
  simp only [beq_iff_eq]

theorem caused_concat {changes : List Change} {change : Change}
    (h : ∀ c ∈ changes, ∃ e ∈ done, c.reason = e.reason
      ∧ c.causedBy = e.causedBy.map fun cause => causeRef cause.key)
    (hreason : change.reason = edit.reason)
    (hcauses : change.causedBy = edit.causedBy.map fun cause => causeRef cause.key) :
    ∀ c ∈ changes ++ [change], ∃ e ∈ done ++ [edit], c.reason = e.reason
      ∧ c.causedBy = e.causedBy.map fun cause => causeRef cause.key := by
  intro c hc
  rcases List.mem_append.1 hc with hc | hc
  · obtain ⟨e, he, hsame⟩ := h c hc
    exact ⟨e, List.mem_append_left _ he, hsame⟩
  · rw [List.mem_singleton.1 hc]
    exact ⟨edit, List.mem_append_right _ (List.mem_singleton_self edit), hreason, hcauses⟩

theorem forall_concat {P : EditDraft → Prop} (h : ∀ e ∈ done, P e) (hedit : P edit) :
    ∀ e ∈ done ++ [edit], P e := by
  intro e he
  rcases List.mem_append.1 he with he | he
  · exact h e he
  · exact List.mem_singleton.1 he ▸ hedit

section Concat

variable (hids : (original.map (·.id)).Nodup)
  (hfresh : ∀ n, first ≤ n → claimId claimPrefix n ∉ original.map (·.id))
  (ha : Applied objections decisions claimPrefix original first done st)
  (hcauses : ∀ cause ∈ edit.causedBy, Holds objections decisions cause) (hshaped : Shaped edit)

include hfresh ha hcauses hshaped

theorem Applied.concat_new {added : Claim} (hop : edit.op = .add) (hid : edit.claimId = none)
    (hadded : edit.claim (claimId claimPrefix st.nextNumber) = some added) :
    Applied objections decisions claimPrefix original first (done ++ [edit]) { st with
      nextNumber := st.nextNumber + 1
      additions := st.additions ++ [added]
      changes := st.changes ++ [edit.changeOf added.id .added] } := by
  have hcount : addCount (done ++ [edit]) = addCount done + 1 := by
    rw [addCount_concat, if_pos hop]
  have hnumber := ha.number
  have hnew : added.id = claimId claimPrefix (first + addCount done) := by
    rw [id_of_claim hadded, hnumber]
  have hown : added.id ∉ original.map (·.id) := hnew ▸ hfresh _ (Nat.le_add_right _ _)
  have hadditions : added.id ∉ st.additions.map (·.id) := by
    intro hmem
    obtain ⟨⟨n, hn, hlt⟩, -⟩ := ha.new_id hfresh hmem
    rw [hnew] at hn
    rw [← claimId_injective claimPrefix hn, hnumber] at hlt
    exact Nat.lt_irrefl _ hlt
  have hclaims : added.id ∉ st.claims.map (·.id) := by
    rw [ha.claims]
    intro hmem
    obtain ⟨new, hnew', heq⟩ := List.mem_map.1 hmem
    obtain ⟨old, hold, hrevised⟩ := List.mem_filterMap.1 hnew'
    exact hown (List.mem_map.2 ⟨old, hold, (id_of_revised hrevised).symm.trans heq⟩)
  constructor
  case claims =>
    rw [ha.claims]
    refine List.filterMap_congr fun old _ => (revised_concat ?_).symm
    rw [hid]
    exact fun heq => by cases heq
  case additions =>
    rw [additionsFrom_concat, ← ha.additions]
    unfold additionsFrom
    rw [if_pos hop, ← hnumber, hadded]
    rfl
  case added =>
    rw [hcount, List.range'_1_concat, List.map_append, List.map_append, ← ha.added]
    exact congrArg (_ ++ [·]) hnew
  case number => rw [hcount, hnumber, Nat.add_assoc]
  case touched =>
    rw [List.filterMap_append, ← ha.touched]
    simp [hid]
  case once => exact ha.once
  case own => exact ha.own
  case count =>
    rw [List.length_append, List.length_append, ha.count]
    rfl
  case logged =>
    have hbefore : claimOf (st.claims ++ st.additions) added.id = none := by
      rw [claimOf_append, claimOf_eq_none.2 hclaims, claimOf_eq_none.2 hadditions]
      rfl
    have hafter : ∀ a, claimOf (st.claims ++ (st.additions ++ [added])) a
        = (claimOf (st.claims ++ st.additions) a).or (claimOf [added] a) := by
      intro a
      rw [← List.append_assoc, claimOf_append]
    refine logged_concat ha.logged (fun a hne => ?_) ?_ ?_
    · have hnone : claimOf [added] a = none :=
        claimOf_eq_none.2 fun hmem => hne (List.mem_singleton.1 hmem)
      rw [hafter a, hnone, Option.or_none]
    · show kindOf (claimOf original added.id) (claimOf (st.claims ++ st.additions) added.id) = none
      rw [claimOf_eq_none.2 hown, hbefore]
      rfl
    · show kindOf (claimOf original added.id) (claimOf (st.claims ++ (st.additions ++ [added])) added.id)
        = some .added
      have hself : claimOf [added] added.id = some added := by
        unfold claimOf
        simp
      rw [claimOf_eq_none.2 hown, hafter added.id, hbefore, hself]
      rfl
  case caused => exact caused_concat ha.caused rfl rfl
  case holds => exact forall_concat ha.holds hcauses
  case shaped => exact forall_concat ha.shaped hshaped

include hids

theorem Applied.concat_own {kind : ChangeKind} {claims : List Claim}
    (hop : edit.op ≠ .add) (hid : edit.claimId = some id) (hold : claimOf original id = some old)
    (hnew : id ∉ st.touched) (hkind : kindOf (some old) (edit.revise old) = some kind)
    (hclaims : claims = original.filterMap (revised (done ++ [edit]))) :
    Applied objections decisions claimPrefix original first (done ++ [edit]) { st with
      touched := st.touched ++ [id]
      claims := claims
      changes := st.changes ++ [edit.changeOf id kind] } := by
  have hmem : id ∈ original.map (·.id) :=
    List.mem_map.2 ⟨old, List.mem_of_find?_eq_some hold, id_of_claimOf hold⟩
  have hcount : addCount (done ++ [edit]) = addCount done := by
    rw [addCount_concat, if_neg hop]
    rfl
  constructor
  case claims => exact hclaims
  case additions =>
    rw [additionsFrom_concat, ← ha.additions]
    unfold additionsFrom
    rw [if_neg hop]
    exact (List.append_nil _).symm
  case added => rw [hcount]; exact ha.added
  case number => rw [hcount]; exact ha.number
  case touched =>
    rw [List.filterMap_append, ← ha.touched]
    simp [hid]
  case once =>
    refine List.nodup_append.2 ⟨ha.once, List.nodup_singleton id, fun a ha' b hb heq => hnew ?_⟩
    rw [List.mem_singleton.1 hb] at heq
    exact heq ▸ ha'
  case own =>
    intro a ha'
    rcases List.mem_append.1 ha' with ha' | ha'
    · exact ha.own a ha'
    · exact List.mem_singleton.1 ha' ▸ hmem
  case count =>
    rw [List.length_append, List.length_append, ha.count]
    rfl
  case logged =>
    have hafter : ∀ a, claimOf (claims ++ st.additions) a
        = ((claimOf original a).bind (revised (done ++ [edit]))).or (claimOf st.additions a) := by
      intro a
      rw [claimOf_append, hclaims, claimOf_revised hids]
    refine logged_concat ha.logged (fun a hne => ?_) ?_ ?_
    · rw [hafter a, claimOf_append, ha.claims, claimOf_revised hids]
      cases holda : claimOf original a with
      | none => rfl
      | some olda =>
          rw [Option.bind_some, Option.bind_some, revised_concat]
          rw [hid, id_of_claimOf holda]
          exact fun heq => hne (Option.some.inj heq).symm
    · show kindOf (claimOf original id) (claimOf (st.claims ++ st.additions) id) = none
      rw [ha.claimOf_untouched hids hfresh hold hnew, hold]
      exact kindOf_self _
    · show kindOf (claimOf original id) (claimOf (claims ++ st.additions) id) = some kind
      have hnone : editOf done old.id = none := by
        rw [editOf_eq_none, ← ha.touched, id_of_claimOf hold]
        exact hnew
      have hedit : editOf (done ++ [edit]) old.id = some edit := by
        rw [editOf_concat, hnone, if_pos (by rw [hid, id_of_claimOf hold]), Option.none_or]
      rw [hafter id, ha.addition_none hfresh hmem, Option.or_none, hold, Option.bind_some,
        revised_of_some hedit]
      exact hkind
  case caused => exact caused_concat ha.caused rfl rfl
  case holds => exact forall_concat ha.holds hcauses
  case shaped => exact forall_concat ha.shaped hshaped

theorem Applied.concat (happ : Applies claimPrefix original st edit st') :
    Applied objections decisions claimPrefix original first (done ++ [edit]) st' := by
  cases happ with
  | add added hop hid hadded => exact ha.concat_new hfresh hcauses hshaped hop hid hadded
  | retract id old hop hid hold hnew =>
      refine ha.concat_own hids hfresh hcauses hshaped (by rw [hop]; decide) hid hold hnew ?_ ?_
      · unfold EditDraft.revise
        rw [if_pos hop]
        rfl
      · rw [ha.claims, ← List.filterMap_eq_filter]
        refine revise_claims (fun c _ hc => ?_) _ (fun c _ hc => ?_) fun c hc => ?_
        · rw [editOf_eq_none, ← ha.touched]
          exact Option.some.inj (hid.symm.trans hc) ▸ hnew
        · unfold EditDraft.revise
          rw [if_pos hop, Option.some.inj (hid.symm.trans hc)]
          simp [Option.guard]
        · have hne : c.id ≠ id := fun heq => hc (heq ▸ hid)
          simp [Option.guard, hne]
  | modify id old hop hid hold hnew hchanged =>
      have hrevise : ∀ c, edit.revise c = some (edit.patch c) := by
        intro c
        unfold EditDraft.revise
        rw [hop]
        rfl
      refine ha.concat_own hids hfresh hcauses hshaped (by rw [hop]; decide) hid hold hnew ?_ ?_
      · rw [hrevise]
        exact kindOf_of_ne hchanged
      · rw [ha.claims, ← List.filterMap_eq_map]
        refine revise_claims (fun c _ hc => ?_) _ (fun c hmem hc => ?_) fun c hc => ?_
        · rw [editOf_eq_none, ← ha.touched]
          exact Option.some.inj (hid.symm.trans hc) ▸ hnew
        · have hsame : c.id = id := (Option.some.inj (hid.symm.trans hc)).symm
          have hc' := claimOf_of_mem hids hmem
          rw [hsame, hold] at hc'
          rw [hrevise, Option.some.inj hc']
          exact congrArg some (if_pos hsame)
        · have hne : c.id ≠ id := fun heq => hc (heq ▸ hid)
          exact congrArg some (if_neg hne)

end Concat

theorem applied_nil : Applied objections decisions claimPrefix original first []
    { claims := original, nextNumber := first } := by
  have hclaims : original = original.filterMap (revised []) := by
    symm
    exact List.filterMap_some
  constructor
  case claims => exact hclaims
  case additions => rfl
  case added => rfl
  case number => rfl
  case touched => rfl
  case once => exact List.nodup_nil
  case own => exact fun id hid => absurd hid List.not_mem_nil
  case count => rfl
  case logged =>
    intro id
    show [] = (kindOf (claimOf original id) (claimOf (original ++ []) id)).toList
    rw [List.append_nil, kindOf_self]
    rfl
  case caused => exact fun change hchange => absurd hchange List.not_mem_nil
  case holds => exact fun edit hedit => absurd hedit List.not_mem_nil
  case shaped => exact fun edit hedit => absurd hedit List.not_mem_nil

theorem applied_applyEdits (hids : (original.map (·.id)).Nodup)
    (hfresh : ∀ n, first ≤ n → claimId claimPrefix n ∉ original.map (·.id)) :
    ∀ {edits : List EditDraft} {index : Nat} {done : List EditDraft} {st : EditState},
      Applied objections decisions claimPrefix original first done st →
        applyEdits objections decisions claimPrefix original index st edits = .ok st' →
          Applied objections decisions claimPrefix original first (done ++ edits) st' := by
  intro edits
  induction edits with
  | nil =>
      intro index done st ha h
      cases h
      rw [List.append_nil]
      exact ha
  | cons edit rest ih =>
      intro index done st ha h
      unfold applyEdits at h
      split at h
      next => cases h
      next next hedit =>
        obtain ⟨hcauses, hshaped, happlies⟩ := applyEdit_cases hedit
        have hnext := ih (ha.concat hids hfresh hcauses hshaped happlies) h
        rw [List.append_assoc] at hnext
        exact hnext

end Edits

end Velune.Council
