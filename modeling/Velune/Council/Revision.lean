/-
What a seat is asked to return in the revision stage, and its application
to the seat's own perspective (`council/revisiondrafts.py`).

The dictionary of the perspective's claims is filed under the claims' own
ids, which no edit changes, so it is the list of its values. The change of
the overall confidence is an exact number of ten-thousandths.
-/
import Velune.Council.Drafts

namespace Velune.Council

open Lib

-- ===== contracts

inductive RevisionStatus
  | revised | reaffirmed | carriedForward
  deriving DecidableEq, Repr

inductive ChangeKind
  | retracted | weakened | strengthened | modified | added
  deriving DecidableEq, Repr

structure CauseRef where
  reviewerSeat : PyStr
  objectionIndex : Nat
  deriving DecidableEq

structure Change where
  claimId : ClaimId
  change : ChangeKind
  reason : Text240
  causedBy : List CauseRef

structure CritiqueResponse where
  critique : CauseRef
  note : Text240

structure Revision where
  seatId : PyStr
  status : RevisionStatus
  changes : List Change
  accepted : List CritiqueResponse
  rejected : List CritiqueResponse
  deferred : List CritiqueResponse
  revisedPosition : Text400
  claims : List Claim
  revisedConfidence : Confidence
  confidenceDelta : Int
  remainingDisagreements : List Text240
  remainingUncertainties : List Text240

-- ===== drafts

def MAX_EDITS : Nat := 8

def MAX_RESPONSES : Nat := 30

def MAX_LISTED : Nat := 6

def MAX_CLAIM_NUMBER : Nat := 999

inductive Decision
  | accept | partly | reject | insufficientEvidence
  deriving DecidableEq, Repr

inductive EditOp
  | modify | retract | add
  deriving DecidableEq, Repr

def EditOp.value : EditOp → PyStr
  | .modify => "modify".toList
  | .retract => "retract".toList
  | .add => "add".toList

abbrev Key := PyStr × Nat

structure CauseDraft where
  reviewer : Slug
  objection : Nat
  numbered : 1 ≤ objection ∧ objection ≤ MAX_OBJECTIONS

structure ResponseDraft where
  reviewer : Slug
  objection : Nat
  decision : Decision
  note : Text240
  numbered : 1 ≤ objection ∧ objection ≤ MAX_OBJECTIONS

structure EditDraft where
  op : EditOp
  claimId : Option ClaimId := none
  text : Option Text240 := none
  status : Option ClaimStatus := none
  support : Option (MaybeText 200) := none
  confidence : Option Confidence := none
  dependsOn : Option (List ClaimId) := none
  tags : Option (List Slug) := none
  reason : Text240
  causedBy : List CauseDraft
  caused : 1 ≤ causedBy.length ∧ causedBy.length ≤ 4
  depends_max : ∀ deps ∈ dependsOn, deps.length ≤ MAX_CLAIMS

structure RevisionDraft where
  responses : List ResponseDraft := []
  edits : List EditDraft := []
  position : Option Text400 := none
  confidence : Option Confidence := none
  remainingDisagreements : List Text240 := []
  remainingUncertainties : List Text240 := []
  responses_max : responses.length ≤ MAX_RESPONSES
  edits_max : edits.length ≤ MAX_EDITS
  listed_max : remainingDisagreements.length ≤ MAX_LISTED
    ∧ remainingUncertainties.length ≤ MAX_LISTED

def CauseDraft.key (cause : CauseDraft) : Key := (cause.reviewer.val, cause.objection)

def ResponseDraft.key (response : ResponseDraft) : Key :=
  (response.reviewer.val, response.objection)

def causeRef (key : Key) : CauseRef := { reviewerSeat := key.1, objectionIndex := key.2 - 1 }

-- ===== errors

/-- Why a revision draft is refused. `noSeat` is the `KeyError` of a
reviewer that is no seat of the profile, `invalid` a contract's own
`ValidationError`. -/
inductive RevisionError
  | noObjection (path : PyStr) (key : Key)
  | answeredTwice (index : Nat) (key : Key)
  | unanswered (key : Key)
  | notAccepted (index : Nat) (key : Key)
  | idOfNew (index : Nat)
  | newNeeds (index : Nat) (names : List PyStr)
  | noNumbers (index : Nat)
  | notOwn (index : Nat) (op : EditOp)
  | editedTwice (index : Nat) (id : ClaimId)
  | contentOfRetraction (index : Nat)
  | nothingChanged (index : Nat)
  | unchanged (index : Nat) (id : ClaimId)
  | claimCount
  | dependency (id dep : ClaimId)
  | positionWithoutCause
  | cites (ref : PyStr)
  | noSeat (reviewer : PyStr)
  | invalid

def editsPath (index : Nat) : PyStr := "edits.".toList ++ (toString index).toList

def responsesPath (index : Nat) : PyStr := "responses.".toList ++ (toString index).toList

def RevisionError.message : RevisionError → PyStr
  | .noObjection path key =>
      path ++ ": there is no objection ".toList ++ (toString key.2).toList ++ " from ".toList ++ key.1
  | .answeredTwice index key =>
      responsesPath index ++ ": objection ".toList ++ (toString key.2).toList ++ " from ".toList
        ++ key.1 ++ " answered twice".toList
  | .unanswered key =>
      "responses: every major or critical objection needs a response (missing: ".toList ++ key.1
        ++ " #".toList ++ (toString key.2).toList ++ ")".toList
  | .notAccepted index key =>
      editsPath index ++ ": a change must cite an objection you accepted (".toList ++ key.1
        ++ " #".toList ++ (toString key.2).toList ++ ")".toList
  | .idOfNew index => editsPath index ++ ": a new claim takes no id; the system numbers it".toList
  | .newNeeds index names =>
      editsPath index ++ ": a new claim needs ".toList ++ Text.join ", ".toList names
  | .noNumbers index => editsPath index ++ ": no claim numbers are left".toList
  | .notOwn index op =>
      editsPath index ++ ": ".toList ++ op.value ++ " needs the id of one of your own claims".toList
  | .editedTwice index id =>
      editsPath index ++ ": ".toList ++ id ++ " is edited more than once".toList
  | .contentOfRetraction index => editsPath index ++ ": a retraction carries no new content".toList
  | .nothingChanged index => editsPath index ++ ": a modification must change something".toList
  | .unchanged index id =>
      editsPath index ++ ": ".toList ++ id ++ " is unchanged by this edit".toList
  | .claimCount =>
      "edits: a revision must leave between 1 and ".toList ++ (toString MAX_CLAIMS).toList
        ++ " claims".toList
  | .dependency id dep =>
      "edits: ".toList ++ id ++ " depends on ".toList ++ dep
        ++ ", which is not one of your claims".toList
  | .positionWithoutCause =>
      "position: a change of position or confidence needs an accepted objection".toList
  | .cites ref =>
      "text: cites ".toList ++ ref ++ ", which is not one of the claims you were shown".toList
  | .noSeat reviewer => reviewer
  | .invalid => []

-- ===== objections

/-- What `objections_of` files, in order. -/
def objectionEntries (critiques : List (PyStr × Critique)) : List (Key × Disagreement) :=
  critiques.flatMap fun c => (c.2.disagreements.zipIdx 1).map fun item => ((c.1, item.2), item.1)

def objectionsOf (critiques : List (PyStr × Critique)) : Assoc Key Disagreement :=
  (objectionEntries critiques).foldl (fun found e => found.set e.1 e.2) []

def requiredResponses (critiques : List (PyStr × Critique)) : List Key :=
  ((objectionsOf critiques).filter fun e => e.2.severity == .major || e.2.severity == .critical).map
    (·.1)

/-- `_answers`: the decisions and the notes. -/
def answers (objections : Assoc Key Disagreement) :
    Nat → List ResponseDraft → Assoc Key Decision → Assoc Key Text240 →
    Except RevisionError (Assoc Key Decision × Assoc Key Text240)
  | _, [], decisions, notes => .ok (decisions, notes)
  | index, response :: rest, decisions, notes =>
      if response.key ∉ objections.keys then
        .error (.noObjection (responsesPath index) response.key)
      else if response.key ∈ decisions.keys then .error (.answeredTwice index response.key)
      else
        answers objections (index + 1) rest (decisions.set response.key response.decision)
          (notes.set response.key response.note)

-- ===== edits

/-- `int(claim.id.rsplit("-", 1)[1])`. -/
def claimNumber (id : ClaimId) : Nat :=
  Nat.ofDigitChars 10 (id.reverse.takeWhile (· != '-')).reverse 0

def nextClaimNumber (perspective : Perspective) : Nat :=
  (perspective.claims.map fun claim => claimNumber claim.id).foldl max 0 + 1

def changeKind (old new : Claim) : ChangeKind :=
  if { old with confidence := new.confidence } = new then
    if new.confidence < old.confidence then .weakened else .strengthened
  else .modified

def EditDraft.provides (edit : EditDraft) : Bool :=
  edit.text.isSome || edit.status.isSome || edit.support.isSome || edit.confidence.isSome
    || edit.dependsOn.isSome || edit.tags.isSome

/-- `Claim(**{**old.model_dump(), **provided})`. -/
def EditDraft.patch (edit : EditDraft) (old : Claim) : Claim where
  id := old.id
  text := edit.text.getD old.text
  status := edit.status.getD old.status
  support := edit.support.getD old.support
  confidence := edit.confidence.getD old.confidence
  dependsOn := edit.dependsOn.getD old.dependsOn
  tags := edit.tags.getD old.tags

/-- `Claim(id=id, **provided)`, where the fields without a default are
given. -/
def EditDraft.claim (edit : EditDraft) (id : ClaimId) : Option Claim :=
  match edit.text, edit.status, edit.confidence with
  | some text, some status, some confidence =>
      some {
        id := id
        text := text
        status := status
        support := edit.support.getD ⟨[], Nat.zero_le _⟩
        confidence := confidence
        dependsOn := edit.dependsOn.getD []
        tags := edit.tags.getD [] }
  | _, _, _ => none

def EditDraft.missing (edit : EditDraft) : List PyStr :=
  (if edit.text.isSome then [] else ["text".toList])
    ++ (if edit.status.isSome then [] else ["status".toList])
    ++ (if edit.confidence.isSome then [] else ["confidence".toList])

def EditDraft.changeOf (edit : EditDraft) (id : ClaimId) (kind : ChangeKind) : Change where
  claimId := id
  change := kind
  reason := edit.reason
  causedBy := edit.causedBy.map fun cause => causeRef cause.key

structure EditState where
  claims : List Claim
  touched : List ClaimId := []
  additions : List Claim := []
  changes : List Change := []
  nextNumber : Nat

def causeError (objections : Assoc Key Disagreement) (decisions : Assoc Key Decision) (index : Nat) :
    List CauseDraft → Option RevisionError
  | [] => none
  | cause :: rest =>
      if cause.key ∉ objections.keys then some (.noObjection (editsPath index) cause.key)
      else if decisions.get? cause.key ≠ some .accept ∧ decisions.get? cause.key ≠ some .partly then
        some (.notAccepted index cause.key)
      else causeError objections decisions index rest

/-- The body of the loop of `revision_from_draft`. -/
def applyEdit (objections : Assoc Key Disagreement) (decisions : Assoc Key Decision)
    (claimPrefix : PyStr) (original : List Claim) (index : Nat) (st : EditState) (edit : EditDraft) :
    Except RevisionError EditState :=
  match causeError objections decisions index edit.causedBy with
  | some e => .error e
  | none =>
      match edit.op with
      | .add =>
          if edit.claimId.isSome then .error (.idOfNew index)
          else
            match edit.claim (claimId claimPrefix st.nextNumber) with
            | none => .error (.newNeeds index edit.missing)
            | some added =>
                if MAX_CLAIM_NUMBER < st.nextNumber then .error (.noNumbers index)
                else if validClaimId claimPrefix st.nextNumber then
                  .ok { st with
                    nextNumber := st.nextNumber + 1
                    additions := st.additions ++ [added]
                    changes := st.changes ++ [edit.changeOf added.id .added] }
                else .error .invalid
      | op =>
          match edit.claimId, original.find? (fun claim => some claim.id == edit.claimId) with
          | some id, some old =>
              if id ∈ st.touched then .error (.editedTwice index id)
              else if op = .retract then
                if edit.provides then .error (.contentOfRetraction index)
                else
                  .ok { st with
                    touched := st.touched ++ [id]
                    claims := st.claims.filter (·.id != id)
                    changes := st.changes ++ [edit.changeOf id .retracted] }
              else if !edit.provides then .error (.nothingChanged index)
              else
                let new := edit.patch old
                if new = old then .error (.unchanged index id)
                else
                  .ok { st with
                    touched := st.touched ++ [id]
                    claims := st.claims.map fun claim => if claim.id = id then new else claim
                    changes := st.changes ++ [edit.changeOf id (changeKind old new)] }
          | _, _ => .error (.notOwn index op)

def applyEdits (objections : Assoc Key Disagreement) (decisions : Assoc Key Decision)
    (claimPrefix : PyStr) (original : List Claim) :
    Nat → EditState → List EditDraft → Except RevisionError EditState
  | _, st, [] => .ok st
  | index, st, edit :: rest =>
      match applyEdit objections decisions claimPrefix original index st edit with
      | .error e => .error e
      | .ok st' => applyEdits objections decisions claimPrefix original (index + 1) st' rest

-- ===== revision

/-- A dependency of a claim that is not another claim of the list. -/
def strayDependency (final : List Claim) : Option (ClaimId × ClaimId) :=
  final.findSome? fun claim =>
    (claim.dependsOn.find? fun dep => dep = claim.id ∨ dep ∉ final.map (·.id)).map fun dep =>
      (claim.id, dep)

def isAccepted (decision : Decision) : Bool := decision == .accept || decision == .partly

def responsesFor (reviewers : List PyStr) (decisions : Assoc Key Decision)
    (notes : Assoc Key Text240) (wanted : Decision → Bool) : List CritiqueResponse :=
  ((decisions.mergeSort fun a b =>
      decide (reviewers.idxOf a.1.1 < reviewers.idxOf b.1.1
        ∨ reviewers.idxOf a.1.1 = reviewers.idxOf b.1.1 ∧ a.1.2 ≤ b.1.2)).filter
      fun e => wanted e.2).filterMap fun e =>
    (notes.get? e.1).map fun note => { critique := causeRef e.1, note := note }

def revisionTexts (draft : RevisionDraft) (position : Text400) (notes : Assoc Key Text240)
    (final : List Claim) : List PyStr :=
  [position.val] ++ draft.remainingDisagreements.map (·.val)
    ++ draft.remainingUncertainties.map (·.val) ++ notes.map (·.2.val)
    ++ draft.edits.map (·.reason.val) ++ final.map (·.text.val)

def allowedPrefixes (seat : Seat) (profile : PrefixedProfile) (reviewers : List PyStr) :
    List PyStr :=
  seat.claimPrefix :: reviewers.filterMap profile.claimPrefix

def revisionFromDraft (cls : CharClasses) (draft : RevisionDraft) (seat : Seat)
    (perspective : Perspective) (critiques : List (PyStr × Critique)) (profile : PrefixedProfile) :
    Except RevisionError Revision :=
  let objections := objectionsOf critiques
  let reviewers := critiques.map (·.1)
  match answers objections 0 draft.responses [] [] with
  | .error e => .error e
  | .ok (decisions, notes) =>
      match (requiredResponses critiques).find? fun key => !decisions.keys.contains key with
      | some key => .error (.unanswered key)
      | none =>
          match applyEdits objections decisions seat.claimPrefix perspective.claims 0
              { claims := perspective.claims, nextNumber := nextClaimNumber perspective }
              draft.edits with
          | .error e => .error e
          | .ok st =>
              let final := st.claims ++ st.additions
              if ¬ (1 ≤ final.length ∧ final.length ≤ MAX_CLAIMS) then .error .claimCount
              else
                match strayDependency final with
                | some (id, dep) => .error (.dependency id dep)
                | none =>
                    let position := draft.position.getD perspective.position
                    let confidence := draft.confidence.getD perspective.confidence
                    let positionChanged := decide (position ≠ perspective.position)
                    let confidenceChanged := decide (confidence ≠ perspective.confidence)
                    if (positionChanged || confidenceChanged) && !(decisions.any fun e => isAccepted e.2)
                    then .error .positionWithoutCause
                    else
                      match reviewers.find? fun r => (profile.claimPrefix r).isNone with
                      | some r => .error (.noSeat r)
                      | none =>
                          match foreignClaimIds cls (revisionTexts draft position notes final)
                              (allowedPrefixes seat profile reviewers) profile.prefixes with
                          | ref :: _ => .error (.cites ref)
                          | [] =>
                              .ok {
                                seatId := seat.id
                                status :=
                                  if draft.edits.isEmpty && !positionChanged && !confidenceChanged then
                                    .reaffirmed
                                  else .revised
                                changes := st.changes
                                accepted := responsesFor reviewers decisions notes isAccepted
                                rejected := responsesFor reviewers decisions notes (· == .reject)
                                deferred :=
                                  responsesFor reviewers decisions notes (· == .insufficientEvidence)
                                revisedPosition := position
                                claims := final
                                revisedConfidence := confidence
                                confidenceDelta := (confidence.val : Int) - (perspective.confidence.val : Int)
                                remainingDisagreements := draft.remainingDisagreements
                                remainingUncertainties := draft.remainingUncertainties }

end Velune.Council
