/-
What a seat is asked to return in the first two stages, and its conversion
into the contracts (`council/contracts.py`, `council/drafts.py`,
`council/reviewdrafts.py`).

A record here holds what its model validator checked. A confidence is a
number of ten-thousandths, as `round_float` leaves it. A claim id in a
draft is a text: that it looks like one is the validator's concern and
nothing here rests on it. The fields that are only handed on
(assumptions, alternatives, rationale and the like) are left out.
-/
import Mathlib.Data.Char
import Mathlib.Data.List.Lex
import Velune.Council.Domain
import Velune.Lib.Assoc

namespace Velune.Council

open Lib

-- ===== the contracts

abbrev Confidence := Fin 10001

structure CappedText (cap : Nat) where
  val : PyStr
  nonempty : val ≠ []
  short : val.length ≤ cap
  deriving DecidableEq

abbrev Text240 := CappedText 240

abbrev Text400 := CappedText 400

structure MaybeText (cap : Nat) where
  val : PyStr
  short : val.length ≤ cap
  deriving DecidableEq

abbrev ClaimId := PyStr

inductive ClaimStatus
  | known | inferred | assumed | uncertain | unsupported
  deriving DecidableEq, Repr

structure Claim where
  id : ClaimId
  text : Text240
  status : ClaimStatus
  support : MaybeText 200 := ⟨[], by decide⟩
  confidence : Confidence
  dependsOn : List ClaimId := []
  tags : List Slug := []
  deriving DecidableEq

def MAX_CLAIMS : Nat := 8

structure Perspective where
  seatId : PyStr
  position : Text400
  claims : List Claim
  confidence : Confidence
  claims_ne : claims ≠ []
  claims_max : claims.length ≤ MAX_CLAIMS
  ids_unique : (claims.map (·.id)).Nodup

inductive Severity
  | minor | major | critical
  deriving DecidableEq, Repr

inductive DisagreementKind
  | factualError | logicalGap | unsupported | counterexample | missingConsideration | scope
  | assumption
  deriving DecidableEq, Repr

structure Disagreement where
  claimId : ClaimId
  objection : Text240
  kind : DisagreementKind
  severity : Severity
  suggestedResolution : MaybeText 240 := ⟨[], by decide⟩
  deriving DecidableEq

structure Critique where
  reviewerSeat : PyStr
  targetSeat : PyStr
  steelman : Text400
  agreements : List ClaimId := []
  disagreements : List Disagreement := []
  noMaterialIssues : Bool := false
  confidence : Confidence
  not_self : targetSeat ≠ reviewerSeat

-- ===== seats and prefixes

/-- `^[A-Z]{2,3}$`. -/
def isClaimTag (s : PyStr) : Bool := s.all Text.isUpper && (s.length == 2 || s.length == 3)

/-- `_PREFIX.match`: the same pattern, but its `$` also matches before a
final line feed. -/
def matchesClaimTag (s : PyStr) : Bool :=
  isClaimTag s || (s.getLast? == some '\n' && isClaimTag s.dropLast)

/-- A seat with the field of `SeatSpec` that the runner does not read. -/
structure Seat extends SeatSpec where
  claimPrefix : PyStr
  prefix_ok : matchesClaimTag claimPrefix = true

/-- A profile with the claim prefixes of its seats, by seat id. -/
structure PrefixedProfile extends RoleProfile where
  prefixOf : PyStr → PyStr
  prefix_ok : ∀ spec ∈ toRoleProfile.allSeats, matchesClaimTag (prefixOf spec.id) = true
  prefixes_unique : (toRoleProfile.allSeats.map (prefixOf ·.id)).Nodup

/-- `profile.seat(seat_id).claim_prefix`; `none` is the `KeyError`. -/
def PrefixedProfile.claimPrefix (p : PrefixedProfile) (seatId : PyStr) : Option PyStr :=
  (p.toRoleProfile.seat seatId).map (p.prefixOf ·.id)

/-- `profile_prefixes`. -/
def PrefixedProfile.prefixes (p : PrefixedProfile) : List PyStr :=
  p.toRoleProfile.allSeats.map (p.prefixOf ·.id)

/-- `f"{claim_prefix}-{number}"`. -/
def claimId (claimPrefix : PyStr) (number : Nat) : ClaimId :=
  claimPrefix ++ '-' :: Nat.toDigits 10 number

/-- An id of that form that `ClaimId` admits. -/
def validClaimId (claimPrefix : PyStr) (number : Nat) : Bool :=
  isClaimTag claimPrefix && decide (number ≤ 999)

-- ===== perspectives

structure ClaimDraft where
  text : Text240
  status : ClaimStatus
  support : MaybeText 200 := ⟨[], by decide⟩
  confidence : Confidence
  dependsOn : List Int := []
  tags : List Slug := []

structure PerspectiveDraft where
  position : Text400
  claims : List ClaimDraft
  confidence : Confidence
  claims_ne : claims ≠ []
  claims_max : claims.length ≤ MAX_CLAIMS

/-- Why a draft is not converted; `invalid` is the contract's own
`ValidationError`. -/
inductive DraftError
  | dependsOn (index : Nat) (dep : Int)
  | invalid

def DraftError.message : DraftError → PyStr
  | .dependsOn index dep =>
      "claims.".toList ++ (toString index).toList ++ ".depends_on: ".toList
        ++ (toString dep).toList ++ " must number an earlier claim".toList
  | .invalid => []

/-- The loop of `perspective_from_draft`. -/
def claimsFromDraft (claimPrefix : PyStr) : Nat → List ClaimDraft → Except DraftError (List Claim)
  | _, [] => .ok []
  | number, item :: rest =>
      match item.dependsOn.find? fun (dep : Int) => ¬ (1 ≤ dep ∧ dep < number) with
      | some dep => .error (.dependsOn (number - 1) dep)
      | none =>
          if validClaimId claimPrefix number then
            match claimsFromDraft claimPrefix (number + 1) rest with
            | .error e => .error e
            | .ok claims =>
                .ok ({
                  id := claimId claimPrefix number
                  text := item.text
                  status := item.status
                  support := item.support
                  confidence := item.confidence
                  dependsOn := item.dependsOn.map fun dep => claimId claimPrefix dep.toNat
                  tags := item.tags } :: claims)
          else .error .invalid

def perspectiveFromDraft (draft : PerspectiveDraft) (seat : Seat) : Except DraftError Perspective :=
  match claimsFromDraft seat.claimPrefix 1 draft.claims with
  | .error e => .error e
  | .ok claims =>
      if h : claims ≠ [] ∧ claims.length ≤ MAX_CLAIMS ∧ (claims.map (·.id)).Nodup then
        .ok {
          seatId := seat.id
          position := draft.position
          claims := claims
          confidence := draft.confidence
          claims_ne := h.1
          claims_max := h.2.1
          ids_unique := h.2.2 }
      else .error .invalid

-- ===== claim references

/-- `\w` and `\d` of the interpreter's Unicode tables. -/
structure CharClasses where
  isWord : Char → Bool
  isDecimal : Char → Bool
  word_of_decimal : ∀ c, isDecimal c = true → isWord c = true

/-- The groups of `_CLAIM_REF` at a place where a word may begin: two or
three capitals, a hyphen and one to three digits that end the word. -/
def refHere (cls : CharClasses) (s : PyStr) : Option (PyStr × PyStr) :=
  let capitals := s.takeWhile Text.isUpper
  match s.dropWhile Text.isUpper with
  | '-' :: rest =>
      let digits := rest.takeWhile cls.isDecimal
      let ends := ((rest.dropWhile cls.isDecimal).head?.map cls.isWord).getD false
      if (capitals.length == 2 || capitals.length == 3) && digits ≠ [] && digits.length ≤ 3
          && !ends then
        some (capitals, capitals ++ '-' :: digits)
      else none
  | _ => none

/-- `_CLAIM_REF.finditer`: the prefix and the whole of every match. No
match begins inside another one. -/
def claimRefs (cls : CharClasses) : Bool → PyStr → List (PyStr × PyStr)
  | _, [] => []
  | behindWord, c :: cs =>
      (if behindWord then none else refHere cls (c :: cs)).toList ++ claimRefs cls (cls.isWord c) cs

def foreignClaimIds (cls : CharClasses) (texts allowed known : List PyStr) : List PyStr :=
  ((texts.flatMap (claimRefs cls false)).filter fun ref =>
    known.contains ref.1 && !allowed.contains ref.1).map (·.2)

-- ===== reviews

def MAX_REVIEWS : Nat := 5

def MAX_AGREEMENTS : Nat := 8

def MAX_OBJECTIONS : Nat := 6

structure ObjectionDraft where
  claimId : ClaimId
  objection : Text240
  kind : DisagreementKind
  severity : Severity
  suggestedResolution : MaybeText 240 := ⟨[], by decide⟩

structure ReviewDraft where
  target : PyStr
  steelman : Text400
  agreements : List ClaimId := []
  disagreements : List ObjectionDraft := []
  noMaterialIssues : Bool := false
  confidence : Confidence
  agreements_max : agreements.length ≤ MAX_AGREEMENTS
  disagreements_max : disagreements.length ≤ MAX_OBJECTIONS

structure ReviewReplyDraft where
  reviews : List ReviewDraft
  reviews_ne : reviews ≠ []
  reviews_max : reviews.length ≤ MAX_REVIEWS

/-- Why a reply is not converted. `noSeat` is the `KeyError` of a target
that is no seat of the profile, `self` the contract's `ValidationError`. -/
inductive ReviewError
  | targetTwice
  | targets (shown : List PyStr)
  | notShown (index : Nat) (claim : ClaimId) (target : PyStr)
  | noIssuesWithDisagreements (index : Nat)
  | neither (index : Nat)
  | cites (index : Nat) (ref : PyStr)
  | noSeat (target : PyStr)
  | self

def ReviewError.message : ReviewError → PyStr
  | .targetTwice => "reviews: each target may be reviewed only once".toList
  | .targets shown =>
      "reviews: expected exactly one review for each of ".toList ++ Text.join ", ".toList shown
  | .notShown index claim target =>
      "reviews.".toList ++ (toString index).toList ++ ": claim ".toList ++ claim
        ++ " does not belong to ".toList ++ target
  | .noIssuesWithDisagreements index =>
      "reviews.".toList ++ (toString index).toList
        ++ ": no_material_issues cannot come with disagreements".toList
  | .neither index =>
      "reviews.".toList ++ (toString index).toList
        ++ ": give a disagreement or set no_material_issues".toList
  | .cites index ref =>
      "reviews.".toList ++ (toString index).toList ++ ": text cites ".toList ++ ref
        ++ ", which is not this target's claim".toList
  | .noSeat target => target
  | .self => "a seat cannot review itself".toList

def ReviewDraft.texts (review : ReviewDraft) : List PyStr :=
  review.steelman.val :: review.disagreements.map (·.objection.val)
    ++ review.disagreements.map (·.suggestedResolution.val)

/-- The body of the loop of `critiques_from_draft`. -/
def critiqueOf (cls : CharClasses) (reviewer : Seat) (shown : Assoc PyStr (List ClaimId))
    (profile : PrefixedProfile) (index : Nat) (review : ReviewDraft) : Except ReviewError Critique :=
  let cited := review.agreements ++ review.disagreements.map (·.claimId)
  match cited.find? fun claim => !((shown.get? review.target).getD []).contains claim with
  | some claim => .error (.notShown index claim review.target)
  | none =>
      if review.noMaterialIssues && !review.disagreements.isEmpty then
        .error (.noIssuesWithDisagreements index)
      else if !review.noMaterialIssues && review.disagreements.isEmpty then .error (.neither index)
      else
        match profile.claimPrefix review.target with
        | none => .error (.noSeat review.target)
        | some targetPrefix =>
            match foreignClaimIds cls review.texts [targetPrefix, reviewer.claimPrefix]
                profile.prefixes with
            | ref :: _ => .error (.cites index ref)
            | [] =>
                if h : review.target ≠ reviewer.id then
                  .ok {
                    reviewerSeat := reviewer.id
                    targetSeat := review.target
                    steelman := review.steelman
                    agreements := review.agreements
                    disagreements := review.disagreements.map fun item => {
                      claimId := item.claimId
                      objection := item.objection
                      kind := item.kind
                      severity := item.severity
                      suggestedResolution := item.suggestedResolution }
                    noMaterialIssues := review.noMaterialIssues
                    confidence := review.confidence
                    not_self := h }
                else .error .self

def critiquesOf (cls : CharClasses) (reviewer : Seat) (shown : Assoc PyStr (List ClaimId))
    (profile : PrefixedProfile) : Nat → List ReviewDraft → Except ReviewError (List Critique)
  | _, [] => .ok []
  | index, review :: rest =>
      match critiqueOf cls reviewer shown profile index review with
      | .error e => .error e
      | .ok critique =>
          match critiquesOf cls reviewer shown profile (index + 1) rest with
          | .error e => .error e
          | .ok critiques => .ok (critique :: critiques)

/-- `critiques_from_draft`; the order is that of the perspective seats,
and only they have a place in it. -/
def critiquesFromDraft (cls : CharClasses) (draft : ReviewReplyDraft) (reviewer : Seat)
    (shown : Assoc PyStr (List ClaimId)) (profile : PrefixedProfile) :
    Except ReviewError (List Critique) :=
  let targets := draft.reviews.map (·.target)
  if ¬ targets.Nodup then .error .targetTwice
  else if ¬ ((∀ t ∈ targets, t ∈ shown.keys) ∧ ∀ t ∈ shown.keys, t ∈ targets) then
    .error (.targets (shown.keys.mergeSort fun a b => decide (a ≤ b)))
  else
    match critiquesOf cls reviewer shown profile 0 draft.reviews with
    | .error e => .error e
    | .ok critiques =>
        let order := profile.perspectiveSeats.map (·.id)
        match critiques.find? fun c => !order.contains c.targetSeat with
        | some c => .error (.noSeat c.targetSeat)
        | none =>
            .ok (critiques.mergeSort fun a b =>
              decide (order.idxOf a.targetSeat ≤ order.idxOf b.targetSeat))

end Velune.Council
