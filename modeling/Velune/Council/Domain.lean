/-
The vocabulary of the council core (`council/domain.py`) and its seats
as validated data (`council/profiles.py`).

A profile names the perspective seats of one domain and the three
orchestration seats. `RoleProfile` carries what its validator checked,
so a profile with two seats of one id, or a moderator of the wrong
kind, cannot be built.
-/
import Velune.Domain
import Velune.Lib.Dict

namespace Velune.Council

open Lib

-- ===== enums

inductive CouncilDomain
  | general | coding | teaching | brainstorming
  deriving DecidableEq, Repr

inductive SeatKind
  | perspective | moderator | arbitrator | synthesizer
  deriving DecidableEq, Repr

def SeatKind.value : SeatKind → PyStr
  | .perspective => "perspective".toList
  | .moderator => "moderator".toList
  | .arbitrator => "arbitrator".toList
  | .synthesizer => "synthesizer".toList

inductive StageId
  | frame | perspectives | review | revision | arbitration | synthesis
  deriving DecidableEq, Repr

def StageId.value : StageId → PyStr
  | .frame => "frame".toList
  | .perspectives => "perspectives".toList
  | .review => "review".toList
  | .revision => "revision".toList
  | .arbitration => "arbitration".toList
  | .synthesis => "synthesis".toList

def STAGE_ORDER : List StageId :=
  [.frame, .perspectives, .review, .revision, .arbitration, .synthesis]

inductive Depth
  | quick | standard
  deriving DecidableEq, Repr

inductive Criticality
  | required | optional
  deriving DecidableEq, Repr

inductive FallbackPolicy
  | none | deterministicDefault | skip
  deriving DecidableEq, Repr

/-- How many seats must deliver for a stage to count as having run; at
least one of `requireAnyOf` if it names any. -/
structure QuorumRule where
  minOk : Nat
  requireAnyOf : List PyStr := []
  deriving DecidableEq, Repr

-- ===== slugs

/-- `[a-z0-9_]`. -/
def isSlugChar (c : Char) : Bool := Text.isLower c || Text.isDigit c || c == '_'

/-- `^[a-z][a-z0-9_]{1,31}$`. -/
def isSlug (s : PyStr) : Bool := Text.headed Text.isLower isSlugChar 31 s && decide (2 ≤ s.length)

/-- `_SLUG.match`: the same pattern, but its `$` also matches before a
final line feed. -/
def matchesSlug (s : PyStr) : Bool :=
  isSlug s || (s.getLast? == some '\n' && isSlug s.dropLast)

abbrev Slug := { s : PyStr // isSlug s = true }

theorem isSlug_length {s : PyStr} (h : isSlug s = true) : s.length ≤ 32 := by
  unfold isSlug at h
  rw [Bool.and_eq_true] at h
  exact Text.headed_length h.1

theorem matchesSlug_length {s : PyStr} (h : matchesSlug s = true) : s.length ≤ 33 := by
  unfold matchesSlug at h
  rw [Bool.or_eq_true, Bool.and_eq_true] at h
  rcases h with h | ⟨-, h⟩
  · have := isSlug_length h
    omega
  · have := isSlug_length h
    rw [List.length_dropLast] at this
    omega

-- ===== profiles

structure SeatSpec where
  id : PyStr
  kind : SeatKind
  id_ok : matchesSlug id = true
  deriving DecidableEq

def MIN_PERSPECTIVES : Nat := 3

def MAX_PERSPECTIVES : Nat := 7

structure RoleProfile where
  id : PyStr
  domain : CouncilDomain
  perspectiveSeats : List SeatSpec
  moderator : SeatSpec
  arbitrator : SeatSpec
  synthesizer : SeatSpec
  runnable : Bool := false
  defaultQuorum : QuorumRule
  id_ok : matchesSlug id = true
  perspectives_min : MIN_PERSPECTIVES ≤ perspectiveSeats.length
  perspectives_max : perspectiveSeats.length ≤ MAX_PERSPECTIVES
  perspectives_kind : ∀ spec ∈ perspectiveSeats, spec.kind = .perspective
  moderator_kind : moderator.kind = .moderator
  arbitrator_kind : arbitrator.kind = .arbitrator
  synthesizer_kind : synthesizer.kind = .synthesizer
  ids_unique :
    ((perspectiveSeats ++ [moderator, arbitrator, synthesizer]).map (·.id)).Nodup
  quorum_named : ∀ seat ∈ defaultQuorum.requireAnyOf, seat ∈ perspectiveSeats.map (·.id)
  quorum_fits : defaultQuorum.minOk ≤ perspectiveSeats.length

namespace RoleProfile

def orchestrationSeats (p : RoleProfile) : List SeatSpec := [p.moderator, p.arbitrator, p.synthesizer]

def allSeats (p : RoleProfile) : List SeatSpec := p.perspectiveSeats ++ p.orchestrationSeats

/-- The seat of an id, in the table `{spec.id: spec}` of all seats. -/
def seat (p : RoleProfile) (seatId : PyStr) : Option SeatSpec :=
  p.allSeats.find? (·.id == seatId)

end RoleProfile

inductive ProfileError
  | unknownProfile (profileId : PyStr)
  | profileNotRunnable (profileId : PyStr)
  deriving DecidableEq, Repr

structure ProfileRegistry where
  profiles : Dict PyStr RoleProfile

def ProfileRegistry.requireRunnable (r : ProfileRegistry) (profileId : PyStr) :
    Except ProfileError RoleProfile :=
  match r.profiles profileId with
  | none => .error (.unknownProfile profileId)
  | some profile =>
      if profile.runnable then .ok profile else .error (.profileNotRunnable profileId)

end Velune.Council
