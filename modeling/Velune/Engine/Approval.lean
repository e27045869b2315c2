/-
Approval of one specific tool invocation
(`orchestration/engine/approval.py`): the invocation the ledger mints,
the decision a port answers with, and the ledger that consumes a
decision at most once.

The ledger is looked up by the id *inside the answer*. Whose call asked
is not among its inputs, so each pending entry also carries, as ghost
data nothing below reads, the call it was minted for: that is what the
theorems about binding speak of.

The request's `display` text is left out: it is presentation only, never
compared in `consume`.
-/
import Velune.Domain
import Velune.Lib.Dict

namespace Velune.Engine

open Lib

-- ===== values

/-- `^[0-9a-f]{64}$`. -/
def isSha256 : PyStr → Bool := Text.ranged Text.isHex 64 64

structure InvocationRequest where
  invocationId : PyStr
  tool : PyStr
  callDigest : PyStr
  id_long : 8 ≤ invocationId.length
  id_short : invocationId.length ≤ 64
  digest_ok : isSha256 callDigest = true
  deriving DecidableEq

def InvocationRequest.validate (invocationId tool callDigest : PyStr) :
    Option InvocationRequest :=
  if h : 8 ≤ invocationId.length ∧ invocationId.length ≤ 64 ∧ isSha256 callDigest = true then
    some ⟨invocationId, tool, callDigest, h.1, h.2.1, h.2.2⟩
  else none

/-- An approver's answer, echoing the invocation it is about. -/
structure ApprovalDecision where
  invocationId : PyStr
  tool : PyStr
  callDigest : PyStr
  approved : Bool
  deriving DecidableEq, Repr

inductive ApprovalFailure
  | missing | denied | stale | mismatch
  deriving DecidableEq, Repr

-- ===== ledger

/-- A pending invocation: the request, when it was issued and (ghost)
the call it was minted for. -/
structure Pending where
  request : InvocationRequest
  issuedAt : Nat
  mintedFor : Nat
  deriving DecidableEq

/-- `ApprovalLedger`. Its constructor rejects a time to live of zero. -/
structure ApprovalLedger where
  ttl : Nat
  ttl_pos : 0 < ttl
  pending : Dict PyStr Pending

def ApprovalLedger.fresh (ttl : Nat) (h : 0 < ttl) : ApprovalLedger := ⟨ttl, h, Dict.empty⟩

namespace ApprovalLedger

/-- Mint an invocation and mark it pending. `none` is an exception: the
new id is live already, or the request does not validate. -/
def issue (l : ApprovalLedger) (tool callDigest newId : PyStr) (now mintedFor : Nat) :
    Option (InvocationRequest × ApprovalLedger) :=
  match l.pending newId with
  | some _ => none
  | none =>
      match InvocationRequest.validate newId tool callDigest with
      | none => none
      | some request =>
          some (request, { l with pending := l.pending.insert newId ⟨request, now, mintedFor⟩ })

/-- What is wrong with `decision` as the answer to the pending `entry`. -/
def problem (l : ApprovalLedger) (entry : Pending) (decision : ApprovalDecision) (now : Nat) :
    Option ApprovalFailure :=
  if now - entry.issuedAt > l.ttl then some .stale
  else if decision.tool ≠ entry.request.tool ∨ decision.callDigest ≠ entry.request.callDigest then
    some .mismatch
  else if decision.approved = false then some .denied
  else none

/-- Use a decision once: the entry it names is removed before anything
is compared. `none` as the first component means approved. -/
def consume (l : ApprovalLedger) (decision : Option ApprovalDecision) (now : Nat) :
    Option ApprovalFailure × ApprovalLedger :=
  match decision with
  | none => (some .missing, l)
  | some d =>
      match l.pending d.invocationId with
      | none => (some .stale, l)
      | some entry => (l.problem entry d now, { l with pending := l.pending.erase d.invocationId })

def discard (l : ApprovalLedger) (invocationId : PyStr) : ApprovalLedger :=
  { l with pending := l.pending.erase invocationId }

-- ===== lemmas

/-- What a successful `issue` did. -/
theorem issue_eq_some {l l' : ApprovalLedger} {tool callDigest newId : PyStr}
    {now mintedFor : Nat} {request : InvocationRequest}
    (h : l.issue tool callDigest newId now mintedFor = some (request, l')) :
    l.pending newId = none ∧ request.invocationId = newId ∧ request.tool = tool
      ∧ request.callDigest = callDigest
      ∧ l'.pending = l.pending.insert newId ⟨request, now, mintedFor⟩ := by
  unfold issue at h
  split at h
  next => cases h
  next hfree =>
    unfold InvocationRequest.validate at h
    split at h
    next => cases h
    next request' hv =>
      split at hv
      next =>
        cases hv
        cases h
        exact ⟨hfree, rfl, rfl, rfl, rfl⟩
      next => cases hv

/-- A decision is accepted only for the live entry it names, unexpired,
with the entry's own tool and digest, and approved. -/
theorem consume_eq_none {l l' : ApprovalLedger} {decision : Option ApprovalDecision} {now : Nat}
    (h : l.consume decision now = (none, l')) :
    ∃ d entry, decision = some d ∧ l.pending d.invocationId = some entry
      ∧ now - entry.issuedAt ≤ l.ttl ∧ d.tool = entry.request.tool
      ∧ d.callDigest = entry.request.callDigest ∧ d.approved = true
      ∧ l'.pending = l.pending.erase d.invocationId := by
  cases decision with
  | none => cases h
  | some d =>
      unfold consume at h
      cases he : l.pending d.invocationId with
      | none => simp [he] at h
      | some entry =>
          simp only [he, Prod.mk.injEq] at h
          obtain ⟨hp, rfl⟩ := h
          unfold problem at hp
          split_ifs at hp with hstale hmis hden
          rw [not_or, not_not, not_not] at hmis
          exact ⟨d, entry, rfl, he, Nat.le_of_not_lt hstale, hmis.1, hmis.2,
            by simpa using hden, rfl⟩

/-- Whatever the answer, consuming it removes at most the entry it
names and touches no other. -/
theorem consume_pending (l : ApprovalLedger) (decision : Option ApprovalDecision) (now : Nat)
    {id : PyStr} {entry : Pending}
    (h : (l.consume decision now).2.pending id = some entry) : l.pending id = some entry := by
  cases decision with
  | none => exact h
  | some d =>
      unfold consume at h
      cases he : l.pending d.invocationId with
      | none => simpa [he] using h
      | some e =>
          simp only [he] at h
          exact (Dict.erase_eq_some h).2

end ApprovalLedger

end Velune.Engine
