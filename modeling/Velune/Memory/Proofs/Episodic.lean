/-
When the episodic store gives back what was recorded.

The turn indexes of a session always count up from 0. The reads sort by
the clock instead, so they give the turns in the order of recording
exactly where the clock rose from each turn to the next; and a search
finds the turns with its text exactly where no other turn matches the text
as a pattern (`reads_faithful_iff`).
-/
import Mathlib.Data.List.DropRight
import Velune.Memory.Episodic

namespace Velune.Memory

open Lib Lib.Select

namespace EpisodicMemory

-- ===== property

variable (s : EpisodicMemory)

def Indexed : Prop := ∀ sessionId,
  (s.ofSession sessionId).map (·.turnIndex) = List.range (s.ofSession sessionId).length

/-- `get_session_history` gives the turns in the order of recording. -/
def HistoryFaithful (sessionId : PyStr) : Prop :=
  ∀ result, s.GetsSessionHistory sessionId result → result = s.ofSession sessionId

/-- `get_recent_turns` gives the last of them. -/
def RecentFaithful (sessionId : PyStr) : Prop :=
  ∀ (limit : Nat) result, s.GetsRecentTurns sessionId limit result →
    result = (s.ofSession sessionId).rtake limit

def withText (query workspaceRoot : PyStr) : List Turn :=
  (s.ofWorkspace workspaceRoot).filter fun turn => Contains turn.content query

/-- `search_by_content` gives the last turns with the text. -/
def SearchFaithful (query workspaceRoot : PyStr) : Prop :=
  ∀ (limit : Nat) result, s.SearchesByContent query workspaceRoot limit result →
    result.Perm ((s.withText query workspaceRoot).rtake limit)

def Rising (turns : List Turn) : Prop := turns.Pairwise (·.createdAt < ·.createdAt)

/-- The query has no wildcard, or no turn matches it without having it. -/
def TextOnly (query workspaceRoot : PyStr) : Prop :=
  Plain query ∨ ∀ turn ∈ s.ofWorkspace workspaceRoot,
    like (containing query) turn.content → Contains turn.content query

-- ===== invariant

/-- No two turns have one id, and each session's are numbered. -/
structure Numbered : Prop where
  ids : (s.turns.map (·.id)).Nodup
  indexed : s.Indexed

section Steps

variable {s : EpisodicMemory}

theorem nextIndex_range {turns : List Turn} {n : Nat}
    (h : turns.map (·.turnIndex) = List.range n) : nextIndex turns = n := by
  unfold nextIndex
  rw [h]
  cases n with
  | zero => rfl
  | succ n =>
      have hmax : (List.range (n + 1)).max? = some n := by
        refine List.max?_eq_some_iff.2 ⟨List.mem_range.2 (Nat.lt_succ_self n), fun i hi => ?_⟩
        exact Nat.le_of_lt_succ (List.mem_range.1 hi)
      rw [hmax]
      rfl

theorem numbered_append (h : s.Numbered) {turn : Turn} (hid : ∀ other ∈ s.turns, other.id ≠ turn.id)
    (hindex : turn.turnIndex = nextIndex (s.ofSession turn.sessionId)) :
    Numbered { s with turns := s.turns ++ [turn] } := by
  refine ⟨?_, fun sessionId => ?_⟩
  · dsimp only
    rw [List.map_append]
    refine List.Nodup.append h.ids (List.nodup_singleton _) fun id hold hnew => ?_
    obtain ⟨other, hother, heq⟩ := List.mem_map.1 hold
    exact hid other hother (heq.trans (List.mem_singleton.1 hnew))
  · unfold ofSession
    rw [List.filter_append]
    by_cases hsession : turn.sessionId = sessionId
    · subst hsession
      have hone : [turn].filter (·.sessionId = turn.sessionId) = [turn] := by simp
      have hlast : turn.turnIndex = (s.ofSession turn.sessionId).length :=
        hindex.trans (nextIndex_range (h.indexed turn.sessionId))
      rw [hone, List.map_append, List.length_append, List.length_singleton, List.range_succ]
      exact congr (congrArg _ (h.indexed turn.sessionId)) (congrArg (fun i => [i]) hlast)
    · have hnone : [turn].filter (·.sessionId = sessionId) = [] := by simp [hsession]
      rw [hnone, List.append_nil]
      exact h.indexed sessionId

theorem numbered_step {call : Call} {s' : EpisodicMemory} (h : s.Numbered)
    (hstep : step call s = some s') : s'.Numbered := by
  cases call with
  | startSession workspaceRoot sessionId =>
      cases hstep
      unfold startSession
      split
      · exact ⟨h.ids, h.indexed⟩
      · exact h
  | recordTurn turnId sessionId role content model tokens now inserts =>
      cases hstep
      unfold recordTurn
      split
      · rename_i hinserts
        exact numbered_append h hinserts.2.2 rfl
      · exact h

end Steps

-- ===== reads

section Reads

variable {s : EpisodicMemory} {sessionId query workspaceRoot : PyStr}

theorem nodup_turns (h : s.Numbered) : s.turns.Nodup := List.Nodup.of_map _ h.ids

theorem history_iff (h : s.Numbered) :
    s.HistoryFaithful sessionId ↔ Rising (s.ofSession sessionId) := by
  refine ⟨fun hfaithful => ?_, fun hrising result hresult => ?_⟩
  · exact rising_of_unique ((nodup_turns h).filter _) (List.Perm.refl _) hfaithful
  · exact ordered_unique hrising (List.Perm.refl _) hresult

theorem rising_reverse {turns : List Turn} : turns.reverse.Pairwise (fun a b =>
    OrderDual.toDual a.createdAt < OrderDual.toDual b.createdAt) ↔ Rising turns :=
  List.pairwise_reverse

theorem recent_iff (h : s.Numbered) :
    s.RecentFaithful sessionId ↔ Rising (s.ofSession sessionId) := by
  refine ⟨fun hfaithful => ?_, fun hrising limit result ⟨rows, hrows, hresult⟩ => ?_⟩
  · refine rising_reverse.1 (rising_of_unique (List.nodup_reverse.2 ((nodup_turns h).filter _))
      (List.reverse_perm _) fun rows hrows => ?_)
    have hlength := hrows.1.length_eq
    have hall := hfaithful rows.length _ ⟨rows, hrows, rfl⟩
    rw [limitRows_nat, List.take_length, List.rtake, hlength, Nat.sub_self, List.drop_zero] at hall
    rw [← hall, List.reverse_reverse]
  · rw [hresult, limitRows_nat, List.rtake_eq_reverse_take_reverse,
      ordered_unique (rising_reverse.2 hrising) (List.reverse_perm _) hrows]

theorem like_of_text {turn : Turn} (h : turn ∈ s.withText query workspaceRoot) :
    turn ∈ s.ofWorkspace workspaceRoot ∧ Contains turn.content query := by
  obtain ⟨hmem, hcontains⟩ := List.mem_filter.1 h
  exact ⟨hmem, of_decide_eq_true hcontains⟩

/-- Where the pattern finds the text only, it finds the turns with it. -/
theorem matching_eq (h : s.TextOnly query workspaceRoot) :
    ((s.ofWorkspace workspaceRoot).filter fun turn => like (containing query) turn.content)
      = s.withText query workspaceRoot := by
  refine List.filter_congr fun turn hturn => Bool.eq_iff_iff.2 ?_
  rw [decide_eq_true_eq]
  refine ⟨fun hlike => ?_, like_of_contains⟩
  rcases h with hplain | honly
  · exact contains_of_like hplain hlike
  · exact honly turn hturn hlike

theorem search_iff (h : s.Numbered) : s.SearchFaithful query workspaceRoot
    ↔ s.TextOnly query workspaceRoot ∧ Rising (s.withText query workspaceRoot) := by
  refine ⟨fun hfaithful => ?_, fun ⟨honly, hrising⟩ limit result ⟨rows, hrows, hresult⟩ => ?_⟩
  · have hfound : ∀ rows, Ordered (fun turn : Turn => OrderDual.toDual turn.createdAt)
        ((s.ofWorkspace workspaceRoot).filter fun turn => like (containing query) turn.content)
        rows → ∀ n : Nat, (rows.take n).Perm ((s.withText query workspaceRoot).reverse.take n) := by
      intro rows hrows n
      have hperm := hfaithful n _ ⟨rows, hrows, rfl⟩
      rw [limitRows_nat, List.rtake_eq_reverse_take_reverse] at hperm
      exact hperm.trans (List.reverse_perm _)
    have heq : ∀ rows, Ordered _ _ rows → rows = (s.withText query workspaceRoot).reverse :=
      fun rows hrows => eq_of_take_perm (hfound rows hrows)
    have honly : s.TextOnly query workspaceRoot := by
      refine Or.inr fun turn hturn hlike => ?_
      obtain ⟨rows, hrows⟩ := exists_ordered (fun turn : Turn => OrderDual.toDual turn.createdAt)
        ((s.ofWorkspace workspaceRoot).filter fun turn => like (containing query) turn.content)
      have hmem := hrows.1.mem_iff.2 (List.mem_filter.2 ⟨hturn, hlike⟩)
      rw [heq rows hrows, List.mem_reverse] at hmem
      exact (like_of_text hmem).2
    refine ⟨honly, rising_reverse.1 (rising_of_unique (List.nodup_reverse.2 ?_)
      (List.reverse_perm _) fun rows hrows => ?_)⟩
    · exact ((nodup_turns h).filter _).filter _
    · exact heq rows (matching_eq honly ▸ hrows)
  · rw [matching_eq honly] at hrows
    rw [hresult, limitRows_nat, List.rtake_eq_reverse_take_reverse,
      ordered_unique (rising_reverse.2 hrising) (List.reverse_perm _) hrows]
    exact (List.reverse_perm _).symm

end Reads

-- ===== claim

/-- After any calls the turns of every session are numbered as they were
recorded; the reads of a session give them in that order exactly when the
clock rose throughout, and a search gives the turns with its text exactly
when moreover nothing else matches. -/
theorem reads_faithful_iff {calls : List Call} {t : EpisodicMemory} (hrun : run step calls {} = some t) :
    t.Indexed
      ∧ (∀ sessionId, t.HistoryFaithful sessionId ∧ t.RecentFaithful sessionId
          ↔ Rising (t.ofSession sessionId))
      ∧ ∀ query workspaceRoot, t.SearchFaithful query workspaceRoot
          ↔ t.TextOnly query workspaceRoot ∧ Rising (t.withText query workspaceRoot) := by
  have hempty : Numbered {} := ⟨List.nodup_nil, fun _ => rfl⟩
  have h : t.Numbered := run_preserves (fun _ _ _ h hstep => numbered_step h hstep) hempty hrun
  refine ⟨h.indexed, fun sessionId => ?_, fun query workspaceRoot => search_iff h⟩
  rw [history_iff h, recent_iff h, and_self_iff]

def secondApart : List Call :=
  [.startSession "w".toList "s".toList,
    .recordTurn "1".toList "s".toList "user".toList "a_b".toList none none 5 true,
    .recordTurn "2".toList "s".toList "assistant".toList "axb".toList none none 6 true]

def afterSecond : EpisodicMemory := (run step secondApart {}).getD {}

theorem secondApart_faithful : run step secondApart {} = some afterSecond ∧ afterSecond.Indexed
    ∧ afterSecond.HistoryFaithful "s".toList ∧ afterSecond.SearchFaithful "a".toList "w".toList := by
  have hrun : run step secondApart {} = some afterSecond := rfl
  obtain ⟨hindexed, hreads, hsearch⟩ := reads_faithful_iff hrun
  have hrises : Rising (afterSecond.ofSession "s".toList) := by
    unfold Rising
    decide
  have hplain : Plain "a".toList := by
    intro c hc
    cases List.mem_singleton.1 hc
    decide
  have hfound : Rising (afterSecond.withText "a".toList "w".toList) := by
    unfold Rising
    decide
  exact ⟨hrun, hindexed, ((hreads _).2 hrises).1, (hsearch _ _).2 ⟨Or.inl hplain, hfound⟩⟩

def sameReading : List Call :=
  [.startSession "w".toList "s".toList,
    .recordTurn "1".toList "s".toList "user".toList "axb".toList none none 5 true,
    .recordTurn "2".toList "s".toList "assistant".toList "yes".toList none none 5 true]

def afterSame : EpisodicMemory := (run step sameReading {}).getD {}

/-- Their history may be turned round, and a search for an underscore finds
a text without one. -/
theorem reads_unfaithful : run step sameReading {} = some afterSame
    ∧ ¬ afterSame.HistoryFaithful "s".toList ∧ ¬ afterSame.SearchFaithful "a_b".toList "w".toList := by
  refine ⟨rfl, fun h => ?_, fun h => ?_⟩
  · have hturned : afterSame.GetsSessionHistory "s".toList (afterSame.ofSession "s".toList).reverse :=
      ⟨List.reverse_perm _, by decide⟩
    have hsame := h _ hturned
    revert hsame
    decide
  · have hfirst : (afterSame.ofWorkspace "w".toList).filter
        (fun turn => like (containing "a_b".toList) turn.content) = afterSame.turns.take 1 := by decide
    have hfound : afterSame.SearchesByContent "a_b".toList "w".toList (1 : Nat)
        (limitRows (1 : Nat) (afterSame.turns.take 1)) :=
      ⟨_, hfirst ▸ ⟨List.Perm.refl _, by decide⟩, rfl⟩
    have hlength := (h 1 _ hfound).length_eq
    revert hlength
    decide

end EpisodicMemory

end Velune.Memory
