/-
A list split at the occurrences of a separator, from the left, and its last
piece.

A separator whose first element does not come again in it cannot meet
itself, so the last piece is what follows the last occurrence
(`lastPiece_append_sep`), or everything (`lastPiece_of_free`). Behind an
element that is not the separator's, nothing of it is hidden
(`infix_append_cons`), and what has none there stays whole
(`lastPiece_append_cons`).
-/
import Mathlib.Data.List.Infix

namespace Lib

variable {α : Type*} [DecidableEq α]

/-- The pieces; `n` elements of a separator are still to be skipped. -/
def splitFrom (sep : List α) : Nat → List α → List (List α)
  | _, [] => [[]]
  | n + 1, _ :: s => splitFrom sep n s
  | 0, c :: s =>
      if sep.isPrefixOf (c :: s) then [] :: splitFrom sep (sep.length - 1) s
      else (splitFrom sep 0 s).modifyHead (c :: ·)

def splitText (sep s : List α) : List (List α) := splitFrom sep 0 s

/-- `s.split(sep)[-1]`. -/
def lastPiece (sep s : List α) : List α := (splitText sep s).getLastD []

theorem splitFrom_cons (sep : List α) (c : α) (s : List α) :
    splitFrom sep 0 (c :: s)
      = if sep.isPrefixOf (c :: s) then [] :: splitFrom sep (sep.length - 1) s
        else (splitFrom sep 0 s).modifyHead (c :: ·) := rfl

omit [DecidableEq α] in
theorem infix_append_cons {sep a r : List α} {d : α} (hd : d ∉ sep) :
    sep <:+: a ++ d :: r ↔ sep <:+: a ∨ sep <:+: r := by
  constructor
  · intro h
    obtain ⟨x, y, heq⟩ := h
    rw [List.append_assoc] at heq
    rcases List.append_eq_append_iff.1 heq with ⟨m, ha, hm⟩ | ⟨m, hx, hm⟩
    · rcases List.append_eq_append_iff.1 hm with ⟨n, hn, -⟩ | ⟨n, hsep, hn⟩
      · exact .inl ⟨x, n, by rw [ha, hn, List.append_assoc]⟩
      · cases n with
        | nil => exact .inl ⟨x, [], by rw [ha, hsep, List.append_nil, List.append_nil]⟩
        | cons e n =>
            obtain ⟨rfl, -⟩ := List.cons.inj hn
            exact absurd (by rw [hsep]; simp) hd
    · cases m with
      | nil =>
          cases sep with
          | nil => exact .inl (List.nil_infix)
          | cons c t =>
              obtain ⟨rfl, -⟩ := List.cons.inj hm
              exact absurd (List.mem_cons_self ..) hd
      | cons e m =>
          obtain ⟨-, hr⟩ := List.cons.inj hm
          refine .inr ⟨m, y, ?_⟩
          rw [hr, List.append_assoc]
          rfl
  · intro h
    rcases h with h | h
    · exact h.trans (List.prefix_append a (d :: r)).isInfix
    · exact h.trans ((List.suffix_cons d r).trans (List.suffix_append a (d :: r))).isInfix

omit [DecidableEq α] in
theorem suffix_append_cons {sep a r : List α} {d : α} (hd : d ∉ sep) :
    sep <:+ a ++ d :: r ↔ sep <:+ r := by
  constructor
  · intro h
    obtain ⟨x, heq⟩ := h
    rcases List.append_eq_append_iff.1 heq with ⟨m, ha, hm⟩ | ⟨m, hx, hm⟩
    · exact absurd (by rw [hm]; simp) hd
    · cases m with
      | nil => exact absurd (by rw [← List.nil_append sep, ← hm]; simp) hd
      | cons e m =>
          obtain ⟨-, hr⟩ := List.cons.inj hm
          exact ⟨m, hr.symm⟩
  · intro h
    exact h.trans ((List.suffix_cons d r).trans (List.suffix_append a (d :: r)))

theorem splitFrom_of_free {sep : List α} : ∀ {s : List α}, ¬ sep <:+: s → splitFrom sep 0 s = [s] := by
  intro s
  induction s with
  | nil => exact fun _ => rfl
  | cons c s ih =>
      intro h
      rw [splitFrom_cons, if_neg, ih fun hs => h (hs.trans (List.suffix_cons c s).isInfix)]
      · rfl
      · intro hpre
        exact h (List.isPrefixOf_iff_prefix.1 hpre).isInfix

/-- A separator of one element: what is before its first occurrence is the
first piece. -/
theorem splitText_singleton {c : α} {x : List α} (h : c ∉ x) (rest : List α) :
    splitText [c] (x ++ c :: rest) = x :: splitText [c] rest := by
  induction x with
  | nil => simp [splitText, splitFrom_cons]
  | cons d x ih =>
      have hd : c ≠ d := fun heq => h (heq ▸ List.mem_cons_self)
      have ih := ih fun hmem => h (List.mem_cons_of_mem d hmem)
      unfold splitText at ih ⊢
      rw [List.cons_append, splitFrom_cons, ih]
      simp [hd]

theorem splitText_of_not_mem {c : α} {x : List α} (h : c ∉ x) : splitText [c] x = [x] :=
  splitFrom_of_free fun hin => h (hin.mem (List.mem_singleton.2 rfl))

theorem splitFrom_ne_nil (sep s : List α) : ∀ n, splitFrom sep n s ≠ [] := by
  induction s with
  | nil => exact fun n => by cases n <;> exact List.cons_ne_nil _ _
  | cons c s ih =>
      intro n
      cases n with
      | zero =>
          rw [splitFrom_cons]
          split
          · exact List.cons_ne_nil _ _
          · intro hnil
            exact ih 0 (by simpa using hnil)
      | succ n => exact ih n

theorem splitFrom_skip (sep : List α) : ∀ t s : List α, splitFrom sep t.length (t ++ s) = splitFrom sep 0 s := by
  intro t
  induction t with
  | nil => exact fun _ => rfl
  | cons c t ih => exact ih

theorem splitFrom_last {c : α} {t : List α} (hc : c ∉ t) {b : List α} (hb : ¬ c :: t <:+: b) :
    ∀ (a : List α) (k : Nat), k ≤ a.length →
      ∃ p ps, splitFrom (c :: t) k (a ++ (c :: t) ++ b) = p :: ps ∧ ps.getLast? = some b := by
  intro a
  induction a with
  | nil =>
      intro k hk
      obtain rfl : k = 0 := Nat.le_zero.1 hk
      have hpre : (c :: t).isPrefixOf (c :: (t ++ b)) = true :=
        List.isPrefixOf_iff_prefix.2 ((List.cons_prefix_cons).2 ⟨rfl, List.prefix_append t b⟩)
      refine ⟨[], [b], ?_, rfl⟩
      show splitFrom (c :: t) 0 (c :: (t ++ b)) = _
      rw [splitFrom_cons, if_pos hpre, List.length_cons, Nat.add_sub_cancel, splitFrom_skip,
        splitFrom_of_free hb]
  | cons x a ih =>
      intro k hk
      rw [List.length_cons] at hk
      cases k with
      | succ k => exact ih k (by omega)
      | zero =>
          show ∃ p ps, splitFrom (c :: t) 0 (x :: (a ++ (c :: t) ++ b)) = p :: ps ∧ _
          rw [splitFrom_cons]
          split
          next hpre =>
            -- an occurrence here cannot reach the last one
            have hlen : t.length ≤ a.length := by
              by_contra hlong
              obtain ⟨-, htail⟩ := List.cons_prefix_cons.1 (List.isPrefixOf_iff_prefix.1 hpre)
              rw [List.append_assoc] at htail
              have ha : a ++ [c] <+: t := by
                refine List.prefix_of_prefix_length_le (?_ : a ++ [c] <+: a ++ (c :: t ++ b)) htail ?_
                · rw [List.prefix_append_right_inj]
                  exact ⟨t ++ b, rfl⟩
                · rw [List.length_append, List.length_singleton]
                  omega
              exact hc (ha.subset (List.mem_append_right _ (List.mem_singleton_self c)))
            obtain ⟨p, ps, hsplit, hlast⟩ := ih t.length hlen
            rw [List.length_cons, Nat.add_sub_cancel, hsplit]
            refine ⟨[], p :: ps, rfl, ?_⟩
            rw [List.getLast?_cons, hlast]
            rfl
          next =>
            obtain ⟨p, ps, hsplit, hlast⟩ := ih 0 (Nat.zero_le _)
            rw [hsplit]
            exact ⟨x :: p, ps, rfl, hlast⟩

-- ===== the last piece

theorem lastPiece_of_free {sep s : List α} (h : ¬ sep <:+: s) : lastPiece sep s = s := by
  rw [lastPiece, splitText, splitFrom_of_free h]
  rfl

section

variable {c : α} {t : List α} (hc : c ∉ t)

include hc

theorem lastPiece_append_sep {b : List α} (hb : ¬ c :: t <:+: b) (a : List α) :
    lastPiece (c :: t) (a ++ (c :: t) ++ b) = b := by
  obtain ⟨p, ps, hsplit, hlast⟩ := splitFrom_last hc hb a 0 (Nat.zero_le _)
  rw [lastPiece, splitText, hsplit, List.getLastD_cons, List.getLastD_eq_getLast?, hlast]
  rfl

omit [DecidableEq α] hc in
theorem exists_last : ∀ {s : List α}, c :: t <:+: s →
    ∃ a b, s = a ++ (c :: t) ++ b ∧ ¬ c :: t <:+: b := by
  intro s
  induction hn : s.length using Nat.strong_induction_on generalizing s with
  | _ n ih =>
      intro h
      obtain ⟨a, b, rfl⟩ := h
      by_cases hb : c :: t <:+: b
      · have hless : b.length < n := by
          rw [← hn]
          simp
          omega
        obtain ⟨a', b', rfl, hb'⟩ := ih b.length hless rfl hb
        exact ⟨a ++ (c :: t) ++ a', b', by simp, hb'⟩
      · exact ⟨a, b, rfl, hb⟩

/-- The last piece begins behind all that stands before an occurrence. -/
theorem lastPiece_append {r : List α} (h : c :: t <:+: r) (a : List α) :
    lastPiece (c :: t) (a ++ r) = lastPiece (c :: t) r := by
  obtain ⟨x, b, rfl, hb⟩ := exists_last h
  rw [lastPiece_append_sep hc hb, ← List.append_assoc, ← List.append_assoc,
    lastPiece_append_sep hc hb]

theorem length_lastPiece_lt {s : List α} (h : c :: t <:+: s) :
    (lastPiece (c :: t) s).length < s.length := by
  obtain ⟨a, b, rfl, hb⟩ := exists_last h
  rw [lastPiece_append_sep hc hb]
  simp
  omega

theorem lastPiece_suffix (s : List α) : lastPiece (c :: t) s <:+ s := by
  by_cases h : c :: t <:+: s
  · obtain ⟨a, b, rfl, hb⟩ := exists_last h
    rw [lastPiece_append_sep hc hb]
    exact List.suffix_append _ b
  · rw [lastPiece_of_free h]

theorem lastPiece_append_cons {d : α} (hd : d ∉ c :: t) {r : List α} (hr : ¬ c :: t <:+: r)
    (a : List α) : lastPiece (c :: t) (a ++ d :: r) = lastPiece (c :: t) a ++ d :: r := by
  by_cases ha : c :: t <:+: a
  · obtain ⟨x, b, rfl, hb⟩ := exists_last ha
    have hrest : ¬ c :: t <:+: b ++ d :: r := fun h => ((infix_append_cons hd).1 h).elim hb hr
    rw [lastPiece_append_sep hc hb, List.append_assoc _ b, lastPiece_append_sep hc hrest]
  · rw [lastPiece_of_free ha, lastPiece_of_free fun h => ((infix_append_cons hd).1 h).elim ha hr]

theorem lastPiece_eq_nil_iff {s : List α} (hs : s ≠ []) :
    lastPiece (c :: t) s = [] ↔ c :: t <:+ s := by
  constructor
  · intro h
    by_cases hin : c :: t <:+: s
    · obtain ⟨a, b, rfl, hb⟩ := exists_last hin
      rw [lastPiece_append_sep hc hb] at h
      rw [h, List.append_nil]
      exact List.suffix_append a _
    · rw [lastPiece_of_free hin] at h
      exact absurd h hs
  · intro h
    obtain ⟨a, rfl⟩ := h
    have hlast := @lastPiece_append_sep _ _ c t hc [] (by simp) a
    rwa [List.append_nil] at hlast

end

end Lib
