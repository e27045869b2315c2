/-
Replacement from left to right, as `str.replace` and `re.sub` do it: at the
first place where something is taken, the new text stands for it, and the
search goes on behind it. What is taken at a place, a matcher says, from
the element before the place and what comes from there on.

A result is gaps, in which nothing is taken, with the new text between them
(`Replaced`). A word that the new text is fenced off from (`Fenced`) then
stands within a gap or nowhere: replacing brings up none that was not there
(`infix_of_replaced`), and leaves none that the matcher would take
(`free_of_replaced`). What a matcher takes by what is before it needs a
closer look at where a gap begins (`place_of_replaced`).
-/
import Mathlib.Data.List.Infix

namespace Lib.Replace

variable {α : Type*}

-- ===== replacing

/-- How many elements are taken at a place, the element before it given. -/
abbrev Matcher (α : Type*) := Option α → List α → Option Nat

/-- The element before what follows `s`. -/
def lastOf (prev : Option α) (s : List α) : Option α := s.getLast?.or prev

/-- `n` elements have been taken already. -/
def replaceFrom (m : Matcher α) (new : List α) : Nat → Option α → List α → List α
  | _, _, [] => []
  | n + 1, _, c :: s => replaceFrom m new n (some c) s
  | 0, prev, c :: s =>
      match m prev (c :: s) with
      | some n => new ++ replaceFrom m new (n - 1) (some c) s
      | none => c :: replaceFrom m new 0 (some c) s

def replaceAll (m : Matcher α) (new s : List α) : List α := replaceFrom m new 0 none s

def literal [DecidableEq α] (old : List α) : Matcher α := fun _ s =>
  if old <+: s then some old.length else none

def Sound (m : Matcher α) : Prop := ∀ prev s n, m prev s = some n → 0 < n ∧ n ≤ s.length

/-- Nothing is taken in `g`, with `rest` behind it. -/
def Untaken (m : Matcher α) (prev : Option α) (g rest : List α) : Prop :=
  ∀ a b, g = a ++ b → b ≠ [] → m (lastOf prev a) (b ++ rest) = none

inductive Replaced (m : Matcher α) (new : List α) : Option α → List α → List α → Prop
  | rest {prev g} : Untaken m prev g [] → Replaced m new prev g g
  | next {prev g x s s'} : Untaken m prev g (x ++ s) → x ≠ [] →
      m (lastOf prev g) (x ++ s) = some x.length → Replaced m new (lastOf prev (g ++ x)) s s' →
      Replaced m new prev (g ++ x ++ s) (g ++ new ++ s')

-- ===== the last element

@[simp] theorem lastOf_nil (prev : Option α) : lastOf prev [] = prev := rfl

theorem lastOf_cons (prev : Option α) (c : α) (s : List α) :
    lastOf prev (c :: s) = lastOf (some c) s := by
  cases s with
  | nil => rfl
  | cons d s => simp [lastOf, List.getLast?_cons]

theorem lastOf_append (prev : Option α) (s t : List α) :
    lastOf prev (s ++ t) = lastOf (lastOf prev s) t := by
  simp [lastOf, List.getLast?_append, Option.or_assoc]

theorem lastOf_append_of_ne_nil (prev prev' : Option α) {t : List α} (ht : t ≠ []) (s s' : List α) :
    lastOf prev (s ++ t) = lastOf prev' (s' ++ t) := by
  obtain ⟨c, t, rfl⟩ := List.exists_cons_of_ne_nil ht
  rw [lastOf_append, lastOf_append, lastOf_cons, lastOf_cons]

-- ===== soundness

theorem replaceFrom_skip (m : Matcher α) (new : List α) :
    ∀ (x s : List α) (prev : Option α), replaceFrom m new x.length prev (x ++ s)
      = replaceFrom m new 0 (lastOf prev x) s := by
  intro x
  induction x with
  | nil =>
      intro s prev
      rfl
  | cons c x ih =>
      intro s prev
      rw [List.length_cons, List.cons_append, replaceFrom, ih, lastOf_cons]

variable {m : Matcher α} {prev : Option α} {new : List α}

theorem Untaken.cons {c : α} {g rest : List α}
    (hc : m prev (c :: (g ++ rest)) = none) (h : Untaken m (some c) g rest) :
    Untaken m prev (c :: g) rest := by
  intro a b heq hb
  cases a with
  | nil =>
      rw [List.nil_append] at heq
      rw [← heq]
      exact hc
  | cons d a =>
      obtain ⟨rfl, hg⟩ := List.cons.inj heq
      rw [lastOf_cons]
      exact h a b hg hb

theorem Replaced.cons {c : α} {s s' : List α}
    (hc : m prev (c :: s) = none) (h : Replaced m new (some c) s s') :
    Replaced m new prev (c :: s) (c :: s') := by
  cases h with
  | rest hgap => exact .rest (.cons (by rwa [List.append_nil]) hgap)
  | next hgap hx hm hrest =>
      rw [List.append_assoc] at hc
      refine Replaced.next (g := c :: _) (.cons hc hgap) hx ?_ ?_
      · rwa [lastOf_cons]
      · rwa [List.cons_append, lastOf_cons]

theorem replaced_replaceFrom (hm : Sound m) (new : List α) (n : Nat) :
    ∀ (s : List α) (prev : Option α), s.length ≤ n →
      Replaced m new prev s (replaceFrom m new 0 prev s) := by
  induction n with
  | zero =>
      intro s prev hn
      rw [List.length_eq_zero_iff.1 (Nat.le_zero.1 hn)]
      refine .rest fun a b heq hb => ?_
      exact absurd (List.append_eq_nil_iff.1 heq.symm).2 hb
  | succ n ih =>
      intro s prev hn
      cases s with
      | nil =>
          refine .rest fun a b heq hb => ?_
          exact absurd (List.append_eq_nil_iff.1 heq.symm).2 hb
      | cons c s =>
          rw [List.length_cons] at hn
          rw [replaceFrom]
          split
          next k hk =>
            obtain ⟨hpos, hle⟩ := hm prev (c :: s) k hk
            obtain ⟨k, rfl⟩ := Nat.exists_eq_succ_of_ne_zero hpos.ne'
            have hlen : (s.take k).length = k := by
              rw [List.length_take, Nat.min_eq_left (Nat.le_of_succ_le_succ hle)]
            have hskip := replaceFrom_skip m new (s.take k) (s.drop k) (some c)
            rw [hlen, List.take_append_drop] at hskip
            have hrest := ih (s.drop k) (lastOf (some c) (s.take k)) (by
              rw [List.length_drop]
              omega)
            rw [Nat.succ_sub_one, hskip]
            have hnext := @Replaced.next _ m new prev [] (c :: s.take k) (s.drop k) _
              (fun a b heq hb => ?_) (by simp) ?_ (by rwa [List.nil_append, lastOf_cons])
            · simpa using hnext
            · exact absurd (List.append_eq_nil_iff.1 heq.symm).2 hb
            · rw [List.cons_append, List.take_append_drop, List.length_cons, hlen]
              exact hk
          next hnone => exact .cons hnone (ih s (some c) (by omega))

theorem replaced_replaceAll (hm : Sound m) (new s : List α) :
    Replaced m new none s (replaceAll m new s) :=
  replaced_replaceFrom hm new s.length s none (Nat.le_refl _)

theorem replaceFrom_eq_self : ∀ {s : List α} {prev : Option α},
    Untaken m prev s [] → replaceFrom m new 0 prev s = s := by
  intro s
  induction s with
  | nil =>
      intro prev _
      rfl
  | cons c s ih =>
      intro prev h
      have hc : m prev (c :: s) = none := by simpa using h [] (c :: s) rfl (by simp)
      rw [replaceFrom, hc]
      show c :: replaceFrom m new 0 (some c) s = c :: s
      rw [ih fun a b heq hb => ?_]
      have hb' := h (c :: a) b (by rw [heq, List.cons_append]) hb
      rwa [lastOf_cons] at hb'

-- ===== fences

/-- Where `w` stands in a text with `new` in it, it stands before or
behind it. -/
def Fenced (new w : List α) : Prop :=
  ∀ a z g s, a ++ w ++ z = g ++ new ++ s →
    (∃ z', g = a ++ w ++ z') ∨ ∃ a', a = g ++ new ++ a'

/-- The two ends of `new` do. -/
theorem fenced_of_ends {c : α} {new front back w : List α} (hfront : new = c :: front)
    (hback : new = back ++ [c]) (hc : c ∉ w) (hw : ¬ w <:+: new) : Fenced new w := by
  intro a z g s heq
  rw [List.append_assoc g] at heq
  rcases List.append_eq_append_iff.1 heq with ⟨z', hg, -⟩ | ⟨as, haw, hnew⟩
  · exact .inl ⟨z', hg⟩
  · cases as with
    | nil => exact .inl ⟨[], by rw [List.append_nil, haw, List.append_nil]⟩
    | cons d as =>
        have hd : c = d := by
          rw [hfront] at hnew
          exact (List.cons.inj hnew).1
        rcases List.append_eq_append_iff.1 haw with ⟨b, hg, hw'⟩ | ⟨b, ha, hw'⟩
        · exact absurd (by rw [hw', hd]; simp) hc
        · -- `w` begins behind where `new` begins
          rw [hw', List.append_assoc] at hnew
          rcases List.append_eq_append_iff.1 hnew with ⟨b', hb, -⟩ | ⟨n, hn, hwz⟩
          · exact .inr ⟨b', by rw [ha, hb, List.append_assoc]⟩
          · rcases List.append_eq_append_iff.1 hwz with ⟨w', hn', -⟩ | ⟨n', hn', -⟩
            · exact absurd ⟨b, w', by rw [hn, hn', List.append_assoc]⟩ hw
            · rcases List.eq_nil_or_concat n with rfl | ⟨n, e, rfl⟩
              · exact .inr ⟨[], by rw [ha, hn, List.append_nil, List.append_nil]⟩
              · have he : c = e := by
                  rw [hback, List.concat_eq_append, ← List.append_assoc] at hn
                  exact List.singleton_inj.1 (List.append_inj' hn rfl).2
                exact absurd (by rw [hn', he]; simp) hc

-- ===== what stays

/-- A word fenced off is in the result only where it was in the text. -/
theorem infix_of_replaced {t t' w : List α}
    (hw : Fenced new w) (h : Replaced m new prev t t') (hin : w <:+: t') : w <:+: t := by
  induction h with
  | rest => exact hin
  | @next prev g x s s' _ _ _ _ ih =>
      obtain ⟨a, z, heq⟩ := hin
      rcases hw a z g s' heq with ⟨z', hg⟩ | ⟨a', ha⟩
      · exact ⟨a, z' ++ x ++ s, by rw [hg]; simp⟩
      · rw [ha, List.append_assoc, List.append_assoc] at heq
        have hs' := List.append_cancel_left heq
        exact (ih ⟨a', z, by rw [List.append_assoc, hs']⟩).trans (List.suffix_append _ _).isInfix

theorem infix_of_replaceAll (hm : Sound m) {new t w : List α}
    (hw : Fenced new w) (hin : w <:+: replaceAll m new t) : w <:+: t :=
  infix_of_replaced hw (replaced_replaceAll hm new t) hin

/-- A word that is taken wherever it stands is in no gap, and so, fenced
off, nowhere. -/
theorem free_of_replaced {t t' w : List α}
    (hw : Fenced new w) (hne : w ≠ []) (htaken : ∀ prev s, (m prev (w ++ s)).isSome = true)
    (h : Replaced m new prev t t') : ¬ w <:+: t' := by
  have hgap {prev : Option α} {g rest : List α} (hg : Untaken m prev g rest) : ¬ w <:+: g := by
    intro ⟨a, z, heq⟩
    have hnone := hg a (w ++ z) (by rw [← heq, List.append_assoc]) (by simp [hne])
    rw [List.append_assoc] at hnone
    simpa [hnone] using htaken (lastOf prev a) (z ++ rest)
  induction h with
  | rest hg => exact hgap hg
  | @next prev g x s s' hg _ _ _ ih =>
      intro ⟨a, z, heq⟩
      rcases hw a z g s' heq with ⟨z', hg'⟩ | ⟨a', ha⟩
      · exact hgap hg ⟨a, z', hg'.symm⟩
      · rw [ha, List.append_assoc, List.append_assoc] at heq
        exact ih ⟨a', z, by rw [List.append_assoc, List.append_cancel_left heq]⟩

theorem Untaken.of_place {g rest a w z : List α}
    (hg : Untaken m prev g rest) (hne : w ≠ []) (heq : g = a ++ w ++ z) :
    m (lastOf prev a) (w ++ (z ++ rest)) = none := by
  rw [← List.append_assoc]
  exact hg a (w ++ z) (by rw [heq, List.append_assoc]) (by simp [hne])

theorem front_of_replaced {t w z : List α}
    (hw : Fenced new w) (hnew : new ≠ []) (h : Replaced m new prev t (w ++ z)) :
    ∃ y, t = w ++ y := by
  generalize ht' : w ++ z = t' at h
  cases h with
  | rest => exact ⟨z, ht'.symm⟩
  | @next _ g x s s' =>
      rcases hw [] z g s' ht' with ⟨z', hg⟩ | ⟨a', ha⟩
      · exact ⟨z' ++ x ++ s, by rw [hg]; simp⟩
      · exact absurd (List.append_eq_nil_iff.1 (List.append_eq_nil_iff.1 ha.symm).1).2 hnew

/-- Where a word fenced off stands in the result, it stood in the text, with
the same element before it and untaken, or right behind what was taken. -/
theorem place_of_replaced {t t' w : List α}
    (hw : Fenced new w) (hne : w ≠ []) (hnew : new ≠ []) (h : Replaced m new prev t t') :
    ∀ {a z : List α}, t' = a ++ w ++ z →
      (∃ b y, lastOf prev b = lastOf prev a ∧ m (lastOf prev b) (w ++ y) = none)
        ∨ ∃ b x y, m (lastOf prev b) (x ++ (w ++ y)) = some x.length := by
  induction h with
  | rest hg =>
      intro a z heq
      exact .inl ⟨a, z ++ [], rfl, hg.of_place hne heq⟩
  | @next prev g x s s' hg hx hm hrest ih =>
      intro a z heq
      rcases hw a z g s' heq.symm with ⟨z', hg'⟩ | ⟨a', ha⟩
      · exact .inl ⟨a, z' ++ (x ++ s), rfl, hg.of_place hne hg'⟩
      · have hs' : s' = a' ++ (w ++ z) := by
          rw [ha, List.append_assoc (g ++ new) a' w, List.append_assoc (g ++ new)] at heq
          exact (List.append_cancel_left heq).trans (List.append_assoc a' w z)
        rcases List.eq_nil_or_concat a' with rfl | ⟨a', d, rfl⟩
        · rw [List.nil_append] at hs'
          rw [hs'] at hrest
          obtain ⟨y, rfl⟩ := front_of_replaced hw hnew hrest
          exact .inr ⟨g, x, y, hm⟩
        · -- the element before it is in the same gap
          rw [← List.append_assoc] at hs'
          rcases ih hs' with ⟨b, y, hlast, hnone⟩ | ⟨b, x', y, hsome⟩
          · refine .inl ⟨g ++ x ++ b, y, ?_, ?_⟩
            · rw [lastOf_append, hlast, ha, ← lastOf_append]
              exact lastOf_append_of_ne_nil prev prev (by simp) _ _
            · rwa [lastOf_append]
          · exact .inr ⟨g ++ x ++ b, x', y, by rwa [lastOf_append]⟩

-- ===== literals

theorem sound_literal [DecidableEq α] {old : List α} (hold : old ≠ []) :
    Sound (literal old) := by
  intro prev s n h
  obtain ⟨hpre, heq⟩ := Option.ite_none_right_eq_some.1 h
  cases heq
  exact ⟨List.length_pos_iff.2 hold, hpre.length_le⟩

/-- `str.replace` leaves none of what it replaces. -/
theorem free_of_literal [DecidableEq α] {old new t : List α} (hold : old ≠ [])
    (hfence : Fenced new old) : ¬ old <:+: replaceAll (literal old) new t :=
  free_of_replaced hfence hold (fun _ s => by simp [literal])
    (replaced_replaceAll (sound_literal hold) new t)

theorem replace_literal_eq_self [DecidableEq α] {old new t : List α} (h : ¬ old <:+: t) :
    replaceAll (literal old) new t = t := by
  refine replaceFrom_eq_self fun a b heq _ => ?_
  rw [literal, List.append_nil, if_neg]
  intro hpre
  exact h (hpre.isInfix.trans (heq ▸ (List.suffix_append a b).isInfix))

end Lib.Replace
