/-
Orders that put nothing in front of what it needs, over any relation: an
order that takes the smallest available node as long as there is one
(`Greedy`). It gets to all nodes exactly when every need is a node and no
node needs itself, however indirectly (`Greedy.total`, `Greedy.acyclic`):
of the nodes that are left a smallest one in the order of needs would be
available. No node needs itself, either, exactly when no step that does
not go up in some rank can be gone back (`acyclic_iff_rank`).
-/
import Mathlib.Order.WellFoundedSet

namespace Lib.Topo

open Relation

variable {α : Type} {needs : α → α → Prop} {ids order : List α}

-- ===== definitions

/-- Not done yet, and all it needs is: `needs a b` says that `b` needs
`a`. -/
def Available (needs : α → α → Prop) (ids done : List α) (b : α) : Prop :=
  b ∈ ids ∧ b ∉ done ∧ ∀ a, needs a b → a ∈ done

/-- Each node of the order is the smallest of those available there. -/
def Greedy [LE α] (needs : α → α → Prop) (ids order : List α) : Prop :=
  ∀ before b after, order = before ++ b :: after →
    Available needs ids before b ∧ ∀ c, Available needs ids before c → b ≤ c

def Acyclic (needs : α → α → Prop) : Prop := ∀ a, ¬TransGen needs a a

def Closed (needs : α → α → Prop) (ids : List α) : Prop := ∀ a b, needs a b → b ∈ ids → a ∈ ids

-- ===== ranking

/-- A path goes up in rank all along, or somewhere takes a step that does
not. -/
theorem rank_or_step (rank : α → Nat) {a b : α} (h : TransGen needs a b) :
    rank a < rank b ∨ ∃ x y, needs x y ∧ rank y ≤ rank x
      ∧ ReflTransGen needs a x ∧ ReflTransGen needs y b := by
  induction h with
  | single hab =>
      rename_i b
      by_cases hrank : rank a < rank b
      · exact .inl hrank
      · exact .inr ⟨a, b, hab, Nat.not_lt.1 hrank, .refl, .refl⟩
  | tail hab hbc ih =>
      rename_i b c
      rcases ih with hlt | ⟨x, y, hxy, hle, hax, hyb⟩
      · by_cases hrank : rank b < rank c
        · exact .inl (Nat.lt_trans hlt hrank)
        · exact .inr ⟨b, c, hbc, Nat.not_lt.1 hrank, hab.to_reflTransGen, .refl⟩
      · exact .inr ⟨x, y, hxy, hle, hax, hyb.tail hbc⟩

/-- No node needs itself exactly if no step that does not go up in rank can
be gone back. -/
theorem acyclic_iff_rank (rank : α → Nat) :
    Acyclic needs ↔ ∀ a b, needs a b → rank b ≤ rank a → ¬ReflTransGen needs b a := by
  constructor
  · intro h a b hab _ hback
    exact h a (TransGen.head' hab hback)
  · intro h a hcycle
    rcases rank_or_step rank hcycle with hlt | ⟨x, y, hxy, hle, hax, hya⟩
    · exact Nat.lt_irrefl _ hlt
    · exact h x y hxy hle (hya.trans hax)

-- ===== extending

section Greedy

variable [LE α]

theorem greedy_nil : Greedy needs ids [] := by
  intro before b after h
  cases before with
  | nil => cases h
  | cons => cases h

theorem Greedy.concat (h : Greedy needs ids order) {b : α} (hb : Available needs ids order b)
    (hleast : ∀ c, Available needs ids order c → b ≤ c) : Greedy needs ids (order ++ [b]) := by
  intro before c after heq
  rcases List.eq_nil_or_concat after with rfl | ⟨after, d, rfl⟩
  · have hparts := List.append_inj' heq rfl
    cases List.cons.inj hparts.2 with
    | intro hc _ =>
      rw [← hparts.1, ← hc]
      exact ⟨hb, hleast⟩
  · rw [List.concat_eq_append, ← List.cons_append, ← List.append_assoc] at heq
    exact h before c after (List.append_inj' heq rfl).1

theorem Greedy.available (h : Greedy needs ids order) {b : α} (hb : b ∈ order) :
    ∃ before after, order = before ++ b :: after ∧ Available needs ids before b := by
  obtain ⟨before, after, rfl⟩ := List.append_of_mem hb
  exact ⟨before, after, rfl, (h before b after rfl).1⟩

theorem Greedy.subset (h : Greedy needs ids order) {b : α} (hb : b ∈ order) : b ∈ ids := by
  obtain ⟨_, _, -, havailable⟩ := h.available hb
  exact havailable.1

theorem Greedy.needed (h : Greedy needs ids order) {a b : α} (hb : b ∈ order) (hab : needs a b) :
    a ∈ order := by
  obtain ⟨before, after, rfl, havailable⟩ := h.available hb
  exact List.mem_append_left _ (havailable.2.2 a hab)

theorem Greedy.nodup (h : Greedy needs ids order) : order.Nodup := by
  induction order using List.reverseRecOn with
  | nil => exact List.nodup_nil
  | append_singleton order b ih =>
      have hfront : Greedy needs ids order := by
        intro before c after heq
        exact h before c (after ++ [b]) (by rw [heq, List.append_assoc, List.cons_append])
      refine List.nodup_append.2 ⟨ih hfront, List.nodup_singleton b, fun c hc d hd heq => ?_⟩
      rw [List.mem_singleton] at hd
      rw [heq, hd] at hc
      exact (h order b [] rfl).1.2.1 hc

end Greedy

-- ===== being total

/-- An order of all nodes shows that they need nothing else, and not
themselves. -/
theorem Greedy.acyclic [LE α] [DecidableEq α] (h : Greedy needs ids order)
    (hall : ∀ b ∈ ids, b ∈ order) (hneeds : ∀ a b, needs a b → b ∈ ids) :
    Closed needs ids ∧ Acyclic needs := by
  have hstep : ∀ a b, needs a b → order.idxOf a < order.idxOf b := by
    intro a b hab
    obtain ⟨before, after, horder, havailable⟩ := h.available (hall b (hneeds a b hab))
    rw [horder, List.idxOf_append_of_mem (havailable.2.2 a hab),
      List.idxOf_append_of_notMem havailable.2.1, List.idxOf_cons_self]
    exact List.idxOf_lt_length_of_mem (havailable.2.2 a hab)
  have hpath : ∀ a b, TransGen needs a b → order.idxOf a < order.idxOf b := by
    intro a b hab
    induction hab with
    | single hab => exact hstep _ _ hab
    | tail _ hbc ih => exact Nat.lt_trans ih (hstep _ _ hbc)
  refine ⟨fun a b hab hb => h.subset (h.needed (hall b hb) hab), fun a haa => ?_⟩
  exact Nat.lt_irrefl _ (hpath a a haa)

/-- An order that cannot go on has all nodes, when they need nothing else
and not themselves. -/
theorem all_of_stuck {done : List α} (hclosed : Closed needs ids) (hacyclic : Acyclic needs)
    (hstuck : ∀ b, ¬Available needs ids done b) : ∀ b ∈ ids, b ∈ done := by
  intro b hb
  by_contra hmissing
  have hirrefl : Std.Irrefl (TransGen needs) := ⟨hacyclic⟩
  have hstrict : IsStrictOrder α (TransGen needs) := {}
  have hwf : {c | c ∈ ids}.WellFoundedOn (TransGen needs) :=
    (ids.finite_toSet).wellFoundedOn
  -- of the nodes that are left, one needs none that is left
  obtain ⟨⟨c, hc⟩, hleft, hleast⟩ := hwf.has_min {c | c.1 ∉ done} ⟨⟨b, hb⟩, hmissing⟩
  refine hstuck c ⟨hc, hleft, fun a hac => ?_⟩
  by_contra ha
  exact hleast ⟨a, hclosed a c hac hc⟩ ha (TransGen.single hac)

end Lib.Topo
