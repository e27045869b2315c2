/-
Items shown page by page. A page is filled with as many of the items as a
budget holds, but with one at least (`fill`), and says where to go on.

Who starts anywhere and goes on from where the last page says
(`Follows`), until one does not say, has seen every item from there on,
each once and in order (`follows_all`).
-/
import Velune.Lib.FirstFit

namespace Lib.Paging

variable {α ρ ε : Type*}

section Filling

variable (size : α → Nat) (budget : Nat)

/-- What of the items goes on the page; something may be there already. -/
def fill : Bool → Nat → List α → List α
  | _, _, [] => []
  | started, used, a :: items =>
      if started ∧ budget < used + size a then [] else a :: fill true (used + size a) items

theorem fill_append (started : Bool) (used : Nat) (items : List α) :
    fill size budget started used items
        ++ items.drop (fill size budget started used items).length = items := by
  induction items generalizing started used with
  | nil => rfl
  | cons a items ih =>
      rw [fill]
      split
      · rfl
      · rw [List.length_cons, List.drop_succ_cons, List.cons_append, ih]

theorem fill_length_le (started : Bool) (used : Nat) (items : List α) :
    (fill size budget started used items).length ≤ items.length := by
  have happend := congrArg List.length (fill_append size budget started used items)
  rw [List.length_append] at happend
  omega

theorem fill_pos (used : Nat) {items : List α} (h : items ≠ []) :
    0 < (fill size budget false used items).length := by
  obtain ⟨a, items, rfl⟩ := List.exists_cons_of_ne_nil h
  rw [fill, if_neg fun hand => by cases hand.1]
  exact Nat.succ_pos _

variable {size budget}

theorem total_fill {most : Nat} (hbudget : budget ≤ most) : ∀ {items : List α} {started : Bool}
    {used : Nat}, (∀ a ∈ items, size a ≤ most) → used ≤ most → (started = false → used = 0) →
      used + FirstFit.total size (fill size budget started used items) ≤ most
  | [], _, _, _, hused, _ => hused
  | a :: items, started, used, hsize, hused, hstart => by
      rw [fill]
      split
      next => exact hused
      next hfits =>
        have hnext : used + size a ≤ most := by
          cases started with
          | false =>
              have ha := hsize a (List.mem_cons_self ..)
              have hzero := hstart rfl
              omega
          | true =>
              have hle : used + size a ≤ budget := Nat.not_lt.1 fun hlt => hfits ⟨rfl, hlt⟩
              omega
        have ih := @total_fill most hbudget items true (used + size a)
          (fun b hb => hsize b (List.mem_cons_of_mem a hb)) hnext fun hfalse => by cases hfalse
        rw [FirstFit.total_cons]
        omega

end Filling

-- ===== going on

/-- The pages one sees from `k` on, each begun where the last one says. -/
inductive Follows (read : Nat → Except ε ρ) (next : ρ → Option Nat) : Nat → List ρ → Prop
  | last {k r} : read k = .ok r → next r = none → Follows read next k [r]
  | more {k r k' rs} : read k = .ok r → next r = some k' → Follows read next k' rs →
      Follows read next k (r :: rs)

/-- Pages that are filled from where they begin, and say where they end. -/
structure Paged (size : α → Nat) (budget : Nat) (items : List α) (read : Nat → Except ε ρ)
    (shows : ρ → List α) (next : ρ → Option Nat) (good : ρ → Prop) : Prop where
  page : ∀ k, 0 < k → k ≤ items.length → ∃ r, read k = .ok r ∧ good r ∧
    shows r = fill size budget false 0 (items.drop (k - 1)) ∧
    next r = if (shows r).length < items.length - (k - 1) then some (k + (shows r).length) else none

variable {size : α → Nat} {budget : Nat} {items : List α} {read : Nat → Except ε ρ}
  {shows : ρ → List α} {next : ρ → Option Nat} {good : ρ → Prop}

/-- From any item on, the pages end, and show every item from there on. -/
theorem Paged.follows_all (h : Paged size budget items read shows next good) :
    ∀ (n k : Nat), items.length - k < n → 0 < k → k ≤ items.length →
      ∃ rs, Follows read next k rs ∧ rs.flatMap shows = items.drop (k - 1) ∧ ∀ r ∈ rs, good r
  | 0, _, hn, _, _ => absurd hn (Nat.not_lt_zero _)
  | n + 1, k, hn, hk, hle => by
      obtain ⟨r, hread, hgood, hshows, hnext⟩ := h.page k hk hle
      have hlength : (items.drop (k - 1)).length = items.length - (k - 1) := List.length_drop
      have hne : items.drop (k - 1) ≠ [] := by
        intro hnil
        rw [hnil, List.length_nil] at hlength
        omega
      have hpos := fill_pos size budget 0 hne
      have happend := fill_append size budget false 0 (items.drop (k - 1))
      rw [← hshows] at hpos happend
      by_cases hmore : (shows r).length < items.length - (k - 1)
      · rw [if_pos hmore] at hnext
        obtain ⟨rs, hfollows, hrest, hgoods⟩ :=
          follows_all h n (k + (shows r).length) (by omega) (by omega) (by omega)
        refine ⟨r :: rs, .more hread hnext hfollows, ?_, List.forall_mem_cons.2 ⟨hgood, hgoods⟩⟩
        have hdrop : k - 1 + (shows r).length = k + (shows r).length - 1 := by omega
        rw [List.flatMap_cons, hrest, ← hdrop, ← List.drop_drop]
        exact happend
      · rw [if_neg hmore] at hnext
        refine ⟨[r], .last hread hnext, ?_, List.forall_mem_cons.2 ⟨hgood, List.forall_mem_nil _⟩⟩
        have hnil : (items.drop (k - 1)).drop (shows r).length = [] :=
          List.drop_eq_nil_of_le (by omega)
        rw [hnil, List.append_nil] at happend
        rw [List.flatMap_cons, List.flatMap_nil, List.append_nil]
        exact happend

theorem not_follows (h : ∀ k r, read k = .ok r → next r ≠ none) {k : Nat} {rs : List ρ} :
    ¬Follows read next k rs := by
  intro hfollows
  induction hfollows with
  | last hread hnext => exact h _ _ hread hnext
  | more _ _ _ ih => exact ih

end Lib.Paging
