/-
A command line read word by word, up to the word its options end at.

What a word does is a grammar's to say: it may be an option by itself, take
the next word as its argument, end the options, or take program text, from
within or from the next word. Which words may be an argument is the
grammar's too.
-/
import Mathlib.Data.List.Basic

namespace Lib.Options

inductive Reading
  /-- an option by itself -/
  | alone
  /-- its argument is the next word -/
  | skips
  /-- program text, in the word -/
  | text
  /-- program text, in the next word -/
  | textNext
  /-- program text, in the next word if there may be any; else by itself -/
  | textIf
  /-- the options are over, or nothing runs -/
  | ends
  deriving DecidableEq, Repr

def Reading.taking : Reading → Bool
  | .text | .textNext | .textIf => true
  | .alone | .skips | .ends => false

structure Grammar (α : Type*) where
  read : α → Reading
  /-- A word that may be an option's argument. -/
  argument : α → Bool

variable {α : Type*} {g : Grammar α}

def Grammar.takes (g : Grammar α) : List α → Bool
  | [] => false
  | w :: ws =>
      match g.read w with
      | .alone => g.takes ws
      | .text => true
      | .ends => false
      | .skips =>
          match ws with
          | [] => false
          | arg :: rest => g.argument arg && g.takes rest
      | .textNext => ws.head?.any g.argument
      | .textIf => ws.head?.any g.argument || g.takes ws

/-- Behind what options may stand a word that takes text: one word at a
time, or an option with its argument. -/
theorem Grammar.takes_induction {P : List α → Prop}
    (text : ∀ w ws, (g.read w).taking = true → P (w :: ws))
    (alone : ∀ w ws, g.takes ws = true → P ws → P (w :: ws))
    (skips : ∀ w arg ws, g.takes ws = true → P ws → P (w :: arg :: ws)) :
    ∀ words, g.takes words = true → P words
  | [], h => by cases h
  | [w], h => by
      cases hread : g.read w with
      | alone =>
          rw [Grammar.takes, hread] at h
          cases h
      | skips => simp [Grammar.takes, hread] at h
      | ends => simp [Grammar.takes, hread] at h
      | text => exact text w [] (by rw [hread]; rfl)
      | textNext => exact text w [] (by rw [hread]; rfl)
      | textIf => exact text w [] (by rw [hread]; rfl)
  | w :: v :: ws, h => by
      cases hread : g.read w with
      | alone =>
          have hrest : g.takes (v :: ws) = true := by
            rw [Grammar.takes, hread] at h
            exact h
          exact alone w _ hrest (takes_induction text alone skips _ hrest)
      | skips =>
          have hrest : g.takes ws = true := by
            rw [Grammar.takes, hread] at h
            exact (Bool.and_eq_true_iff.1 h).2
          exact skips w v _ hrest (takes_induction text alone skips _ hrest)
      | ends => simp [Grammar.takes, hread] at h
      | text => exact text w _ (by rw [hread]; rfl)
      | textNext => exact text w _ (by rw [hread]; rfl)
      | textIf => exact text w _ (by rw [hread]; rfl)

theorem Grammar.exists_taking {words : List α} (h : g.takes words = true) :
    ∃ w ∈ words, (g.read w).taking = true := by
  refine takes_induction (P := fun words => ∃ w ∈ words, (g.read w).taking = true)
    ?_ ?_ ?_ words h
  · intro w ws hw
    exact ⟨w, List.mem_cons_self .., hw⟩
  · intro w ws _ ih
    obtain ⟨v, hv, hread⟩ := ih
    exact ⟨v, List.mem_cons_of_mem w hv, hread⟩
  · intro w arg ws _ ih
    obtain ⟨v, hv, hread⟩ := ih
    exact ⟨v, List.mem_cons_of_mem w (List.mem_cons_of_mem arg hv), hread⟩

end Lib.Options
