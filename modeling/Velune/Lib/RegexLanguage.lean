/-
Patterns that look at nothing around them. The ways through such a pattern
are the words of a language, wherever in a text they stand (`Reads`), and
so what it does is what its language is: sequences are products,
alternatives sums, repetitions closures. A pattern between the two ends of
a text then matches the words of its language (`takes_ends`), and, as `$`
has it, those with one line break behind.
-/
import Velune.Lib.Regex
import Mathlib.Computability.Language

namespace Lib.Regex

open Computability

variable {isWord : Char → Bool} {r r' : Re} {L M : Language Char}

-- ===== the language read

/-- The ways through `r` are the words of `L`, and keep the groups. -/
def Reads (isWord : Char → Bool) (r : Re) (L : Language Char) : Prop :=
  ∀ prev s g prev' s' g', Takes isWord r prev s g prev' s' g' ↔
    ∃ t ∈ L, s = t ++ s' ∧ prev' = lastOf prev t ∧ g' = g

def oneChar (p : Char → Bool) : Language Char := {t | ∃ c, p c = true ∧ t = [c]}

def chars (p : Char → Bool) : Language Char := {t | ∀ c ∈ t, p c = true}

def someChars (p : Char → Bool) : Language Char := {t | t ≠ [] ∧ ∀ c ∈ t, p c = true}

theorem Reads.eps : Reads isWord .eps 1 := by
  intro prev s g prev' s' g'
  constructor
  · intro h
    obtain ⟨rfl, rfl, rfl⟩ := h
    exact ⟨[], Language.nil_mem_one, rfl, rfl, rfl⟩
  · intro h
    obtain ⟨t, ht, rfl, rfl, rfl⟩ := h
    rw [(Language.mem_one t).1 ht]
    exact ⟨rfl, rfl, rfl⟩

theorem Reads.cls {p : Char → Bool} : Reads isWord (.cls p) (oneChar p) := by
  intro prev s g prev' s' g'
  constructor
  · intro h
    obtain ⟨c, hc, rfl, rfl, rfl⟩ := h
    exact ⟨[c], ⟨c, hc, rfl⟩, rfl, rfl, rfl⟩
  · intro h
    obtain ⟨_, ⟨c, hc, rfl⟩, rfl, rfl, rfl⟩ := h
    exact ⟨c, hc, rfl, rfl, rfl⟩

theorem Reads.many {lazy : Bool} {p : Char → Bool} :
    Reads isWord (.many lazy p) (chars p) := fun _ _ _ _ _ _ => Iff.rfl

theorem Reads.seq (hr : Reads isWord r L) (hr' : Reads isWord r' M) :
    Reads isWord (.seq r r') (L * M) := by
  intro prev s g prev' s' g'
  constructor
  · intro h
    obtain ⟨q, s₁, g₁, h₁, h₂⟩ := h
    obtain ⟨t, ht, rfl, rfl, rfl⟩ := (hr _ _ _ _ _ _).1 h₁
    obtain ⟨u, hu, rfl, rfl, rfl⟩ := (hr' _ _ _ _ _ _).1 h₂
    refine ⟨t ++ u, Language.append_mem_mul ht hu, ?_, (lastOf_append prev t u).symm, rfl⟩
    rw [List.append_assoc]
  · intro h
    obtain ⟨w, hw, rfl, rfl, rfl⟩ := h
    obtain ⟨t, ht, u, hu, rfl⟩ := Language.mem_mul.1 hw
    refine ⟨lastOf prev t, u ++ s', g', (hr _ _ _ _ _ _).2 ⟨t, ht, ?_, rfl, rfl⟩,
      (hr' _ _ _ _ _ _).2 ⟨u, hu, rfl, lastOf_append prev t u, rfl⟩⟩
    rw [List.append_assoc]

theorem Reads.alt (hr : Reads isWord r L) (hr' : Reads isWord r' M) :
    Reads isWord (.alt r r') (L + M) := by
  intro prev s g prev' s' g'
  constructor
  · intro h
    rcases h with h | h
    · obtain ⟨t, ht, hrest⟩ := (hr _ _ _ _ _ _).1 h
      exact ⟨t, .inl ht, hrest⟩
    · obtain ⟨t, ht, hrest⟩ := (hr' _ _ _ _ _ _).1 h
      exact ⟨t, .inr ht, hrest⟩
  · intro h
    obtain ⟨t, ht | ht, hrest⟩ := h
    · exact .inl ((hr _ _ _ _ _ _).2 ⟨t, ht, hrest⟩)
    · exact .inr ((hr' _ _ _ _ _ _).2 ⟨t, ht, hrest⟩)

theorem Reads.opt (hr : Reads isWord r L) : Reads isWord (.opt r) (L + 1) := hr.alt .eps

theorem Reads.plus {p : Char → Bool} :
    Reads isWord (.plus p) (someChars p) := by
  intro prev s g prev' s' g'
  rw [takes_plus]
  constructor
  · intro h
    obtain ⟨t, hne, ht, hrest⟩ := h
    exact ⟨t, ⟨hne, ht⟩, hrest⟩
  · intro h
    obtain ⟨t, ⟨hne, ht⟩, hrest⟩ := h
    exact ⟨t, hne, ht, hrest⟩

theorem Reads.star (hr : Reads isWord r L) : Reads isWord (.star r) L∗ := by
  intro prev s g prev' s' g'
  constructor
  · intro h
    unfold Takes at h
    induction h with
    | done => exact ⟨[], Language.nil_mem_kstar L, rfl, rfl, rfl⟩
    | round h₁ _ _ ih =>
        obtain ⟨t, ht, rfl, rfl, rfl⟩ := (hr _ _ _ _ _ _).1 h₁
        obtain ⟨u, hu, rfl, rfl, rfl⟩ := ih
        refine ⟨t ++ u, ?_, ?_, (lastOf_append _ t u).symm, rfl⟩
        · rw [← Language.one_add_self_mul_kstar_eq_kstar]
          exact .inr (Language.append_mem_mul ht hu)
        · rw [List.append_assoc]
  · intro h
    obtain ⟨w, hw, rfl, rfl, rfl⟩ := h
    obtain ⟨words, rfl, hwords⟩ := Language.mem_kstar_iff_exists_nonempty.1 hw
    clear hw
    unfold Takes
    induction words generalizing prev with
    | nil => exact .done
    | cons word words ih =>
        obtain ⟨⟨hword, hne⟩, hrest⟩ := List.forall_mem_cons.1 hwords
        rw [List.flatten_cons, List.append_assoc, lastOf_append]
        refine .round ((hr _ _ _ _ _ _).2 ⟨word, hword, rfl, rfl, rfl⟩) ?_ (ih _ hrest)
        have hpos := List.length_pos_iff.2 hne
        simp only [List.length_append]
        omega

/-- Patterns one after the other read the product of their languages. -/
theorem Reads.cat {rs : List Re} {Ls : List (Language Char)}
    (h : List.Forall₂ (Reads isWord) rs Ls) : Reads isWord (.cat rs) Ls.prod := by
  induction h with
  | nil => exact Reads.eps
  | @cons r L rs Ls hr hrs ih =>
      intro prev s g prev' s' g'
      rw [takes_cat_cons, List.prod_cons]
      exact hr.seq ih prev s g prev' s' g'

theorem takes_cat_append {rs rs' : List Re} : ∀ {prev : Option Char} {s : List Char} {g : Groups}
    {prev' : Option Char} {s' : List Char} {g' : Groups},
    Takes isWord (.cat (rs ++ rs')) prev s g prev' s' g' ↔
      ∃ q t h, Takes isWord (.cat rs) prev s g q t h ∧ Takes isWord (.cat rs') q t h prev' s' g' := by
  induction rs with
  | nil =>
      intro prev s g prev' s' g'
      constructor
      · exact fun h => ⟨prev, s, g, ⟨rfl, rfl, rfl⟩, h⟩
      · intro h
        obtain ⟨_, _, _, ⟨rfl, rfl, rfl⟩, h⟩ := h
        exact h
  | cons r rs ih =>
      intro prev s g prev' s' g'
      rw [List.cons_append, takes_cat_cons]
      constructor
      · intro h
        obtain ⟨q, t, g₁, hr, hrest⟩ := h
        obtain ⟨q', t', g₂, hrs, hrs'⟩ := ih.1 hrest
        exact ⟨q', t', g₂, takes_cat_cons.2 ⟨q, t, g₁, hr, hrs⟩, hrs'⟩
      · intro h
        obtain ⟨q', t', g₂, hrrs, hrs'⟩ := h
        obtain ⟨q, t, g₁, hr, hrs⟩ := takes_cat_cons.1 hrrs
        exact ⟨q, t, g₁, hr, ih.2 ⟨q', t', g₂, hrs, hrs'⟩⟩

-- ===== between the ends of a text

/-- `^…$` takes a word from the start of a text, with nothing or one line
break behind it. -/
theorem takes_ends {rs : List Re} (hrs : Reads isWord (.cat rs) L) {s : List Char} {g : Groups}
    {prev' : Option Char} {s' : List Char} {g' : Groups} :
    Takes isWord (.cat (.textStart :: rs ++ [.textEnd])) none s g prev' s' g' ↔
      ∃ t ∈ L, s = t ++ s' ∧ (s' = [] ∨ s' = ['\n']) ∧ prev' = lastOf none t ∧ g' = g := by
  rw [List.cons_append, takes_cat_cons]
  constructor
  · intro h
    obtain ⟨q, s₁, g₁, ⟨-, rfl, rfl, rfl⟩, hrest⟩ := h
    obtain ⟨q', s₂, g₂, hway, hend, rfl, rfl, rfl⟩ := takes_cat_append.1 hrest
    obtain ⟨t, ht, rfl, rfl, rfl⟩ := (hrs _ _ _ _ _ _).1 hway
    exact ⟨t, ht, rfl, hend, rfl, rfl⟩
  · intro h
    obtain ⟨t, ht, rfl, hend, rfl, rfl⟩ := h
    refine ⟨none, t ++ s', g', ⟨rfl, rfl, rfl, rfl⟩, takes_cat_append.2 ?_⟩
    exact ⟨lastOf none t, s', g', (hrs _ _ _ _ _ _).2 ⟨t, ht, rfl, rfl, rfl⟩, hend, rfl, rfl, rfl⟩

end Lib.Regex
