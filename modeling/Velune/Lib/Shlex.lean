/-
Splitting a command line into words the way POSIX shells quote, without
escapes and comments: words stand between blanks, and between two equal
quotes every character belongs to the word. A quote that is not closed
makes the whole line ill-formed.

`tokens` reads a line with what it has of the current word; from inside a
word the first word it gives back is the rest of that one, so a line is
read piece by piece (`tokens_word`).
-/
import Mathlib.Data.List.Basic

namespace Lib.Shlex

-- ===== splitting

def isBlank (c : Char) : Bool := c == ' ' || c == '\t' || c == '\r' || c == '\n'

def isQuote (c : Char) : Bool := c == '\'' || c == '"'

def isPlain (c : Char) : Bool := !isBlank c && !isQuote c

/-- Where the reader stands: between words, in a word, or between quotes. -/
inductive Place
  | between
  | word
  | quoted (quote : Char)
  deriving DecidableEq, Repr

/-- The words of a text, `token` being what was read of the current one;
`none` when a quote is left open. -/
def tokens : Place → List Char → List Char → Option (List (List Char))
  | .between, _, [] => some []
  | .between, _, c :: s =>
      if isBlank c then tokens .between [] s
      else if isQuote c then tokens (.quoted c) [] s
      else tokens .word [c] s
  | .word, token, [] => some [token]
  | .word, token, c :: s =>
      if isBlank c then (tokens .between [] s).map (token :: ·)
      else if isQuote c then tokens (.quoted c) token s
      else tokens .word (token ++ [c]) s
  | .quoted _, _, [] => none
  | .quoted quote, token, c :: s =>
      if c = quote then tokens .word token s else tokens (.quoted quote) (token ++ [c]) s

def split (s : List Char) : Option (List (List Char)) := tokens .between [] s

-- ===== laws

theorem tokens_between_cons (token : List Char) (c : Char) (s : List Char) :
    tokens .between token (c :: s)
      = if isBlank c then tokens .between [] s
        else if isQuote c then tokens (.quoted c) [] s
        else tokens .word [c] s := rfl

theorem tokens_word_cons (token : List Char) (c : Char) (s : List Char) :
    tokens .word token (c :: s)
      = if isBlank c then (tokens .between [] s).map (token :: ·)
        else if isQuote c then tokens (.quoted c) token s
        else tokens .word (token ++ [c]) s := rfl

theorem tokens_quoted_cons (quote : Char) (token : List Char) (c : Char) (s : List Char) :
    tokens (.quoted quote) token (c :: s)
      = if c = quote then tokens .word token s
        else tokens (.quoted quote) (token ++ [c]) s := rfl

def prepend (token : List Char) : List (List Char) → List (List Char)
  | [] => [token]
  | word :: words => (token ++ word) :: words

theorem tokens_append (token : List Char) (s : List Char) :
    ∀ more, tokens .word (token ++ more) s = (tokens .word more s).map (prepend token) ∧
      ∀ quote, tokens (.quoted quote) (token ++ more) s
        = (tokens (.quoted quote) more s).map (prepend token) := by
  induction s with
  | nil => exact fun more => ⟨rfl, fun _ => rfl⟩
  | cons c s ih =>
      intro more
      refine ⟨?_, fun quote => ?_⟩
      · simp only [tokens_word_cons]
        split
        · cases tokens .between [] s <;> rfl
        split
        · exact (ih more).2 c
        · rw [List.append_assoc]
          exact (ih (more ++ [c])).1
      · simp only [tokens_quoted_cons]
        split
        · exact (ih more).1
        · rw [List.append_assoc]
          exact (ih (more ++ [c])).2 quote

def rest (s : List Char) : Option (List (List Char)) := tokens .word [] s

theorem tokens_word (token s : List Char) :
    tokens .word token s = (rest s).map (prepend token) := by
  simpa [rest] using (tokens_append token s []).1

theorem ne_nil_of_tokens {s : List Char} : ∀ {token : List Char} {words : List (List Char)},
    (tokens .word token s = some words → words ≠ []) ∧
      ∀ quote, tokens (.quoted quote) token s = some words → words ≠ [] := by
  induction s with
  | nil =>
      intro token words
      refine ⟨fun h => ?_, fun quote h => by cases h⟩
      cases h
      simp
  | cons c s ih =>
      intro token words
      refine ⟨fun h => ?_, fun quote h => ?_⟩
      · rw [tokens_word_cons] at h
        split at h
        · obtain ⟨words', -, rfl⟩ := Option.map_eq_some_iff.mp h
          simp
        split at h
        · exact ih.2 c h
        · exact ih.1 h
      · rw [tokens_quoted_cons] at h
        split at h
        · exact ih.1 h
        · exact ih.2 quote h

theorem exists_of_rest {s : List Char} {words : List (List Char)} (h : rest s = some words) :
    ∃ word more, words = word :: more := by
  cases words with
  | nil => exact absurd rfl (ne_nil_of_tokens.1 h)
  | cons word more => exact ⟨word, more, rfl⟩

theorem tokens_plain {s : List Char} : ∀ {w token : List Char}, (∀ c ∈ w, isPlain c = true) →
    tokens .word token (w ++ s) = tokens .word (token ++ w) s
  | [], token, _ => by simp
  | c :: w, token, h => by
      obtain ⟨hblank, hquote⟩ : isBlank c = false ∧ isQuote c = false := by
        simpa [isPlain] using h c (List.mem_cons_self ..)
      rw [List.cons_append, tokens_word_cons, hblank, hquote]
      simp only [Bool.false_eq_true, if_false]
      rw [tokens_plain fun d hd => h d (List.mem_cons_of_mem c hd), List.append_assoc]
      rfl

theorem split_plain {w s : List Char} (hne : w ≠ []) (h : ∀ c ∈ w, isPlain c = true) :
    split (w ++ s) = (rest s).map (prepend w) := by
  cases w with
  | nil => exact absurd rfl hne
  | cons c w =>
      obtain ⟨hblank, hquote⟩ : isBlank c = false ∧ isQuote c = false := by
        simpa [isPlain] using h c (List.mem_cons_self ..)
      rw [split, List.cons_append, tokens_between_cons, hblank, hquote]
      simp only [Bool.false_eq_true, if_false]
      rw [tokens_plain fun d hd => h d (List.mem_cons_of_mem c hd), tokens_word]
      rfl

theorem rest_blank {c : Char} {s : List Char} (h : isBlank c = true) :
    rest (c :: s) = (split s).map ([] :: ·) := by
  rw [rest, tokens_word_cons, if_pos h]
  rfl

theorem split_blank {c : Char} {s : List Char} (h : isBlank c = true) : split (c :: s) = split s := by
  rw [split, tokens_between_cons, if_pos h]
  rfl

end Lib.Shlex
