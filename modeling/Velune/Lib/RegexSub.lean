/-
`pattern.sub(new, s)`, for a pattern that matches no empty text: replacement
by the matcher that asks the pattern at each place. A text of more than
characters is matched by what it shows.

A pattern that looks at nothing around it takes the words of its language
wherever they stand (`isSome_taker`). One that ends in a greedy repetition
stops in front of a character that is not of its class (`taker_stops`).
-/
import Velune.Lib.RegexLanguage
import Velune.Lib.Replace

namespace Lib.Regex

variable {α β : Type} {isWord : Char → Bool} {r : Re}

/-- `[p]{n,}`. -/
def Re.atLeast : Nat → (Char → Bool) → Re
  | 0, p => .many false p
  | n + 1, p => .seq (.cls p) (.atLeast n p)

def taker (isWord : Char → Bool) (shown : α → Char) (r : Re) : Replace.Matcher α := fun prev s =>
  (matchAt isWord r (prev.map shown) (s.map shown)).map fun m => s.length - m.rest.length

def sub (isWord : Char → Bool) (shown : α → Char) (r : Re) (new s : List α) : List α :=
  Replace.replaceAll (taker isWord shown r) new s

-- ===== languages

theorem Reads.atLeast {p : Char → Bool} : ∀ {n : Nat},
    Reads isWord (.atLeast n p) {t | n ≤ t.length ∧ ∀ c ∈ t, p c = true} := by
  intro n
  induction n with
  | zero =>
      intro prev s g prev' s' g'
      rw [Re.atLeast, Reads.many]
      constructor
      · intro h
        obtain ⟨t, ht, hrest⟩ := h
        exact ⟨t, ⟨Nat.zero_le _, ht⟩, hrest⟩
      · intro h
        obtain ⟨t, ⟨-, ht⟩, hrest⟩ := h
        exact ⟨t, ht, hrest⟩
  | succ n ih =>
      intro prev s g prev' s' g'
      rw [Re.atLeast, Reads.cls.seq ih]
      constructor
      · intro h
        obtain ⟨w, hw, hrest⟩ := h
        obtain ⟨_, ⟨c, hc, rfl⟩, t, ⟨hlen, ht⟩, rfl⟩ := Language.mem_mul.1 hw
        refine ⟨c :: t, ⟨?_, ?_⟩, hrest⟩
        · simpa using hlen
        · intro d hd
          rcases List.mem_cons.1 hd with rfl | hd
          · exact hc
          · exact ht d hd
      · intro h
        obtain ⟨t, ⟨hlen, ht⟩, hrest⟩ := h
        cases t with
        | nil => cases hlen
        | cons c t =>
            refine ⟨c :: t, Language.mem_mul.2 ⟨[c], ?_, t, ⟨?_, ?_⟩, rfl⟩, hrest⟩
            · exact ⟨c, ht c (List.mem_cons_self ..), rfl⟩
            · simpa using hlen
            · exact fun d hd => ht d (List.mem_cons_of_mem c hd)

theorem Reads.text {t : List Char} : Reads isWord (.text t) {t} := by
  intro prev s g prev' s' g'
  rw [takes_text]
  constructor
  · intro h
    exact ⟨t, rfl, h⟩
  · intro h
    obtain ⟨_, rfl, hrest⟩ := h
    exact hrest

-- ===== takers

variable {shown : α → Char}

theorem taker_eq_some {prev : Option α} {s : List α} {n : Nat}
    (h : taker isWord shown r prev s = some n) :
    ∃ m, matchAt isWord r (prev.map shown) (s.map shown) = some m
      ∧ m.rest = (s.drop n).map shown ∧ n = s.length - m.rest.length := by
  obtain ⟨m, hm, rfl⟩ := Option.map_eq_some_iff.1 h
  obtain ⟨prev', s', g', hway, heq⟩ := run_eq_some r hm
  obtain ⟨t, ht⟩ := suffix_of_takes hway
  cases heq
  refine ⟨_, hm, ?_, rfl⟩
  have hlen : t.length + s'.length = s.length := by
    rw [← List.length_append, ht, List.length_map]
  rw [List.map_drop, ← ht, show s.length - s'.length = t.length by omega, List.drop_left]

theorem isSome_taker_iff {prev : Option α} {s : List α} :
    (taker isWord shown r prev s).isSome = true ↔
      ∃ prev' s' g', Takes isWord r (prev.map shown) (s.map shown) [] prev' s' g' := by
  rw [taker, Option.isSome_map, matchAt_isSome]

theorem sound_taker
    (hr : ∀ prev s prev' s' g', Takes isWord r prev s [] prev' s' g' → s'.length < s.length) :
    Replace.Sound (taker isWord shown r) := by
  intro prev s n h
  obtain ⟨m, hm, -, rfl⟩ := taker_eq_some h
  obtain ⟨prev', s', g', hway, heq⟩ := run_eq_some r hm
  cases heq
  have hlen := hr _ _ _ _ _ hway
  rw [List.length_map] at hlen
  show 0 < s.length - s'.length ∧ s.length - s'.length ≤ s.length
  omega

theorem sound_taker_of_reads {L : Language Char} (hr : Reads isWord r L) (hL : [] ∉ L) :
    Replace.Sound (taker isWord shown r) := by
  refine sound_taker fun prev s prev' s' g' hway => ?_
  obtain ⟨t, ht, rfl, -, -⟩ := (hr _ _ _ _ _ _).1 hway
  have hpos : 0 < t.length := List.length_pos_iff.2 fun hnil => hL (hnil ▸ ht)
  rw [List.length_append]
  omega

theorem isSome_taker {L : Language Char} (hr : Reads isWord r L) {w : List α}
    (hw : w.map shown ∈ L) (prev : Option α) (s : List α) :
    (taker isWord shown r prev (w ++ s)).isSome = true := by
  rw [isSome_taker_iff, List.map_append]
  exact ⟨_, s.map shown, [], (hr _ _ _ _ _ _).2 ⟨_, hw, rfl, rfl, rfl⟩⟩

-- ===== stopping

theorem runMany_stops {p : Char → Bool} {k : Option Char → List Char → Option β}
    (hk : ∀ prev s, (k prev s).isSome = true) {b : β} : ∀ {s : List Char} {prev : Option Char},
    runMany false p prev s k = some b →
      ∃ prev' s', k prev' s' = some b ∧ ∀ c ∈ s'.head?, p c = false := by
  intro s
  induction s with
  | nil =>
      intro prev h
      rw [runMany] at h
      exact ⟨prev, [], h, fun c hc => by cases hc⟩
  | cons c s ih =>
      intro prev h
      rw [runMany] at h
      by_cases hc : p c = true
      · rw [if_pos hc, if_neg (by simp)] at h
        have hsome : (runMany false p (some c) s k).isSome = true :=
          runMany_isSome (t := []) (by simp) (hk (some c) s)
        obtain ⟨b', hb'⟩ := Option.isSome_iff_exists.1 hsome
        rw [hb', Option.some_or] at h
        exact ih (hb'.trans h)
      · rw [if_neg hc] at h
        refine ⟨prev, c :: s, h, fun d hd => ?_⟩
        cases hd
        simpa using hc

theorem run_atLeast_stops {p : Char → Bool} {k : Option Char → List Char → Groups → Option β}
    (hk : ∀ prev s g, (k prev s g).isSome = true) {b : β} : ∀ {n : Nat} {prev : Option Char}
    {s : List Char} {g : Groups}, run isWord (.atLeast n p) prev s g k = some b →
      ∃ prev' s' g', k prev' s' g' = some b ∧ ∀ c ∈ s'.head?, p c = false := by
  intro n
  induction n with
  | zero =>
      intro prev s g h
      rw [Re.atLeast, run_many] at h
      obtain ⟨prev', s', hb, hstop⟩ := runMany_stops (fun prev s => hk prev s g) h
      exact ⟨prev', s', g, hb, hstop⟩
  | succ n ih =>
      intro prev s g h
      rw [Re.atLeast, run_seq] at h
      obtain ⟨prev', s', g', -, hrest⟩ := run_eq_some _ h
      exact ih hrest

theorem taker_stops {p : Char → Bool} {n : Nat} {prev : Option α}
    {x s : List α} (h : taker isWord shown (.seq r (.atLeast n p)) prev (x ++ s) = some x.length) :
    ∀ c ∈ s.head?, p (shown c) = false := by
  obtain ⟨m, hm, hrest, -⟩ := taker_eq_some h
  rw [List.drop_left] at hrest
  unfold matchAt at hm
  rw [run_seq] at hm
  obtain ⟨prev', s', g', -, hlast⟩ := run_eq_some _ hm
  obtain ⟨_, s'', _, heq, hstop⟩ := run_atLeast_stops (fun _ _ _ => rfl) hlast
  cases heq
  intro c hc
  apply hstop
  rw [show s'' = s.map shown from hrest, List.head?_map, hc]
  rfl

end Lib.Regex
