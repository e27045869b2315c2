/-
Backtracking regular expressions, as scripting languages match them:
alternatives are tried in order, repetitions longest or shortest first,
and the first way through wins. An atomic part is there in the one form
programs of the kind modelled here use: a run of a class up to the first
place where a piece of fixed width matches.

The matcher is written in continuation-passing style, so that what a
pattern does in front of a rest is an equation about that rest
(`run_text`, `run_many_*`), and a pattern is run symbolically by
rewriting from left to right. Whether a pattern occurs at all is
`search`; where and with which groups is `finditer`.

The one character table a host's engine adds, which characters are part
of a word, is the parameter `isWord`.
-/
import Mathlib.Data.List.Forall2

namespace Lib.Regex

-- ===== patterns

inductive Re
  | eps
  | cls (p : Char → Bool)
  | seq (a b : Re)
  | alt (a b : Re)
  /-- `[p]*`, or `[p]*?` when `lazy`. -/
  | many (lazy : Bool) (p : Char → Bool)
  /-- `(?:a)*`. -/
  | star (a : Re)
  /-- A run of `p`, as short as may be, and `piece`; once found, never
  moved: `(?=(?P<g>[p]*?piece))(?P=g)`. -/
  | firstAt (p : Char → Bool) (piece : List (Char → Bool))
  | group (i : Nat) (a : Re)
  /-- `^`, without the multi-line flag. -/
  | textStart
  /-- `$`, without the multi-line flag. -/
  | textEnd
  /-- `\b`. -/
  | wordEdge

namespace Re

def text : List Char → Re
  | [] => eps
  | c :: cs => seq (cls (· == c)) (text cs)

def cat : List Re → Re
  | [] => eps
  | [r] => r
  | r :: rs => seq r (cat rs)

def oneOf : List Re → Re
  | [] => cls fun _ => false
  | [r] => r
  | r :: rs => alt r (oneOf rs)

/-- `(?:r)?`. -/
def opt (r : Re) : Re := alt r eps

/-- `[p]+`. -/
def plus (p : Char → Bool) : Re := seq (cls p) (many false p)

end Re

-- ===== matching

abbrev Groups := List (Nat × List Char)

def Groups.get (g : Groups) (i : Nat) : List Char := (g.lookup i).getD []

variable {β : Type}

/-- Repetition of a class, in front of the continuation `k`. -/
def runMany (lazy : Bool) (p : Char → Bool) :
    Option Char → List Char → (Option Char → List Char → Option β) → Option β
  | prev, [], k => k prev []
  | prev, c :: cs, k =>
      if p c then
        if lazy then (k prev (c :: cs)).or (runMany lazy p (some c) cs k)
        else (runMany lazy p (some c) cs k).or (k prev (c :: cs))
      else k prev (c :: cs)

/-- Repetition of a pattern, run by `f`, in front of the continuation
`k`; every round takes at least one character. -/
def runStar
    (f : Option Char → List Char → Groups → (Option Char → List Char → Groups → Option β) → Option β)
    (k : Option Char → List Char → Groups → Option β) :
    Nat → Option Char → List Char → Groups → Option β
  | 0, prev, s, g => k prev s g
  | n + 1, prev, s, g =>
      (f prev s g fun prev' s' g' =>
        if s'.length < s.length then runStar f k n prev' s' g' else none).or (k prev s g)

def matchPiece : List (Char → Bool) → Option Char → List Char → Option (Option Char × List Char)
  | [], prev, s => some (prev, s)
  | _ :: _, _, [] => none
  | f :: fs, _, c :: s => if f c then matchPiece fs (some c) s else none

/-- The first place behind a run of `p` where a piece matches. -/
def firstPlace (p : Char → Bool) (piece : List (Char → Bool)) :
    Option Char → List Char → Option (Option Char × List Char)
  | prev, [] => matchPiece piece prev []
  | prev, c :: s =>
      (matchPiece piece prev (c :: s)).or
        (if p c then firstPlace p piece (some c) s else none)

variable (isWord : Char → Bool)

/-- The first way `r` matches at the front of `s`, `prev` being the
character before it, that the continuation accepts. -/
def run : Re → Option Char → List Char → Groups →
    (Option Char → List Char → Groups → Option β) → Option β
  | .eps, prev, s, g, k => k prev s g
  | .cls _, _, [], _, _ => none
  | .cls p, _, c :: cs, g, k => if p c then k (some c) cs g else none
  | .seq a b, prev, s, g, k => run a prev s g fun prev s g => run b prev s g k
  | .alt a b, prev, s, g, k => (run a prev s g k).or (run b prev s g k)
  | .many lazy p, prev, s, g, k => runMany lazy p prev s fun prev s => k prev s g
  | .star a, prev, s, g, k => runStar (fun prev s g k => run a prev s g k) k s.length prev s g
  | .firstAt p piece, prev, s, g, k => (firstPlace p piece prev s).bind fun r => k r.1 r.2 g
  | .group i a, prev, s, g, k =>
      run a prev s g fun prev' rest g => k prev' rest ((i, s.take (s.length - rest.length)) :: g)
  | .textStart, prev, s, g, k => if prev = none then k prev s g else none
  | .textEnd, prev, s, g, k => if s = [] ∨ s = ['\n'] then k prev s g else none
  | .wordEdge, prev, s, g, k =>
      if prev.any isWord ≠ s.head?.any isWord then k prev s g else none

/-- A match: its groups, the last character before its end, and the text
after it. -/
structure Match where
  groups : Groups
  last : Option Char
  rest : List Char
  deriving DecidableEq

/-- `pattern.match` at the front of `s`. -/
def matchAt (r : Re) (prev : Option Char) (s : List Char) : Option Match :=
  run isWord r prev s [] fun last rest groups => some ⟨groups, last, rest⟩

/-- The leftmost match at or after the front of `s`. -/
def find (r : Re) : Option Char → List Char → Option Match
  | prev, [] => matchAt isWord r prev []
  | prev, c :: cs => (matchAt isWord r prev (c :: cs)).or (find r (some c) cs)

/-- `pattern.search(s) is not None`. -/
def search (r : Re) (s : List Char) : Bool := (find isWord r none s).isSome

/-- `pattern.finditer`, for a pattern that matches no empty text, with a
bound on the number of matches. -/
def findAll (r : Re) : Nat → Option Char → List Char → List Match
  | 0, _, _ => []
  | n + 1, prev, s =>
      match find isWord r prev s with
      | none => []
      | some m => m :: findAll r n m.last m.rest

/-- `pattern.finditer(s)`, for a pattern that matches no empty text. -/
def finditer (r : Re) (s : List Char) : List Match := findAll isWord r (s.length + 1) none s

-- ===== running, symbolically

variable {isWord} {k : Option Char → List Char → Groups → Option β}

/-- The character before the text that follows `s`. -/
def lastOf (prev : Option Char) (s : List Char) : Option Char := s.getLast?.or prev

@[simp] theorem lastOf_nil (prev : Option Char) : lastOf prev [] = prev := rfl

theorem lastOf_cons (prev : Option Char) (c : Char) (s : List Char) :
    lastOf prev (c :: s) = lastOf (some c) s := by
  cases s with
  | nil => rfl
  | cons d s => simp [lastOf, List.getLast?_cons]

theorem lastOf_append (prev : Option Char) (s t : List Char) :
    lastOf prev (s ++ t) = lastOf (lastOf prev s) t := by
  simp [lastOf, List.getLast?_append, Option.or_assoc]

@[simp] theorem run_eps (prev : Option Char) (s : List Char) (g : Groups) :
    run isWord .eps prev s g k = k prev s g := rfl

@[simp] theorem run_seq (a b : Re) (prev : Option Char) (s : List Char) (g : Groups) :
    run isWord (.seq a b) prev s g k
      = run isWord a prev s g fun prev s g => run isWord b prev s g k := rfl

@[simp] theorem run_alt (a b : Re) (prev : Option Char) (s : List Char) (g : Groups) :
    run isWord (.alt a b) prev s g k
      = (run isWord a prev s g k).or (run isWord b prev s g k) := rfl

@[simp] theorem run_many (lazy : Bool) (p : Char → Bool) (prev : Option Char) (s : List Char)
    (g : Groups) :
    run isWord (.many lazy p) prev s g k = runMany lazy p prev s fun prev s => k prev s g := rfl

@[simp] theorem run_group (i : Nat) (a : Re) (prev : Option Char) (s : List Char) (g : Groups) :
    run isWord (.group i a) prev s g k
      = run isWord a prev s g fun prev' rest g =>
          k prev' rest ((i, s.take (s.length - rest.length)) :: g) := rfl

theorem run_cls_cons (p : Char → Bool) (prev : Option Char) (c : Char) (s : List Char)
    (g : Groups) :
    run isWord (.cls p) prev (c :: s) g k = if p c then k (some c) s g else none := rfl

theorem run_text (t : List Char) : ∀ (prev : Option Char) (rest : List Char) (g : Groups),
    run isWord (.text t) prev (t ++ rest) g k = k (lastOf prev t) rest g := by
  induction t with
  | nil =>
      intro prev rest g
      rw [Re.text, run_eps, List.nil_append, lastOf_nil]
  | cons c t ih =>
      intro prev rest g
      rw [Re.text, run_seq, List.cons_append, run_cls_cons, if_pos (by simp), ih, lastOf_cons]

theorem run_text_eq_none (t : List Char) : ∀ (prev : Option Char) (s : List Char) (g : Groups),
    ¬ t <+: s → run isWord (.text t) prev s g k = none := by
  induction t with
  | nil =>
      intro prev s g h
      exact absurd (List.nil_prefix) h
  | cons c t ih =>
      intro prev s g h
      rw [Re.text, run_seq]
      cases s with
      | nil => rw [run]
      | cons d s =>
          rw [run_cls_cons]
          by_cases hcd : (d == c) = true
          · rw [if_pos hcd]
            refine ih _ _ _ fun hpre => h ?_
            rw [beq_iff_eq] at hcd
            rw [hcd]
            exact (List.prefix_cons_inj c).2 hpre
          · rw [if_neg hcd]

variable {p : Char → Bool} {piece : List (Char → Bool)}

/-- A repetition in front of a character outside its class takes
nothing. -/
theorem runMany_stop {lazy : Bool} {prev : Option Char} {s : List Char}
    {k : Option Char → List Char → Option β} (h : ∀ c ∈ s.head?, p c = false) :
    runMany lazy p prev s k = k prev s := by
  cases s with
  | nil => rw [runMany]
  | cons c s => rw [runMany, if_neg (by simp [h c rfl])]

/-- A greedy repetition that only goes on well from the end of its run
of characters takes them all. -/
theorem runMany_greedy {k : Option Char → List Char → Option β}
    (t : List Char) : ∀ (prev : Option Char) (rest : List Char), (∀ c ∈ t, p c = true) →
      (∀ c ∈ rest.head?, p c = false) →
      (∀ i < t.length, k (lastOf prev (t.take i)) (t.drop i ++ rest) = none) →
      runMany false p prev (t ++ rest) k = k (lastOf prev t) rest := by
  induction t with
  | nil =>
      intro prev rest _ hrest _
      rw [List.nil_append, runMany_stop hrest, lastOf_nil]
  | cons c t ih =>
      intro prev rest hp hrest hk
      have hfirst : k prev (c :: (t ++ rest)) = none := by
        simpa using hk 0 (by simp)
      rw [List.cons_append, runMany, if_pos (hp c (by simp))]
      simp only [Bool.false_eq_true, if_false, hfirst, Option.or_none]
      rw [ih (some c) rest (fun d hd => hp d (List.mem_cons_of_mem c hd)) hrest, lastOf_cons]
      intro i hi
      have := hk (i + 1) (by simpa using hi)
      simpa [lastOf_cons] using this

/-- A greedy repetition whose continuation only goes on well one
character before the end of the run. -/
theorem runMany_backtrack {k : Option Char → List Char → Option β} {d : Char}
    (t : List Char) : ∀ (prev : Option Char) (rest : List Char), (∀ c ∈ t, p c = true) →
      p d = true → (∀ c ∈ rest.head?, p c = false) →
      k (some d) rest = none →
      (∀ i < t.length, k (lastOf prev (t.take i)) (t.drop i ++ d :: rest) = none) →
      runMany false p prev (t ++ d :: rest) k = k (lastOf prev t) (d :: rest) := by
  induction t with
  | nil =>
      intro prev rest _ hd hrest hend _
      rw [List.nil_append, runMany, if_pos hd, if_neg (by simp), runMany_stop hrest, hend,
        Option.none_or, lastOf_nil]
  | cons c t ih =>
      intro prev rest hp hd hrest hend hk
      have hfirst : k prev (c :: (t ++ d :: rest)) = none := by
        simpa using hk 0 (by simp)
      rw [List.cons_append, runMany, if_pos (hp c (by simp)), if_neg (by simp), hfirst,
        Option.or_none, ih (some c) rest (fun e he => hp e (List.mem_cons_of_mem c he)) hd hrest
          hend, lastOf_cons]
      intro i hi
      have := hk (i + 1) (by simpa using hi)
      simpa [lastOf_cons] using this

/-- A lazy repetition of everything goes on from the first place where
what follows matches. -/
theorem runMany_lazy {k : Option Char → List Char → Option β} (t : List Char) :
    ∀ (prev : Option Char) (rest : List Char),
      (∀ i < t.length, k (lastOf prev (t.take i)) (t.drop i ++ rest) = none) →
      (k (lastOf prev t) rest).isSome = true →
      runMany true (fun _ => true) prev (t ++ rest) k = k (lastOf prev t) rest := by
  induction t with
  | nil =>
      intro prev rest _ hsome
      obtain ⟨b, hb⟩ := Option.isSome_iff_exists.1 hsome
      cases rest with
      | nil => rw [List.nil_append, runMany, lastOf_nil]
      | cons c rest =>
          rw [List.nil_append, runMany]
          rw [lastOf_nil] at hb ⊢
          simp [hb]
  | cons c t ih =>
      intro prev rest hk hsome
      have hfirst : k prev (c :: (t ++ rest)) = none := by
        simpa using hk 0 (by simp)
      rw [List.cons_append, runMany, if_pos rfl, if_pos rfl, hfirst, Option.none_or, lastOf_cons]
      refine ih (some c) rest (fun i hi => ?_) (by rwa [lastOf_cons] at hsome)
      have := hk (i + 1) (by simpa using hi)
      simpa [lastOf_cons] using this

-- ===== ways through

/-- Rounds of a way, each of which takes at least one character. -/
inductive Rounds
    (R : Option Char → List Char → Groups → Option Char → List Char → Groups → Prop) :
    Option Char → List Char → Groups → Option Char → List Char → Groups → Prop
  | done {prev s g} : Rounds R prev s g prev s g
  | round {prev s g q t h prev' s' g'} : R prev s g q t h → t.length < s.length →
      Rounds R q t h prev' s' g' → Rounds R prev s g prev' s' g'

/-- A way through `r`: from a place in a text, given by the character
before it, the text from it on and the groups captured so far, to
another. -/
def Takes (isWord : Char → Bool) :
    Re → Option Char → List Char → Groups → Option Char → List Char → Groups → Prop
  | .eps, prev, s, g, prev', s', g' => prev' = prev ∧ s' = s ∧ g' = g
  | .cls p, _, s, g, prev', s', g' => ∃ c, p c = true ∧ s = c :: s' ∧ prev' = some c ∧ g' = g
  | .seq a b, prev, s, g, prev', s', g' =>
      ∃ q t h, Takes isWord a prev s g q t h ∧ Takes isWord b q t h prev' s' g'
  | .alt a b, prev, s, g, prev', s', g' =>
      Takes isWord a prev s g prev' s' g' ∨ Takes isWord b prev s g prev' s' g'
  | .many _ p, prev, s, g, prev', s', g' =>
      ∃ t, (∀ c ∈ t, p c = true) ∧ s = t ++ s' ∧ prev' = lastOf prev t ∧ g' = g
  | .star a, prev, s, g, prev', s', g' => Rounds (Takes isWord a) prev s g prev' s' g'
  | .firstAt p piece, prev, s, g, prev', s', g' =>
      firstPlace p piece prev s = some (prev', s') ∧ g' = g
  | .group i a, prev, s, g, prev', s', g' =>
      ∃ h, Takes isWord a prev s g prev' s' h ∧ g' = (i, s.take (s.length - s'.length)) :: h
  | .textStart, prev, s, g, prev', s', g' => prev = none ∧ prev' = prev ∧ s' = s ∧ g' = g
  | .textEnd, prev, s, g, prev', s', g' =>
      (s = [] ∨ s = ['\n']) ∧ prev' = prev ∧ s' = s ∧ g' = g
  | .wordEdge, prev, s, g, prev', s', g' =>
      prev.any isWord ≠ s.head?.any isWord ∧ prev' = prev ∧ s' = s ∧ g' = g

theorem takes_text {t : List Char} : ∀ {prev : Option Char} {s : List Char} {g : Groups}
    {prev' : Option Char} {s' : List Char} {g' : Groups},
    Takes isWord (.text t) prev s g prev' s' g' ↔ s = t ++ s' ∧ prev' = lastOf prev t ∧ g' = g := by
  induction t with
  | nil =>
      intro prev s g prev' s' g'
      simp only [Re.text, Takes, List.nil_append, lastOf_nil]
      constructor
      · rintro ⟨rfl, rfl, rfl⟩
        exact ⟨rfl, rfl, rfl⟩
      · rintro ⟨rfl, rfl, rfl⟩
        exact ⟨rfl, rfl, rfl⟩
  | cons c t ih =>
      intro prev s g prev' s' g'
      simp only [Re.text, Takes, ih, lastOf_cons, List.cons_append, beq_iff_eq]
      constructor
      · rintro ⟨_, _, _, ⟨_, rfl, rfl, rfl, rfl⟩, rfl, rfl, rfl⟩
        exact ⟨rfl, rfl, rfl⟩
      · rintro ⟨rfl, rfl, rfl⟩
        exact ⟨some c, t ++ s', g', ⟨c, rfl, rfl, rfl, rfl⟩, rfl, rfl, rfl⟩

theorem takes_plus {prev : Option Char} {s : List Char} {g : Groups}
    {prev' : Option Char} {s' : List Char} {g' : Groups} :
    Takes isWord (.plus p) prev s g prev' s' g' ↔
      ∃ t, t ≠ [] ∧ (∀ c ∈ t, p c = true) ∧ s = t ++ s' ∧ prev' = lastOf prev t ∧ g' = g := by
  simp only [Re.plus, Takes]
  constructor
  · rintro ⟨_, _, _, ⟨c, hc, rfl, rfl, rfl⟩, t, ht, rfl, rfl, rfl⟩
    refine ⟨c :: t, by simp, ?_, rfl, (lastOf_cons prev c t).symm, rfl⟩
    intro d hd
    rcases List.mem_cons.1 hd with rfl | hd
    · exact hc
    · exact ht d hd
  · rintro ⟨t, hne, ht, rfl, rfl, rfl⟩
    obtain ⟨c, t, rfl⟩ := List.exists_cons_of_ne_nil hne
    exact ⟨some c, t ++ s', g', ⟨c, ht c (by simp), rfl, rfl, rfl⟩, t,
      fun d hd => ht d (List.mem_cons_of_mem c hd), rfl, lastOf_cons prev c t, rfl⟩

/-- What a repetition finds, it finds behind some of its characters. -/
theorem runMany_eq_some {lazy : Bool} {k : Option Char → List Char → Option β} {b : β} :
    ∀ {s : List Char} {prev : Option Char}, runMany lazy p prev s k = some b →
      ∃ t s', (∀ c ∈ t, p c = true) ∧ s = t ++ s' ∧ k (lastOf prev t) s' = some b := by
  intro s
  induction s with
  | nil =>
      intro prev h
      rw [runMany] at h
      exact ⟨[], [], by simp, rfl, h⟩
  | cons c s ih =>
      intro prev h
      have hnone : k prev (c :: s) = some b → ∃ t s', (∀ d ∈ t, p d = true) ∧ c :: s = t ++ s' ∧
          k (lastOf prev t) s' = some b := fun h => ⟨[], c :: s, by simp, rfl, h⟩
      have hsome : p c = true → runMany lazy p (some c) s k = some b →
          ∃ t s', (∀ d ∈ t, p d = true) ∧ c :: s = t ++ s' ∧ k (lastOf prev t) s' = some b := by
        intro hc h
        obtain ⟨t, s', ht, rfl, hk⟩ := ih h
        refine ⟨c :: t, s', ?_, rfl, by rwa [lastOf_cons]⟩
        intro d hd
        rcases List.mem_cons.1 hd with rfl | hd
        · exact hc
        · exact ht d hd
      rw [runMany] at h
      by_cases hc : p c = true
      · rw [if_pos hc] at h
        split at h <;> rcases Option.or_eq_some_iff.1 h with h | ⟨-, h⟩
        · exact hnone h
        · exact hsome hc h
        · exact hsome hc h
        · exact hnone h
      · rw [if_neg hc] at h
        exact hnone h

theorem runMany_isSome {lazy : Bool} {k : Option Char → List Char → Option β} {s' : List Char} :
    ∀ {t : List Char} {prev : Option Char}, (∀ c ∈ t, p c = true) →
      (k (lastOf prev t) s').isSome = true → (runMany lazy p prev (t ++ s') k).isSome = true := by
  intro t
  induction t with
  | nil =>
      intro prev _ h
      rw [lastOf_nil] at h
      cases s' with
      | nil => rwa [List.nil_append, runMany]
      | cons c s' =>
          rw [List.nil_append, runMany]
          split
          next => split <;> simp [h]
          next => exact h
  | cons c t ih =>
      intro prev ht h
      rw [lastOf_cons] at h
      have hrest := ih (fun d hd => ht d (List.mem_cons_of_mem c hd)) h
      rw [List.cons_append, runMany, if_pos (ht c (by simp))]
      split <;> simp [hrest]

/-- What `run` finds, it finds on a way through the pattern. -/
theorem run_eq_some (r : Re) : ∀ {k : Option Char → List Char → Groups → Option β}
    {prev : Option Char} {s : List Char} {g : Groups} {b : β}, run isWord r prev s g k = some b →
      ∃ prev' s' g', Takes isWord r prev s g prev' s' g' ∧ k prev' s' g' = some b := by
  induction r with
  | eps =>
      intro k prev s g b h
      rw [run_eps] at h
      exact ⟨prev, s, g, ⟨rfl, rfl, rfl⟩, h⟩
  | cls p =>
      intro k prev s g b h
      cases s with
      | nil =>
          rw [run] at h
          cases h
      | cons c s =>
          rw [run_cls_cons] at h
          split at h
          next hc => exact ⟨some c, s, g, ⟨c, hc, rfl, rfl, rfl⟩, h⟩
          next => cases h
  | seq a b iha ihb =>
      intro k prev s g _ h
      rw [run_seq] at h
      obtain ⟨q, t, g₁, ha, h⟩ := iha h
      obtain ⟨prev', s', g', hb, h⟩ := ihb h
      exact ⟨prev', s', g', ⟨q, t, g₁, ha, hb⟩, h⟩
  | alt a b iha ihb =>
      intro k prev s g _ h
      rw [run_alt] at h
      rcases Option.or_eq_some_iff.1 h with h | ⟨-, h⟩
      · obtain ⟨prev', s', g', ha, h⟩ := iha h
        exact ⟨prev', s', g', .inl ha, h⟩
      · obtain ⟨prev', s', g', hb, h⟩ := ihb h
        exact ⟨prev', s', g', .inr hb, h⟩
  | many lazy p =>
      intro k prev s g b h
      rw [run_many] at h
      obtain ⟨t, s', ht, rfl, hk⟩ := runMany_eq_some h
      exact ⟨lastOf prev t, s', g, ⟨t, ht, rfl, rfl, rfl⟩, hk⟩
  | star a ih =>
      intro k prev s g b h
      rw [run] at h
      generalize s.length = n at h
      induction n generalizing prev s g with
      | zero =>
          rw [runStar] at h
          exact ⟨prev, s, g, .done, h⟩
      | succ n ihn =>
          rw [runStar] at h
          rcases Option.or_eq_some_iff.1 h with h | ⟨-, h⟩
          · obtain ⟨q, t, g₁, ha, h⟩ := ih h
            split at h
            next hlt =>
              obtain ⟨prev', s', g', hrest, h⟩ := ihn h
              exact ⟨prev', s', g', .round ha hlt hrest, h⟩
            next => cases h
          · exact ⟨prev, s, g, .done, h⟩
  | firstAt p piece =>
      intro k prev s g b h
      rw [run] at h
      obtain ⟨r, hr, h⟩ := Option.bind_eq_some_iff.1 h
      exact ⟨r.1, r.2, g, ⟨hr, rfl⟩, h⟩
  | group i a ih =>
      intro k prev s g b h
      rw [run_group] at h
      obtain ⟨prev', s', g₁, ha, h⟩ := ih h
      exact ⟨prev', s', _, ⟨g₁, ha, rfl⟩, h⟩
  | textStart =>
      intro k prev s g b h
      rw [run] at h
      split at h
      next hp => exact ⟨prev, s, g, ⟨hp, rfl, rfl, rfl⟩, h⟩
      next => cases h
  | textEnd =>
      intro k prev s g b h
      rw [run] at h
      split at h
      next hs => exact ⟨prev, s, g, ⟨hs, rfl, rfl, rfl⟩, h⟩
      next => cases h
  | wordEdge =>
      intro k prev s g b h
      rw [run] at h
      split at h
      next he => exact ⟨prev, s, g, ⟨he, rfl, rfl, rfl⟩, h⟩
      next => cases h

theorem runStar_isSome {a : Re}
    (ha : ∀ {k : Option Char → List Char → Groups → Option β} {prev s g prev' s' g'},
      Takes isWord a prev s g prev' s' g' → (k prev' s' g').isSome = true →
        (run isWord a prev s g k).isSome = true)
    {k : Option Char → List Char → Groups → Option β} {prev' : Option Char} {s' : List Char}
    {g' : Groups} (hk : (k prev' s' g').isSome = true) {prev : Option Char} {s : List Char}
    {g : Groups} (h : Rounds (Takes isWord a) prev s g prev' s' g') :
    ∀ {n : Nat}, s.length ≤ n →
      (runStar (fun prev s g k => run isWord a prev s g k) k n prev s g).isSome = true := by
  induction h with
  | done =>
      intro n _
      cases n with
      | zero => rwa [runStar]
      | succ n => rw [runStar, Option.isSome_or, hk, Bool.or_true]
  | round hround hlt _ ih =>
      intro n hn
      obtain ⟨n, rfl⟩ : ∃ m, n = m + 1 := ⟨n - 1, by omega⟩
      rw [runStar, Option.isSome_or, ha hround, Bool.true_or]
      rw [if_pos hlt]
      exact ih hk (by omega)

/-- `run` misses no way whose end the continuation accepts. -/
theorem run_isSome (r : Re) : ∀ {k : Option Char → List Char → Groups → Option β}
    {prev : Option Char} {s : List Char} {g : Groups} {prev' : Option Char} {s' : List Char}
    {g' : Groups}, Takes isWord r prev s g prev' s' g' → (k prev' s' g').isSome = true →
      (run isWord r prev s g k).isSome = true := by
  induction r with
  | eps =>
      rintro k prev s g _ _ _ ⟨rfl, rfl, rfl⟩ h
      rwa [run_eps]
  | cls p =>
      rintro k prev s g _ s' _ ⟨c, hc, rfl, rfl, rfl⟩ h
      rwa [run_cls_cons, if_pos hc]
  | seq a b iha ihb =>
      rintro k prev s g prev' s' g' ⟨q, t, g₁, ha, hb⟩ h
      rw [run_seq]
      exact iha ha (ihb hb h)
  | alt a b iha ihb =>
      rintro k prev s g prev' s' g' (ha | hb) h
      · rw [run_alt, Option.isSome_or, iha ha h, Bool.true_or]
      · rw [run_alt, Option.isSome_or, ihb hb h, Bool.or_true]
  | many lazy p =>
      rintro k prev s g _ s' _ ⟨t, ht, rfl, rfl, rfl⟩ h
      rw [run_many]
      exact runMany_isSome ht h
  | star a ih =>
      intro k prev s g prev' s' g' hrounds h
      rw [run]
      exact runStar_isSome ih h hrounds (Nat.le_refl _)
  | firstAt p piece =>
      rintro k prev s g prev' s' _ ⟨hplace, rfl⟩ h
      rwa [run, hplace, Option.bind_some]
  | group i a ih =>
      rintro k prev s g prev' s' _ ⟨g₁, ha, rfl⟩ h
      rw [run_group]
      exact ih ha h
  | textStart =>
      rintro k prev s g _ _ _ ⟨hp, rfl, rfl, rfl⟩ h
      rwa [run, if_pos hp]
  | textEnd =>
      rintro k prev s g _ _ _ ⟨hs, rfl, rfl, rfl⟩ h
      rwa [run, if_pos hs]
  | wordEdge =>
      rintro k prev s g _ _ _ ⟨he, rfl, rfl, rfl⟩ h
      rwa [run, if_pos he]

theorem matchAt_isSome {r : Re} {prev : Option Char} {s : List Char} :
    (matchAt isWord r prev s).isSome = true ↔
      ∃ prev' s' g', Takes isWord r prev s [] prev' s' g' := by
  unfold matchAt
  constructor
  · intro h
    obtain ⟨m, hm⟩ := Option.isSome_iff_exists.1 h
    obtain ⟨prev', s', g', ht, -⟩ := run_eq_some r hm
    exact ⟨prev', s', g', ht⟩
  · rintro ⟨prev', s', g', ht⟩
    exact run_isSome r ht rfl

theorem matchAt_oneOf_nil (prev : Option Char) (s : List Char) :
    matchAt isWord (.oneOf []) prev s = none := by
  unfold matchAt Re.oneOf
  cases s with
  | nil => rw [run]
  | cons c s => rw [run_cls_cons, if_neg (by simp)]

theorem matchAt_oneOf_cons (r : Re) (rs : List Re) (prev : Option Char) (s : List Char) :
    matchAt isWord (.oneOf (r :: rs)) prev s
      = (matchAt isWord r prev s).or (matchAt isWord (.oneOf rs) prev s) := by
  cases rs with
  | nil =>
      rw [matchAt_oneOf_nil, Option.or_none]
      rfl
  | cons r' rs =>
      unfold matchAt
      rw [Re.oneOf, run_alt]
      exact fun h => by cases h

/-- A group matches where its pattern does, and is the last to be
captured. -/
theorem matchAt_group (i : Nat) (r : Re) (prev : Option Char) (s : List Char) :
    (matchAt isWord (.group i r) prev s).isSome = (matchAt isWord r prev s).isSome ∧
      ∀ m ∈ matchAt isWord (.group i r) prev s, m.groups.head?.map (·.1) = some i := by
  constructor
  · rw [Bool.eq_iff_iff, matchAt_isSome, matchAt_isSome]
    constructor
    · rintro ⟨prev', s', _, g', h, -⟩
      exact ⟨prev', s', g', h⟩
    · rintro ⟨prev', s', g', h⟩
      exact ⟨prev', s', _, g', h, rfl⟩
  · intro m hm
    obtain ⟨prev', s', g', ⟨h, -, rfl⟩, hm⟩ := run_eq_some _ hm
    cases hm
    rfl

theorem find_eq_some {r : Re} {m : Match} : ∀ {s : List Char} {prev : Option Char},
    find isWord r prev s = some m →
      ∃ t s', s = t ++ s' ∧ matchAt isWord r (lastOf prev t) s' = some m := by
  intro s
  induction s with
  | nil =>
      intro prev h
      rw [find] at h
      exact ⟨[], [], rfl, h⟩
  | cons c s ih =>
      intro prev h
      rw [find] at h
      rcases Option.or_eq_some_iff.1 h with h | ⟨-, h⟩
      · exact ⟨[], c :: s, rfl, h⟩
      · obtain ⟨t, s', rfl, h⟩ := ih h
        exact ⟨c :: t, s', rfl, by rwa [lastOf_cons]⟩

theorem find_front {r : Re} {prev : Option Char} {s : List Char} {m : Match}
    (h : matchAt isWord r prev s = some m) : find isWord r prev s = some m := by
  cases s with
  | nil => rwa [find]
  | cons c s => rw [find, h, Option.some_or]

/-- `find` misses no place where a match is. -/
theorem find_isSome {r : Re} {s' : List Char} : ∀ {t : List Char} {prev : Option Char},
    (matchAt isWord r (lastOf prev t) s').isSome = true →
      (find isWord r prev (t ++ s')).isSome = true := by
  intro t
  induction t with
  | nil =>
      intro prev h
      rw [lastOf_nil] at h
      cases s' with
      | nil => rwa [List.nil_append, find]
      | cons c s' => rw [List.nil_append, find, Option.isSome_or, h, Bool.true_or]
  | cons c t ih =>
      intro prev h
      rw [lastOf_cons] at h
      rw [List.cons_append, find, Option.isSome_or, ih h, Bool.or_true]

-- ===== what follows

theorem suffix_of_matchPiece :
    ∀ {prev : Option Char} {s : List Char} {r : Option Char × List Char},
      matchPiece piece prev s = some r → ∃ t, s = t ++ r.2 := by
  induction piece with
  | nil =>
      intro prev s r h
      cases h
      exact ⟨[], rfl⟩
  | cons f fs ih =>
      intro prev s r h
      cases s with
      | nil => cases h
      | cons c s =>
          rw [matchPiece] at h
          split at h
          next =>
            obtain ⟨t, rfl⟩ := ih h
            exact ⟨c :: t, rfl⟩
          next => cases h

theorem suffix_of_firstPlace :
    ∀ {s : List Char} {prev : Option Char} {r : Option Char × List Char},
      firstPlace p piece prev s = some r → ∃ t, s = t ++ r.2 := by
  intro s
  induction s with
  | nil => exact fun h => suffix_of_matchPiece h
  | cons c s ih =>
      intro prev r h
      rw [firstPlace] at h
      rcases Option.or_eq_some_iff.1 h with h | ⟨-, h⟩
      · exact suffix_of_matchPiece h
      · split at h
        next =>
          obtain ⟨t, ht⟩ := ih h
          exact ⟨c :: t, by rw [ht, List.cons_append]⟩
        next => cases h

theorem suffix_of_takes {r : Re} : ∀ {prev : Option Char} {s : List Char} {g : Groups}
    {prev' : Option Char} {s' : List Char} {g' : Groups},
    Takes isWord r prev s g prev' s' g' → s' <:+ s := by
  induction r with
  | eps =>
      rintro prev s g _ _ _ ⟨rfl, rfl, rfl⟩
      exact List.suffix_rfl
  | cls p =>
      rintro prev s g _ s' _ ⟨c, -, rfl, rfl, rfl⟩
      exact List.suffix_cons c s'
  | seq a b iha ihb =>
      rintro prev s g prev' s' g' ⟨q, t, h, ha, hb⟩
      exact (ihb hb).trans (iha ha)
  | alt a b iha ihb =>
      rintro prev s g prev' s' g' (ha | hb)
      · exact iha ha
      · exact ihb hb
  | many lazy p =>
      rintro prev s g _ s' _ ⟨t, -, rfl, rfl, rfl⟩
      exact List.suffix_append t s'
  | star a ih =>
      intro prev s g prev' s' g' h
      induction h with
      | done => exact List.suffix_rfl
      | round hround _ _ ih' => exact ih'.trans (ih hround)
  | firstAt p piece =>
      rintro prev s g prev' s' _ ⟨hplace, rfl⟩
      obtain ⟨t, rfl⟩ := suffix_of_firstPlace hplace
      exact List.suffix_append t _
  | group i a ih =>
      rintro prev s g prev' s' _ ⟨h, ha, rfl⟩
      exact ih ha
  | textStart =>
      rintro prev s g _ _ _ ⟨-, rfl, rfl, rfl⟩
      exact List.suffix_rfl
  | textEnd =>
      rintro prev s g _ _ _ ⟨-, rfl, rfl, rfl⟩
      exact List.suffix_rfl
  | wordEdge =>
      rintro prev s g _ _ _ ⟨-, rfl, rfl, rfl⟩
      exact List.suffix_rfl

/-- A pattern occurs in a text when a way through it starts somewhere. -/
theorem search_iff {r : Re} {s : List Char} :
    search isWord r s = true ↔
      ∃ t s', s = t ++ s' ∧ ∃ prev' s'' g', Takes isWord r (lastOf none t) s' [] prev' s'' g' := by
  constructor
  · intro h
    obtain ⟨m, hm⟩ := Option.isSome_iff_exists.1 h
    obtain ⟨t, s', rfl, hmatch⟩ := find_eq_some hm
    exact ⟨t, s', rfl, matchAt_isSome.1 (Option.isSome_iff_exists.2 ⟨m, hmatch⟩)⟩
  · rintro ⟨t, s', rfl, hway⟩
    exact find_isSome (matchAt_isSome.2 hway)

theorem takes_cat_last {r r' : Re} {s : List Char}
    (h : ∀ {q t g q' t' g'}, t <:+ s → Takes isWord r q t g q' t' g' →
      Takes isWord r' q t g q' t' g') : ∀ {xs : List Re} {prev : Option Char} {s₁ : List Char}
      {g : Groups} {prev' : Option Char} {s' : List Char} {g' : Groups}, s₁ <:+ s →
        Takes isWord (.cat (xs ++ [r])) prev s₁ g prev' s' g' →
        Takes isWord (.cat (xs ++ [r'])) prev s₁ g prev' s' g' := by
  intro xs
  induction xs with
  | nil => exact fun hs hway => h hs hway
  | cons x xs ih =>
      intro prev s₁ g prev' s' g' hs hway
      have hcat : ∀ r : Re, Re.cat ((x :: xs) ++ [r]) = .seq x (.cat (xs ++ [r])) := by
        intro r
        cases xs <;> rfl
      rw [hcat] at hway ⊢
      obtain ⟨q, t, h₁, hx, hrest⟩ := hway
      exact ⟨q, t, h₁, hx, ih ((suffix_of_takes hx).trans hs) hrest⟩

/-- A pattern gets nowhere in front of texts whose suffixes its
continuation all refuses. -/
theorem run_eq_none {C : List Char → Prop} (hC : ∀ c s, C (c :: s) → C s) (r : Re) :
    ∀ {k : Option Char → List Char → Groups → Option β},
      (∀ prev s g, C s → k prev s g = none) →
      ∀ prev s g, C s → run isWord r prev s g k = none := by
  induction r with
  | eps =>
      intro k hk prev s g hs
      rw [run_eps, hk prev s g hs]
  | cls p =>
      intro k hk prev s g hs
      cases s with
      | nil => rw [run]
      | cons c s =>
          rw [run_cls_cons]
          split
          next => exact hk _ _ _ (hC c s hs)
          next => rfl
  | seq a b iha ihb =>
      intro k hk prev s g hs
      rw [run_seq]
      exact iha (fun prev s g hs => ihb hk prev s g hs) prev s g hs
  | alt a b iha ihb =>
      intro k hk prev s g hs
      rw [run_alt, iha hk prev s g hs, ihb hk prev s g hs, Option.or_none]
  | many lazy p =>
      intro k hk prev s g hs
      rw [run_many]
      induction s generalizing prev with
      | nil => rw [runMany, hk prev [] g hs]
      | cons c s ih =>
          rw [runMany, hk prev (c :: s) g hs, ih (some c) (hC c s hs)]
          simp
  | star a ih =>
      intro k hk prev s g hs
      rw [run]
      generalize s.length = n
      induction n generalizing prev s g with
      | zero => rw [runStar, hk prev s g hs]
      | succ n ihn =>
          rw [runStar, hk prev s g hs, Option.or_none]
          refine ih (fun prev' s' g' hs' => ?_) prev s g hs
          split
          next => exact ihn prev' s' g' hs'
          next => rfl
  | firstAt p piece =>
      intro k hk prev s g hs
      rw [run]
      cases hplace : firstPlace p piece prev s with
      | none => rfl
      | some r =>
          obtain ⟨t, ht⟩ := suffix_of_firstPlace hplace
          have hrest : ∀ (t s : List Char), C (t ++ s) → C s := by
            intro t
            induction t with
            | nil => exact fun _ h => h
            | cons c t iht => exact fun s h => iht s (hC c (t ++ s) h)
          exact hk r.1 r.2 g (hrest t r.2 (ht ▸ hs))
  | group i a ih =>
      intro k hk prev s g hs
      rw [run_group]
      exact ih (fun prev s g hs => hk prev s _ hs) prev s g hs
  | textStart =>
      intro k hk prev s g hs
      rw [run, hk prev s g hs]
      split <;> rfl
  | textEnd =>
      intro k hk prev s g hs
      rw [run, hk prev s g hs]
      split <;> rfl
  | wordEdge =>
      intro k hk prev s g hs
      rw [run, hk prev s g hs]
      split <;> rfl

theorem run_seq_eq_none {C : List Char → Prop} (hC : ∀ c s, C (c :: s) → C s) {a b : Re}
    (hb : ∀ prev s g, C s → run isWord b prev s g k = none) :
    ∀ prev s g, C s → run isWord (.seq a b) prev s g k = none := by
  intro prev s g hs
  rw [run_seq]
  exact run_eq_none hC a hb prev s g hs

/-- Any text has a first suffix with a property one of its suffixes
has. -/
theorem exists_first {P : List Char → Prop} [DecidablePred P] :
    ∀ {s : List Char} {i : Nat}, P (s.drop i) →
      ∃ t rest, s = t ++ rest ∧ P rest ∧ t.length ≤ i ∧
        ∀ j < t.length, ¬ P (t.drop j ++ rest) := by
  intro s
  induction s with
  | nil =>
      intro i hi
      exact ⟨[], [], rfl, by simpa using hi, Nat.zero_le _, fun j hj => by simp at hj⟩
  | cons c s ih =>
      intro i hi
      by_cases hP : P (c :: s)
      · exact ⟨[], c :: s, rfl, hP, Nat.zero_le _, fun j hj => by simp at hj⟩
      · cases i with
        | zero => exact absurd hi hP
        | succ i =>
            obtain ⟨t, rest, rfl, hrest, hle, hbefore⟩ := ih (by simpa using hi)
            refine ⟨c :: t, rest, rfl, hrest, by simpa using hle, fun j hj => ?_⟩
            cases j with
            | zero => simpa using hP
            | succ j => simpa using hbefore j (by simpa using hj)

-- ===== sequences

theorem takes_cat_cons {r : Re} {rs : List Re} {prev : Option Char} {s : List Char} {g : Groups}
    {prev' : Option Char} {s' : List Char} {g' : Groups} :
    Takes isWord (.cat (r :: rs)) prev s g prev' s' g' ↔
      ∃ q t h, Takes isWord r prev s g q t h ∧ Takes isWord (.cat rs) q t h prev' s' g' := by
  cases rs with
  | nil =>
      constructor
      · exact fun h => ⟨prev', s', g', h, rfl, rfl, rfl⟩
      · rintro ⟨q, t, h, hr, rfl, rfl, rfl⟩
        exact hr
  | cons r' rs => exact Iff.rfl

theorem run_cat_cons {r : Re} {rs : List Re} {prev : Option Char} {s : List Char} {g : Groups} :
    run isWord (.cat (r :: rs)) prev s g k
      = run isWord r prev s g fun prev s g => run isWord (.cat rs) prev s g k := by
  cases rs with
  | nil => simp only [Re.cat, run_eps]
  | cons r' rs => rw [Re.cat, run_seq] <;> exact List.cons_ne_nil _ _

def Fits (piece : List (Char → Bool)) (t : List Char) : Prop :=
  List.Forall₂ (fun p c => p c = true) piece t

theorem takes_classes : ∀ {prev : Option Char} {s : List Char}
    {g : Groups} {prev' : Option Char} {s' : List Char} {g' : Groups},
    Takes isWord (.cat (piece.map .cls)) prev s g prev' s' g' ↔
      ∃ t, s = t ++ s' ∧ Fits piece t ∧ prev' = lastOf prev t ∧ g' = g := by
  induction piece with
  | nil =>
      intro prev s g prev' s' g'
      constructor
      · rintro ⟨rfl, rfl, rfl⟩
        exact ⟨[], rfl, List.Forall₂.nil, rfl, rfl⟩
      · rintro ⟨t, rfl, hfits, rfl, rfl⟩
        cases hfits
        exact ⟨rfl, rfl, rfl⟩
  | cons p piece ih =>
      intro prev s g prev' s' g'
      rw [List.map_cons, takes_cat_cons]
      constructor
      · rintro ⟨q, t, h, ⟨c, hc, rfl, rfl, rfl⟩, hrest⟩
        obtain ⟨t, rfl, hfits, rfl, rfl⟩ := ih.1 hrest
        exact ⟨c :: t, rfl, List.Forall₂.cons hc hfits, (lastOf_cons prev c t).symm, rfl⟩
      · rintro ⟨t, rfl, hfits, rfl, rfl⟩
        cases hfits with
        | cons hc hfits =>
            exact ⟨_, _, _, ⟨_, hc, rfl, rfl, rfl⟩, ih.2 ⟨_, rfl, hfits, lastOf_cons .., rfl⟩⟩

theorem run_classes : ∀ {prev : Option Char} {s : List Char}
    {g : Groups} {k : Option Char → List Char → Groups → Option β},
    run isWord (.cat (piece.map .cls)) prev s g k
      = (matchPiece piece prev s).bind fun r => k r.1 r.2 g := by
  induction piece with
  | nil =>
      intro prev s g k
      rw [List.map_nil, Re.cat, run_eps]
      rfl
  | cons p piece ih =>
      intro prev s g k
      have hcat : run isWord (.cat ((p :: piece).map .cls)) prev s g k
          = run isWord (.seq (.cls p) (.cat (piece.map .cls))) prev s g k := by
        cases piece with
        | nil =>
            rw [run_seq]
            simp only [List.map_nil, Re.cat, run_eps]
            rfl
        | cons => rfl
      rw [hcat, run_seq]
      cases s with
      | nil =>
          rw [run]
          rfl
      | cons c s =>
          rw [run_cls_cons, matchPiece]
          split
          · exact ih
          · rfl

theorem matchPiece_eq_some : ∀ {prev : Option Char} {s : List Char}
    {q : Option Char} {s' : List Char}, matchPiece piece prev s = some (q, s') ↔
      ∃ t, s = t ++ s' ∧ Fits piece t ∧ q = lastOf prev t := by
  induction piece with
  | nil =>
      intro prev s q s'
      rw [matchPiece, Option.some.injEq, Prod.mk.injEq]
      constructor
      · rintro ⟨rfl, rfl⟩
        exact ⟨[], rfl, List.Forall₂.nil, rfl⟩
      · rintro ⟨t, rfl, hfits, rfl⟩
        cases hfits
        exact ⟨rfl, rfl⟩
  | cons p piece ih =>
      intro prev s q s'
      cases s with
      | nil =>
          refine iff_of_false (by simp [matchPiece]) ?_
          rintro ⟨t, hnil, hfits, -⟩
          cases hfits
          cases hnil
      | cons c s =>
          rw [matchPiece]
          constructor
          · intro h
            split at h
            next hc =>
              obtain ⟨t, rfl, hfits, rfl⟩ := ih.1 h
              exact ⟨c :: t, rfl, List.Forall₂.cons hc hfits, (lastOf_cons prev c t).symm⟩
            next => cases h
          · rintro ⟨t, heq, hfits, rfl⟩
            cases hfits with
            | cons hc hfits =>
                cases heq
                rw [if_pos hc]
                exact ih.2 ⟨_, rfl, hfits, lastOf_cons ..⟩

theorem firstPlace_sound : ∀ {s : List Char}
    {prev q : Option Char} {s' : List Char}, firstPlace p piece prev s = some (q, s') →
      ∃ t u, s = t ++ (u ++ s') ∧ (∀ c ∈ t, p c = true) ∧ Fits piece u ∧ q = lastOf prev (t ++ u)
  | [], prev, q, s', h => by
      rw [firstPlace] at h
      obtain ⟨u, hs, hfits, rfl⟩ := matchPiece_eq_some.1 h
      exact ⟨[], u, hs, fun c hc => absurd hc List.not_mem_nil, hfits, rfl⟩
  | c :: s, prev, q, s', h => by
      rw [firstPlace] at h
      rcases Option.or_eq_some_iff.1 h with h | ⟨-, h⟩
      · obtain ⟨u, hs, hfits, rfl⟩ := matchPiece_eq_some.1 h
        exact ⟨[], u, hs, fun c hc => absurd hc List.not_mem_nil, hfits, rfl⟩
      · split at h
        next hc =>
          obtain ⟨t, u, rfl, ht, hfits, rfl⟩ := firstPlace_sound h
          refine ⟨c :: t, u, rfl, ?_, hfits, (lastOf_cons prev c (t ++ u)).symm⟩
          exact List.forall_mem_cons.2 ⟨hc, ht⟩
        next => cases h

/-- Where a piece fits behind a run, its first place leaves as much of the
text, and what is left over belongs to the run or the piece. -/
theorem firstPlace_first {u rest : List Char}
    (hfits : Fits piece u) : ∀ {t : List Char} {prev : Option Char}, (∀ c ∈ t, p c = true) →
      ∃ q x, firstPlace p piece prev (t ++ (u ++ rest)) = some (q, x ++ rest) ∧ x <:+ t ++ u := by
  have hlength : ∀ {v : List Char}, Fits piece v → v.length = u.length := fun hv =>
    hv.length_eq.symm.trans hfits.length_eq
  intro t
  induction t with
  | nil =>
      intro prev _
      have hpiece : matchPiece piece prev (u ++ rest) = some (lastOf prev u, rest) :=
        matchPiece_eq_some.2 ⟨u, rfl, hfits, rfl⟩
      refine ⟨lastOf prev u, [], ?_, List.nil_suffix⟩
      rw [List.nil_append, List.nil_append]
      cases hs : u ++ rest with
      | nil => rw [firstPlace, ← hs, hpiece]
      | cons c s => rw [firstPlace, ← hs, hpiece, Option.some_or]
  | cons c t ih =>
      intro prev hrun
      obtain ⟨hc, ht⟩ := List.forall_mem_cons.1 hrun
      rw [List.cons_append, firstPlace]
      rcases hpiece : matchPiece piece prev (c :: (t ++ (u ++ rest))) with _ | ⟨q, s'⟩
      · obtain ⟨q, x, hplace, hx⟩ := @ih (some c) ht
        refine ⟨q, x, ?_, hx.trans (List.suffix_cons c _)⟩
        rw [Option.none_or, if_pos hc, hplace]
      · obtain ⟨v, hv, hvfits, rfl⟩ := matchPiece_eq_some.1 hpiece
        have hall : (c :: t ++ u) ++ rest = v ++ s' := by
          rw [← hv, List.cons_append, List.cons_append, List.append_assoc]
        have hle : v.length ≤ (c :: t ++ u).length := by
          rw [hlength hvfits, List.length_append]
          exact Nat.le_add_left _ _
        refine ⟨lastOf prev v, (c :: t ++ u).drop v.length, ?_, List.drop_suffix ..⟩
        rw [Option.some_or]
        have hdrop := congrArg (List.drop v.length) hall
        rw [List.drop_left, List.drop_append_of_le_length hle] at hdrop
        rw [← hdrop]

-- ===== what groups do not decide

theorem takes_groups {r : Re} : ∀ {prev : Option Char} {s : List Char} {g : Groups}
    {prev' : Option Char} {s' : List Char} {g' : Groups}, Takes isWord r prev s g prev' s' g' →
      ∀ h, ∃ h', Takes isWord r prev s h prev' s' h' := by
  induction r with
  | eps => exact fun hway h => ⟨h, hway.1, hway.2.1, rfl⟩
  | cls p =>
      intro prev s g prev' s' g' hway h
      obtain ⟨c, hc, hs, hprev, -⟩ := hway
      exact ⟨h, c, hc, hs, hprev, rfl⟩
  | seq a b iha ihb =>
      intro prev s g prev' s' g' hway h
      obtain ⟨q, t, g₁, ha, hb⟩ := hway
      obtain ⟨h₁, ha'⟩ := iha ha h
      obtain ⟨h', hb'⟩ := ihb hb h₁
      exact ⟨h', q, t, h₁, ha', hb'⟩
  | alt a b iha ihb =>
      intro prev s g prev' s' g' hway h
      rcases hway with hway | hway
      · obtain ⟨h', ha'⟩ := iha hway h
        exact ⟨h', .inl ha'⟩
      · obtain ⟨h', hb'⟩ := ihb hway h
        exact ⟨h', .inr hb'⟩
  | many lazy p =>
      intro prev s g prev' s' g' hway h
      obtain ⟨t, ht, hs, hprev, -⟩ := hway
      exact ⟨h, t, ht, hs, hprev, rfl⟩
  | star a ih =>
      intro prev s g prev' s' g' hway
      unfold Takes at hway
      induction hway with
      | done => exact fun h => ⟨h, .done⟩
      | round ha hlt _ ihrest =>
          intro h
          obtain ⟨h₁, ha'⟩ := ih ha h
          obtain ⟨h', hrest⟩ := ihrest h₁
          exact ⟨h', .round ha' hlt hrest⟩
  | firstAt p piece => exact fun hway h => ⟨h, hway.1, rfl⟩
  | group i a ih =>
      intro prev s g prev' s' g' hway h
      obtain ⟨g₁, ha, -⟩ := hway
      obtain ⟨h', ha'⟩ := ih ha h
      exact ⟨_, h', ha', rfl⟩
  | textStart => exact fun hway h => ⟨h, hway.1, hway.2.1, hway.2.2.1, rfl⟩
  | textEnd => exact fun hway h => ⟨h, hway.1, hway.2.1, hway.2.2.1, rfl⟩
  | wordEdge => exact fun hway h => ⟨h, hway.1, hway.2.1, hway.2.2.1, rfl⟩

theorem run_isSome_iff {r : Re} {prev : Option Char} {s : List Char} {g : Groups} :
    (run isWord r prev s g k).isSome = true ↔
      ∃ prev' s' g', Takes isWord r prev s g prev' s' g' ∧ (k prev' s' g').isSome = true := by
  constructor
  · intro h
    obtain ⟨b, hb⟩ := Option.isSome_iff_exists.1 h
    obtain ⟨prev', s', g', hway, hk⟩ := run_eq_some r hb
    exact ⟨prev', s', g', hway, Option.isSome_iff_exists.2 ⟨b, hk⟩⟩
  · intro h
    obtain ⟨prev', s', g', hway, hk⟩ := h
    exact run_isSome r hway hk

/-- Continuations that go on well from the same places are found behind a
pattern alike. -/
theorem run_isSome_congr {r : Re} {k' : Option Char → List Char → Groups → Option β}
    (hk : ∀ prev s g, (k prev s g).isSome = (k' prev s g).isSome) {prev : Option Char}
    {s : List Char} {g : Groups} :
    (run isWord r prev s g k).isSome = (run isWord r prev s g k').isSome := by
  rw [Bool.eq_iff_iff, run_isSome_iff, run_isSome_iff]
  simp only [hk]

/-- Whether a continuation goes on well is not decided by the groups. -/
def Blind (k : Option Char → List Char → Groups → Option β) : Prop :=
  ∀ prev s g h, (k prev s g).isSome = (k prev s h).isSome

theorem Blind.run (hk : Blind k) (r : Re) :
    Blind fun prev s g => Regex.run isWord r prev s g k := by
  have hone : ∀ {prev : Option Char} {s : List Char} (g h : Groups),
      (Regex.run isWord r prev s g k).isSome = true →
        (Regex.run isWord r prev s h k).isSome = true := by
    intro prev s g h hfound
    obtain ⟨prev', s', g', hway, hrest⟩ := run_isSome_iff.1 hfound
    obtain ⟨h', hway'⟩ := takes_groups hway h
    exact run_isSome_iff.2 ⟨prev', s', h', hway', hk prev' s' g' h' ▸ hrest⟩
  exact fun prev s g h => Bool.eq_iff_iff.2 ⟨hone g h, hone h g⟩

-- ===== committed parts

/-- `(?=r)`: the first way through `r` is kept with its groups, and none of
the text is taken. -/
def lookahead (isWord : Char → Bool) (r : Re) (prev : Option Char) (s : List Char) (g : Groups)
    (k : Groups → Option β) : Option β :=
  (run isWord r prev s g fun _ _ g' => some g').bind k

/-- `(?P=i)`: the text of a group, once more. -/
def backref (i : Nat) (prev : Option Char) (s : List Char) (g : Groups)
    (k : Option Char → List Char → Groups → Option β) : Option β :=
  if g.get i <+: s then k (lastOf prev (g.get i)) (s.drop (g.get i).length) g else none

/-- A lazy run in front of a piece gets to the first place of the piece. -/
theorem runMany_firstPlace {g : Groups}
    {f : List Char → Groups → β} : ∀ {s : List Char} {prev : Option Char},
    (runMany true p prev s fun prev s =>
        run isWord (.cat (piece.map .cls)) prev s g fun _ rest g => some (f rest g))
      = (firstPlace p piece prev s).map fun r => f r.2 g
  | [], prev => by
      rw [runMany, firstPlace, run_classes]
      cases matchPiece piece prev [] with
      | none => rfl
      | some r => rfl
  | c :: s, prev => by
      rw [runMany, firstPlace, run_classes]
      split
      next hc =>
        rw [if_pos rfl, runMany_firstPlace]
        cases matchPiece piece prev (c :: s) with
        | none => simp
        | some r => rfl
      next hc =>
        cases matchPiece piece prev (c :: s) with
        | none => rfl
        | some r => rfl

/-- `(?=(?P<i>[p]*?piece))(?P=i)` is the first place of the piece. -/
theorem committed_eq {i : Nat} {prev : Option Char} {s : List Char} {g : Groups}
    {k : Option Char → List Char → Groups → Option β} :
    (lookahead isWord (.group i (.seq (.many true p) (.cat (piece.map .cls)))) prev s g fun g' =>
        backref i prev s g' k)
      = (firstPlace p piece prev s).bind fun r =>
          k r.1 r.2 ((i, s.take (s.length - r.2.length)) :: g) := by
  unfold lookahead
  rw [run_group, run_seq, run_many, runMany_firstPlace, Option.bind_map]
  rcases hplace : firstPlace p piece prev s with _ | ⟨q, s'⟩
  · rfl
  · obtain ⟨t, u, hs, -, -, hq⟩ := firstPlace_sound hplace
    have htaken : s = (t ++ u) ++ s' := by rw [hs, List.append_assoc]
    have hgroup : s.take (s.length - s'.length) = t ++ u := by
      rw [htaken, List.length_append, Nat.add_sub_cancel_right, List.take_left]
    show backref i prev s ((i, s.take (s.length - s'.length)) :: g) k
      = k q s' ((i, s.take (s.length - s'.length)) :: g)
    rw [hgroup]
    unfold backref Groups.get
    rw [List.lookup_cons, beq_self_eq_true, Option.getD_some,
      if_pos (htaken ▸ List.prefix_append (t ++ u) s'), htaken, List.drop_left, hq]

end Lib.Regex
