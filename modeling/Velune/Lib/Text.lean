/-
Text as a list of characters, with the operations of a scripting
language's string type that programs lean on: character classes,
anchored patterns of the shape `^[head][body]{0,n}$`, white-space
trimming, splitting into lines, joining with a separator.

Everything is a total function on `List Char`, so concrete texts are
evaluated by `decide` and lengths are reasoned about by `omega` after
the `length_*` lemmas.
-/
import Mathlib.Data.List.Basic
import Mathlib.Data.List.TakeWhile

namespace Lib.Text

-- ===== classes

def isLower (c : Char) : Bool := 'a' ≤ c && c ≤ 'z'

def isUpper (c : Char) : Bool := 'A' ≤ c && c ≤ 'Z'

def isDigit (c : Char) : Bool := '0' ≤ c && c ≤ '9'

/-- `[A-Za-z0-9]`. -/
def isAlnum (c : Char) : Bool := isLower c || isUpper c || isDigit c

/-- `[0-9a-f]`. -/
def isHex (c : Char) : Bool := isDigit c || ('a' ≤ c && c ≤ 'f')

def isSpace (c : Char) : Bool :=
  let n := c.toNat
  (9 ≤ n && n ≤ 13) || (28 ≤ n && n ≤ 32) || n == 0x85 || n == 0xA0 || n == 0x1680
    || (0x2000 ≤ n && n ≤ 0x200A) || n == 0x2028 || n == 0x2029 || n == 0x202F
    || n == 0x205F || n == 0x3000

def isLineBreak (c : Char) : Bool :=
  let n := c.toNat
  (10 ≤ n && n ≤ 13) || (28 ≤ n && n ≤ 30) || n == 0x85 || n == 0x2028 || n == 0x2029

theorem all_mem {p : Char → Prop} [DecidablePred p] {s : List Char}
    (h : s.all (fun c => decide (p c)) = true) : ∀ c ∈ s, p c :=
  fun c hc => of_decide_eq_true (List.all_eq_true.mp h c hc)

-- ===== patterns

/-- `^[head][body]{0,n}$`. -/
def headed (head body : Char → Bool) (n : Nat) : List Char → Bool
  | [] => false
  | c :: cs => head c && cs.all body && decide (cs.length ≤ n)

/-- `^[body]{lo,hi}$`. -/
def ranged (body : Char → Bool) (lo hi : Nat) (s : List Char) : Bool :=
  s.all body && decide (lo ≤ s.length) && decide (s.length ≤ hi)

theorem headed_cons {head body : Char → Bool} {n : Nat} {c : Char} {cs : List Char} :
    headed head body n (c :: cs) = true
      ↔ head c = true ∧ (∀ d ∈ cs, body d = true) ∧ cs.length ≤ n := by
  simp [headed, and_assoc]

theorem headed_length {head body : Char → Bool} {n : Nat} {s : List Char}
    (h : headed head body n s = true) : s.length ≤ n + 1 := by
  cases s with
  | nil => simp
  | cons c cs =>
      obtain ⟨-, -, hlen⟩ := headed_cons.1 h
      simpa using hlen

-- ===== trimming

/-- The text between the characters of `p` at its two ends. -/
def trim {α : Type*} (p : α → Bool) (s : List α) : List α :=
  ((s.dropWhile p).reverse.dropWhile p).reverse

def strip : List Char → List Char := trim isSpace

variable {α : Type*}

theorem mem_of_mem_trim {p : α → Bool} {s : List α} {c : α} (h : c ∈ trim p s) : c ∈ s := by
  have hrev := (List.dropWhile_sublist p).subset (List.mem_reverse.1 h)
  exact (List.dropWhile_sublist p).subset (List.mem_reverse.1 hrev)

theorem mem_dropWhile {p : α → Bool} {s : List α} {c : α} (h : c ∈ s)
    (hc : p c = false) : c ∈ s.dropWhile p := by
  rw [← List.takeWhile_append_dropWhile (p := p) (l := s)] at h
  rcases List.mem_append.1 h with h | h
  · rw [List.mem_takeWhile_imp h] at hc
    cases hc
  · exact h

theorem mem_trim {p : α → Bool} {s : List α} {c : α} (h : c ∈ s) (hc : p c = false) :
    c ∈ trim p s :=
  List.mem_reverse.2 (mem_dropWhile (List.mem_reverse.2 (mem_dropWhile h hc)) hc)

theorem length_trim_le (p : α → Bool) (s : List α) : (trim p s).length ≤ s.length := by
  have h₁ := (List.dropWhile_sublist p (l := s)).length_le
  have h₂ := (List.dropWhile_sublist p (l := (s.dropWhile p).reverse)).length_le
  rw [List.length_reverse] at h₂
  rw [trim, List.length_reverse]
  exact Nat.le_trans h₂ h₁

theorem trim_append (p : α → Bool) (s : List α) :
    ∃ trail, s.dropWhile p = trim p s ++ trail ∧ ∀ c ∈ trail, p c = true := by
  refine ⟨((s.dropWhile p).reverse.takeWhile p).reverse, ?_, fun c hc => ?_⟩
  · rw [trim, ← List.reverse_append, List.takeWhile_append_dropWhile, List.reverse_reverse]
  · exact List.mem_takeWhile_imp (List.mem_reverse.1 hc)

theorem exists_trim (p : α → Bool) (s : List α) :
    ∃ lead trail, s = lead ++ trim p s ++ trail ∧ (∀ c ∈ lead, p c = true) ∧
      ∀ c ∈ trail, p c = true := by
  obtain ⟨trail, htrail, hall⟩ := trim_append p s
  refine ⟨s.takeWhile p, trail, ?_, fun c hc => List.mem_takeWhile_imp hc, hall⟩
  rw [List.append_assoc, ← htrail, List.takeWhile_append_dropWhile]

/-- What is left after trimming neither begins nor ends with what is to
be taken. -/
theorem trim_ends (p : α → Bool) (s : List α) :
    (∀ c ∈ (trim p s).head?, p c = false) ∧ ∀ c ∈ (trim p s).getLast?, p c = false := by
  have hhead : ∀ t : List α, ∀ c ∈ (t.dropWhile p).head?, p c = false := by
    intro t c hc
    have hnot := List.head?_dropWhile_not p t
    rw [Option.mem_def.mp hc] at hnot
    simpa using hnot
  refine ⟨fun c hc => ?_, fun c hc => ?_⟩
  · obtain ⟨trail, htrail, -⟩ := trim_append p s
    refine hhead s c ?_
    rw [htrail]
    cases htrim : trim p s with
    | nil => rw [htrim] at hc; cases hc
    | cons d t => rw [htrim] at hc; exact hc
  · rw [trim, List.getLast?_reverse] at hc
    exact hhead _ c hc

theorem trim_append_eq {p : α → Bool} {x m z : List α} (hm : m ≠ [])
    (hhead : ∀ c ∈ m.head?, p c = false) (hlast : ∀ c ∈ m.getLast?, p c = false)
    (hz : ∀ c ∈ z, p c = true) : trim p (x ++ m ++ z) = x.dropWhile p ++ m := by
  have hfront : (x ++ m ++ z).dropWhile p = x.dropWhile p ++ m ++ z := by
    obtain ⟨c, m, rfl⟩ := List.exists_cons_of_ne_nil hm
    have hc : p c = false := hhead c rfl
    induction x with
    | nil => simp [hc]
    | cons d x ih =>
        by_cases hd : p d = true
        · simpa [hd] using ih
        · simp [hd]
  obtain ⟨m, c, rfl⟩ := (List.eq_nil_or_concat' m).resolve_left hm
  have hc : p c = false := hlast c (by simp)
  have hrev : ∀ y : List α, (z.reverse ++ y).dropWhile p = y.dropWhile p := by
    intro y
    have hz' : ∀ d ∈ z.reverse, p d = true := fun d hd => hz d (List.mem_reverse.1 hd)
    rw [List.dropWhile_append_of_pos hz']
  rw [trim, hfront, List.reverse_append, hrev]
  simp [hc]

theorem trim_eq_self {p : α → Bool} {s : List α} (h : ∀ c ∈ s, p c = false) : trim p s = s := by
  have hdrop : ∀ t : List α, (∀ c ∈ t, p c = false) → t.dropWhile p = t := by
    intro t ht
    cases t with
    | nil => rfl
    | cons c t => rw [List.dropWhile_cons_of_neg (by simp [ht c])]
  rw [trim, hdrop s h, hdrop _ fun c hc => h c (List.mem_reverse.1 hc), List.reverse_reverse]

-- ===== lines

/-- The lines of a text, without their breaks; `\r\n` is one break. -/
def splitlines : List Char → List (List Char)
  | [] => []
  | '\r' :: '\n' :: rest => [] :: splitlines rest
  | c :: rest =>
      if isLineBreak c then [] :: splitlines rest
      else
        match splitlines rest with
        | [] => [[c]]
        | line :: lines => (c :: line) :: lines

def splitlinesKeep : List Char → List (List Char)
  | [] => []
  | '\r' :: '\n' :: rest => ['\r', '\n'] :: splitlinesKeep rest
  | c :: rest =>
      if isLineBreak c then [c] :: splitlinesKeep rest
      else
        match splitlinesKeep rest with
        | [] => [[c]]
        | line :: lines => (c :: line) :: lines

theorem flatten_splitlinesKeep : ∀ s : List Char, (splitlinesKeep s).flatten = s
  | [] => rfl
  | c :: rest => by
      have ih := flatten_splitlinesKeep rest
      unfold splitlinesKeep
      split
      next => cases ‹c :: rest = []›
      next tail hcons =>
        cases hcons
        have ih' := flatten_splitlinesKeep tail
        rw [List.flatten_cons, ih']
        rfl
      next hcons =>
        cases hcons
        split
        next =>
          rw [List.flatten_cons, ih]
          rfl
        next =>
          split
          next hnil =>
            rw [hnil] at ih
            rw [← ih]
            rfl
          next line lines hlines =>
            rw [hlines] at ih
            rw [← ih]
            rfl

/-- What a file's text is when every line break that begins with `\r` is read
as `\n`: Python's universal newlines. -/
def universalNewlines : List Char → List Char
  | [] => []
  | '\r' :: '\n' :: rest => '\n' :: universalNewlines rest
  | c :: rest => (if c = '\r' then '\n' else c) :: universalNewlines rest

theorem return_not_mem_universalNewlines : ∀ s : List Char, '\r' ∉ universalNewlines s
  | [] => List.not_mem_nil
  | c :: rest => by
      have ih := return_not_mem_universalNewlines rest
      unfold universalNewlines
      split
      next => cases ‹c :: rest = []›
      next tail hcons =>
        cases hcons
        have ih' := return_not_mem_universalNewlines tail
        intro hmem
        rcases List.mem_cons.1 hmem with heq | hmem
        · exact absurd heq (by decide)
        · exact ih' hmem
      next hcons =>
        cases hcons
        intro hmem
        rcases List.mem_cons.1 hmem with heq | hmem
        · split at heq
          · exact absurd heq (by decide)
          · exact absurd heq.symm ‹_›
        · exact ih hmem

theorem universalNewlines_eq_self : ∀ {s : List Char}, '\r' ∉ s → universalNewlines s = s
  | [], _ => rfl
  | c :: rest, h => by
      have hc : c ≠ '\r' := fun heq => h (heq ▸ List.mem_cons_self)
      have ih := universalNewlines_eq_self fun hmem => h (List.mem_cons_of_mem c hmem)
      unfold universalNewlines
      split
      next => cases ‹c :: rest = []›
      next tail hcons =>
        cases hcons
        exact absurd rfl hc
      next hcons =>
        cases hcons
        rw [if_neg hc, ih]

-- ===== searching

/-- Where `pat` occurs in a text, in increasing order. -/
def occurrences (pat : List Char) : List Char → List Nat
  | [] => if pat = [] then [0] else []
  | c :: cs =>
      let later := (occurrences pat cs).map (· + 1)
      if pat <+: c :: cs then 0 :: later else later

/-- `s.find(pat)`, `none` for -1. -/
def find (pat s : List Char) : Option Nat := (occurrences pat s).head?

theorem prefix_of_mem_occurrences {pat : List Char} : ∀ {s : List Char} {i : Nat},
    i ∈ occurrences pat s → pat <+: s.drop i
  | [], i, h => by
      rw [occurrences] at h
      split at h
      next hnil =>
        rw [hnil]
        exact List.nil_prefix
      next => cases h
  | c :: s, i, h => by
      have hlater : i ∈ (occurrences pat s).map (· + 1) → pat <+: (c :: s).drop i := by
        intro hi
        obtain ⟨j, hj, rfl⟩ := List.mem_map.1 hi
        exact @prefix_of_mem_occurrences pat s j hj
      rw [occurrences] at h
      split at h
      next hhere =>
        rcases List.mem_cons.1 h with rfl | h
        · exact hhere
        · exact hlater h
      next => exact hlater h

theorem find_eq_some {pat s : List Char} {i : Nat} (h : find pat s = some i) :
    s.take i ++ (pat ++ s.drop (i + pat.length)) = s := by
  obtain ⟨rest, hrest⟩ := prefix_of_mem_occurrences (List.mem_of_mem_head? h)
  have hback : s.drop (i + pat.length) = rest := by
    rw [← List.drop_drop, ← hrest, List.drop_left]
  rw [hback, hrest, List.take_append_drop]

/-- The text with `len` characters from `i` on replaced. -/
def splice (s : List Char) (i len : Nat) (new : List Char) : List Char :=
  s.take i ++ new ++ s.drop (i + len)

-- ===== joining

/-- `sep.join(parts)`. -/
def join (sep : List Char) (parts : List (List Char)) : List Char :=
  (parts.intersperse sep).flatten

end Lib.Text
