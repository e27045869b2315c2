/-
Strict decoders of bytes: machines that read one byte after the other, give
what characters it completes, and refuse the first byte that fits nothing.

A machine that accepts bytes accepts what they begin with
(`accepts_take`), whatever comes after; and where no byte completes more
than one character, a text is no longer than its bytes (`decode_length`).

The machines are UTF-8, UTF-16 of either byte order and Windows-1252. That of
UTF-8 reads back what is encoded (`utf8_decode_encode`).
-/
import Velune.Lib.Utf8

namespace Lib.Codec

structure Machine (σ : Type) where
  start : σ
  step : σ → UInt8 → Option (List Char × σ)
  /-- no character is left half read -/
  done : σ → Bool

variable {σ : Type}

def Machine.run (m : Machine σ) : σ → List UInt8 → Option (List Char × σ)
  | s, [] => some ([], s)
  | s, b :: bs => (m.step s b).bind fun first =>
      (m.run first.2 bs).map fun rest => (first.1 ++ rest.1, rest.2)

def Machine.decode (m : Machine σ) (bytes : List UInt8) : Option (List Char) :=
  (m.run m.start bytes).bind fun r => if m.done r.2 then some r.1 else none

def Machine.accepts (m : Machine σ) (bytes : List UInt8) : Bool := (m.run m.start bytes).isSome

def Machine.Single (m : Machine σ) : Prop :=
  ∀ s b r, m.step s b = some r → r.1.length ≤ 1

-- ===== the machines

inductive Utf8
  | start
  /-- one byte is due, from `lo` to `hi`, and `left` after it -/
  | more (left value lo hi : Nat)

def utf8First (n : Nat) : Option (List Char × Utf8) :=
  if n < 0x80 then some ([Char.ofNat n], .start)
  else if 0xC2 ≤ n ∧ n ≤ 0xDF then some ([], .more 0 (n - 0xC0) 0x80 0xBF)
  else if n = 0xE0 then some ([], .more 1 0 0xA0 0xBF)
  else if n = 0xED then some ([], .more 1 0xD 0x80 0x9F)
  else if 0xE1 ≤ n ∧ n ≤ 0xEF then some ([], .more 1 (n - 0xE0) 0x80 0xBF)
  else if n = 0xF0 then some ([], .more 2 0 0x90 0xBF)
  else if 0xF1 ≤ n ∧ n ≤ 0xF3 then some ([], .more 2 (n - 0xF0) 0x80 0xBF)
  else if n = 0xF4 then some ([], .more 2 4 0x80 0x8F)
  else none

def utf8Step : Utf8 → UInt8 → Option (List Char × Utf8)
  | .start, b => utf8First b.toNat
  | .more left value lo hi, b =>
      if lo ≤ b.toNat ∧ b.toNat ≤ hi then
        let value := value * 64 + (b.toNat - 0x80)
        match left with
        | 0 => some ([Char.ofNat value], .start)
        | left + 1 => some ([], .more left value 0x80 0xBF)
      else none

def utf8 : Machine Utf8 where
  start := .start
  step := utf8Step
  done
    | .start => true
    | .more .. => false

inductive Utf16
  | start
  | half (first : UInt8)
  /-- the first half of a pair of surrogates has been read -/
  | pair (high : Nat)
  | pairHalf (high : Nat) (first : UInt8)

def unit (big : Bool) (first second : UInt8) : Nat :=
  if big then first.toNat * 256 + second.toNat else second.toNat * 256 + first.toNat

def utf16Step (big : Bool) : Utf16 → UInt8 → Option (List Char × Utf16)
  | .start, b => some ([], .half b)
  | .half a, b =>
      let u := unit big a b
      if 0xD800 ≤ u ∧ u ≤ 0xDBFF then some ([], .pair u)
      else if 0xDC00 ≤ u ∧ u ≤ 0xDFFF then none
      else some ([Char.ofNat u], .start)
  | .pair high, b => some ([], .pairHalf high b)
  | .pairHalf high a, b =>
      let u := unit big a b
      if 0xDC00 ≤ u ∧ u ≤ 0xDFFF then
        some ([Char.ofNat (0x10000 + (high - 0xD800) * 0x400 + (u - 0xDC00))], .start)
      else none

def utf16 (big : Bool) : Machine Utf16 where
  start := .start
  step := utf16Step big
  done
    | .start => true
    | .half _ => false
    | .pair _ => false
    | .pairHalf _ _ => false

def cp1252High : List (Option Nat) :=
  [some 0x20AC, none, some 0x201A, some 0x0192, some 0x201E, some 0x2026, some 0x2020, some 0x2021,
   some 0x02C6, some 0x2030, some 0x0160, some 0x2039, some 0x0152, none, some 0x017D, none,
   none, some 0x2018, some 0x2019, some 0x201C, some 0x201D, some 0x2022, some 0x2013, some 0x2014,
   some 0x02DC, some 0x2122, some 0x0161, some 0x203A, some 0x0153, none, some 0x017E, some 0x0178]

def cp1252Char (b : UInt8) : Option Char :=
  if 0x80 ≤ b.toNat ∧ b.toNat < 0xA0 then
    ((cp1252High[b.toNat - 0x80]?).getD none).map Char.ofNat
  else some (Char.ofNat b.toNat)

def cp1252 : Machine Unit where
  start := ()
  step _ b := (cp1252Char b).map fun c => ([c], ())
  done _ := true

-- ===== prefixes

variable {m : Machine σ}

theorem Machine.run_append (s : σ) : ∀ x y : List UInt8,
    m.run s (x ++ y) = (m.run s x).bind fun first =>
      (m.run first.2 y).map fun rest => (first.1 ++ rest.1, rest.2)
  | [], y => by simp [Machine.run]
  | b :: x, y => by
      cases hstep : m.step s b with
      | none => simp [Machine.run, hstep]
      | some first =>
          have ih := Machine.run_append first.2 x y
          cases hrun : m.run first.2 x with
          | none => simp [Machine.run, hstep, ih, hrun]
          | some second =>
              cases hrest : m.run second.2 y with
              | none => simp [Machine.run, hstep, ih, hrun, hrest]
              | some rest => simp [Machine.run, hstep, ih, hrun, hrest]

theorem Machine.accepts_take {bytes : List UInt8} (n : Nat)
    (h : (m.decode bytes).isSome) : m.accepts (bytes.take n) = true := by
  unfold Machine.decode at h
  rw [← List.take_append_drop n bytes, Machine.run_append] at h
  unfold Machine.accepts
  cases hrun : m.run m.start (bytes.take n) with
  | none =>
      rw [hrun] at h
      cases h
  | some r => rfl

/-- Where all of it is some text and nothing is ever left half read, so is
every beginning. -/
theorem Machine.decode_take (hdone : ∀ s, m.done s = true) {bytes : List UInt8} (n : Nat)
    (h : (m.decode bytes).isSome) : (m.decode (bytes.take n)).isSome := by
  have haccepts := Machine.accepts_take n h
  unfold Machine.accepts at haccepts
  obtain ⟨r, hr⟩ := Option.isSome_iff_exists.1 haccepts
  unfold Machine.decode
  simp [hr, hdone]

-- ===== lengths

theorem Machine.run_length (hsingle : m.Single) : ∀ {bytes : List UInt8} {s : σ}
    {r : List Char × σ}, m.run s bytes = some r → r.1.length ≤ bytes.length
  | [], s, r, h => by
      cases h
      exact Nat.le_refl 0
  | b :: bs, s, r, h => by
      obtain ⟨first, hstep, hrest⟩ := Option.bind_eq_some_iff.1 h
      obtain ⟨rest, hrun, hr⟩ := Option.map_eq_some_iff.1 hrest
      have hone := hsingle s b first hstep
      have ih := Machine.run_length hsingle hrun
      subst hr
      simp only [List.length_append, List.length_cons]
      omega

theorem Machine.decode_length (hsingle : m.Single) {bytes : List UInt8} {text : List Char}
    (h : m.decode bytes = some text) : text.length ≤ bytes.length := by
  obtain ⟨r, hrun, hr⟩ := Option.bind_eq_some_iff.1 h
  split at hr
  next =>
    cases hr
    exact Machine.run_length hsingle hrun
  next => cases hr

theorem utf8_single : utf8.Single := by
  intro s b r h
  cases s with
  | start =>
      simp only [utf8, utf8Step, utf8First] at h
      grind
  | more left value lo hi =>
      simp only [utf8, utf8Step] at h
      cases left with
      | zero => grind
      | succ left => grind

theorem utf16_single (big : Bool) : (utf16 big).Single := by
  intro s b r h
  cases s with
  | start | pair =>
      cases h
      exact Nat.zero_le 1
  | half | pairHalf =>
      simp only [utf16, utf16Step] at h
      grind

theorem cp1252_single : cp1252.Single := by
  intro s b r h
  obtain ⟨c, -, hr⟩ := Option.map_eq_some_iff.1 h
  subst hr
  exact Nat.le_refl 1

-- ===== round trip

theorem byte_toNat {n : Nat} (h : n < 256) : (UInt8.ofNat n).toNat = n :=
  UInt8.toNat_ofNat_of_lt' h

theorem utf8_last {value lo hi n : Nat} (hn : n < 256) (hlo : lo ≤ n) (hhi : n ≤ hi)
    (rest : List UInt8) : utf8.run (.more 0 value lo hi) (UInt8.ofNat n :: rest)
      = (utf8.run .start rest).map fun r => (Char.ofNat (value * 64 + (n - 0x80)) :: r.1, r.2) := by
  have hstep : utf8.step (.more 0 value lo hi) (UInt8.ofNat n)
      = some ([Char.ofNat (value * 64 + (n - 0x80))], .start) := by
    show (if lo ≤ _ ∧ _ ≤ hi then _ else none) = _
    rw [byte_toNat hn, if_pos ⟨hlo, hhi⟩]
  rw [Machine.run, hstep]
  rfl

theorem utf8_next {left value lo hi n : Nat} (hn : n < 256) (hlo : lo ≤ n) (hhi : n ≤ hi)
    (rest : List UInt8) : utf8.run (.more (left + 1) value lo hi) (UInt8.ofNat n :: rest)
      = utf8.run (.more left (value * 64 + (n - 0x80)) 0x80 0xBF) rest := by
  have hstep : utf8.step (.more (left + 1) value lo hi) (UInt8.ofNat n)
      = some ([], .more left (value * 64 + (n - 0x80)) 0x80 0xBF) := by
    show (if lo ≤ _ ∧ _ ≤ hi then _ else none) = _
    rw [byte_toNat hn, if_pos ⟨hlo, hhi⟩]
  rw [Machine.run, hstep]
  simp

theorem utf8_head {n : Nat} (hn : n < 256) {left value lo hi : Nat}
    (hfirst : utf8First n = some ([], .more left value lo hi)) (rest : List UInt8) :
    utf8.run .start (UInt8.ofNat n :: rest) = utf8.run (.more left value lo hi) rest := by
  have hstep : utf8.step .start (UInt8.ofNat n) = some ([], .more left value lo hi) := by
    show utf8First _ = _
    rw [byte_toNat hn, hfirst]
  rw [Machine.run, hstep]
  simp

theorem utf8First_two {q : Nat} (hlo : 2 ≤ q) (hhi : q < 0x20) :
    utf8First (q + 0xC0) = some ([], .more 0 q 0x80 0xBF) := by
  unfold utf8First
  rw [if_neg (by omega), if_pos (by omega), Nat.add_sub_cancel]

theorem utf8First_three {q m : Nat} (hq : q < 0x10) (hm : m < 0x40)
    (hlow : q = 0 → 0x20 ≤ m) (hsurrogate : q = 0xD → m < 0x20) :
    ∃ lo hi, utf8First (q + 0xE0) = some ([], .more 1 q lo hi) ∧ lo ≤ m + 0x80 ∧ m + 0x80 ≤ hi := by
  unfold utf8First
  rw [if_neg (by omega), if_neg (by omega)]
  by_cases hzero : q = 0
  · have := hlow hzero
    subst hzero
    exact ⟨0xA0, 0xBF, if_pos rfl, by omega, by omega⟩
  · rw [if_neg (by omega)]
    by_cases hd : q = 0xD
    · have := hsurrogate hd
      subst hd
      exact ⟨0x80, 0x9F, if_pos rfl, by omega, by omega⟩
    · rw [if_neg (by omega), if_pos (by omega), Nat.add_sub_cancel]
      exact ⟨0x80, 0xBF, rfl, by omega, by omega⟩

theorem utf8First_four {q m : Nat} (hq : q ≤ 4) (hm : m < 0x40) (hlow : q = 0 → 0x10 ≤ m)
    (hhigh : q = 4 → m < 0x10) :
    ∃ lo hi, utf8First (q + 0xF0) = some ([], .more 2 q lo hi) ∧ lo ≤ m + 0x80 ∧ m + 0x80 ≤ hi := by
  unfold utf8First
  rw [if_neg (by omega), if_neg (by omega), if_neg (by omega), if_neg (by omega), if_neg (by omega)]
  by_cases hzero : q = 0
  · have := hlow hzero
    subst hzero
    exact ⟨0x90, 0xBF, if_pos rfl, by omega, by omega⟩
  · rw [if_neg (by omega)]
    by_cases hfour : q = 4
    · have := hhigh hfour
      subst hfour
      rw [if_neg (by omega)]
      exact ⟨0x80, 0x8F, if_pos rfl, by omega, by omega⟩
    · rw [if_pos (by omega), Nat.add_sub_cancel]
      exact ⟨0x80, 0xBF, rfl, by omega, by omega⟩

theorem utf8_run_char (c : Char) (rest : List UInt8) :
    utf8.run .start (String.utf8EncodeChar c ++ rest)
      = (utf8.run .start rest).map fun r => (c :: r.1, r.2) := by
  have hvalid : c.toNat < 0xD800 ∨ (0xDFFF < c.toNat ∧ c.toNat < 0x110000) := c.valid
  have hchar := Char.ofNat_toNat c
  unfold String.utf8EncodeChar
  have hval : c.val.toNat = c.toNat := rfl
  rw [hval]
  generalize hv : c.toNat = v at hvalid hchar ⊢
  simp only
  split
  next hone =>
    have hstep : utf8.step .start (UInt8.ofNat v) = some ([c], .start) := by
      show utf8First _ = _
      rw [byte_toNat (by omega)]
      unfold utf8First
      rw [if_pos (by omega), hchar]
    rw [List.cons_append, Machine.run, hstep]
    rfl
  next hone =>
    split
    next htwo =>
      have hq : v / 64 % 0x20 = v / 64 := Nat.mod_eq_of_lt (by omega)
      rw [hq, List.cons_append, List.cons_append, List.nil_append,
        utf8_head (by omega) (utf8First_two (by omega) (by omega)),
        utf8_last (by omega) (by omega) (by omega), Nat.add_sub_cancel, Nat.div_add_mod', hchar]
    next htwo =>
      split
      next hthree =>
        have hq : v / 4096 % 0x10 = v / 4096 := Nat.mod_eq_of_lt (by omega)
        obtain ⟨lo, hi, hfirst, hlo, hhi⟩ := @utf8First_three (v / 4096) (v / 64 % 0x40) (by omega)
          (by omega) (by omega) (by omega)
        have hvalue : (v / 4096 * 64 + v / 64 % 0x40) * 64 + v % 0x40 = v := by omega
        rw [hq]
        simp only [List.cons_append, List.nil_append]
        rw [utf8_head (by omega) hfirst, utf8_next (by omega) hlo hhi,
          utf8_last (by omega) (by omega) (by omega), Nat.add_sub_cancel, Nat.add_sub_cancel, hvalue,
          hchar]
      next hthree =>
        have hq : v / 262144 % 0x08 = v / 262144 := Nat.mod_eq_of_lt (by omega)
        obtain ⟨lo, hi, hfirst, hlo, hhi⟩ := @utf8First_four (v / 262144) (v / 4096 % 0x40) (by omega)
          (by omega) (by omega) (by omega)
        have hvalue : ((v / 262144 * 64 + v / 4096 % 0x40) * 64 + v / 64 % 0x40) * 64 + v % 0x40 = v := by
          omega
        rw [hq]
        simp only [List.cons_append, List.nil_append]
        rw [utf8_head (by omega) hfirst, utf8_next (by omega) hlo hhi,
          utf8_next (by omega) (by omega) (by omega), utf8_last (by omega) (by omega) (by omega),
          Nat.add_sub_cancel, Nat.add_sub_cancel, Nat.add_sub_cancel, hvalue, hchar]

theorem utf8_decode_encode (s : List Char) : utf8.decode (Utf8.encode s) = some s := by
  have hrun : utf8.run .start (Utf8.encode s) = some (s, .start) := by
    induction s with
    | nil => rfl
    | cons c s ih =>
        rw [Utf8.encode_cons, utf8_run_char, ih]
        rfl
  unfold Machine.decode
  rw [show utf8.start = .start from rfl, hrun]
  rfl

end Lib.Codec
