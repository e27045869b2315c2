/-
What the encoder writes is read back (`loads_write`).

Each part of a text is shown to be read with anything behind it: a unit of a
string, a string, a number that is not followed by more of it, and from these
a value, by recursion on it. Containers carry no more than that their parts
were read; the fuel of their loops is the length of the text.
-/
import Mathlib.Tactic.IntervalCases
import Velune.Lib.JsonText

namespace Lib.JsonText

-- ===== strings

def IsUnit : CodePoint → Prop
  | .char c => c.toNat < 0x10000
  | _ => True

theorem hexValue_digitChar : ∀ {d : Nat}, d < 16 → hexValue (Nat.digitChar d) = some d := by decide

theorem readHex4_hex4 {n : Nat} (h : n < 0x10000) (rest : List Char) :
    readHex4 (hex4 n ++ rest) = some (n, rest) := by
  have hdigit : ∀ m, hexValue (Nat.digitChar (m % 16)) = some (m % 16) := fun m =>
    hexValue_digitChar (Nat.mod_lt m (by decide))
  have hsum : 4096 * (n / 4096 % 16) + 256 * (n / 256 % 16) + 16 * (n / 16 % 16) + n % 16 = n := by
    omega
  show (do
    let a ← hexValue (Nat.digitChar (n / 4096 % 16))
    let b ← hexValue (Nat.digitChar (n / 256 % 16))
    let c ← hexValue (Nat.digitChar (n / 16 % 16))
    let d ← hexValue (Nat.digitChar (n % 16))
    pure (4096 * a + 256 * b + 16 * c + d, rest)) = _
  rw [hdigit, hdigit, hdigit, hdigit]
  simp only [Option.bind_eq_bind, Option.bind_some, hsum]
  rfl

theorem readUnit_unicodeEscape {n : Nat} (h : n < 0x10000) (rest : List Char) :
    readUnit (unicodeEscape n ++ rest) = some (ofCode n, rest) := by
  show (readHex4 (hex4 n ++ rest)).map _ = _
  rw [readHex4_hex4 h]
  rfl

theorem unescape_shortEscape {c e : Char} (h : shortEscape c = some e) :
    unescape e = some c ∧ e ≠ 'u' := by
  unfold shortEscape at h
  split at h
  next hc => cases h; rw [hc]; decide
  split at h
  next hc => cases h; rw [hc]; decide
  split at h
  next hc => cases h; rw [hc]; decide
  split at h
  next hc => cases h; rw [hc]; decide
  split at h
  next hc => cases h; rw [hc]; decide
  split at h
  next hc => cases h; rw [hc]; decide
  split at h
  next hc => cases h; rw [hc]; decide
  cases h

theorem ofCode_toNat (c : Char) : ofCode c.toNat = .char c := by
  have hvalid : c.toNat < 0xD800 ∨ 0xDFFF < c.toNat ∧ c.toNat < 0x110000 := c.valid
  unfold ofCode
  rw [if_neg (by omega), if_neg (by omega), Char.ofNat_toNat]

theorem ofCode_high (n : Fin 1024) : ofCode (0xD800 + n) = .high n := by
  have hn := n.isLt
  unfold ofCode
  rw [if_pos (by omega), Nat.add_sub_cancel_left]
  exact congrArg CodePoint.high (Fin.ext (Nat.mod_eq_of_lt hn))

theorem ofCode_low (n : Fin 1024) : ofCode (0xDC00 + n) = .low n := by
  have hn := n.isLt
  unfold ofCode
  rw [if_neg (by omega), if_pos (by omega), Nat.add_sub_cancel_left]
  exact congrArg CodePoint.low (Fin.ext (Nat.mod_eq_of_lt hn))

/-- A unit is read back, and does not look like the end of the string. -/
theorem readUnit_writeUnit {p : CodePoint} (h : IsUnit p) (rest : List Char) :
    readUnit (writeUnit p ++ rest) = some (p, rest) ∧ ∃ c t, writeUnit p = c :: t ∧ c ≠ '"' := by
  cases p with
  | high n =>
      refine ⟨?_, '\\', _, rfl, by decide⟩
      have hn := n.isLt
      rw [writeUnit, readUnit_unicodeEscape (by omega), ofCode_high]
  | low n =>
      refine ⟨?_, '\\', _, rfl, by decide⟩
      have hn := n.isLt
      rw [writeUnit, readUnit_unicodeEscape (by omega), ofCode_low]
  | char c =>
      cases hshort : shortEscape c with
      | some e =>
          obtain ⟨hback, hu⟩ := unescape_shortEscape hshort
          have htext : writeUnit (.char c) = ['\\', e] := by rw [writeUnit, hshort]
          refine ⟨?_, '\\', [e], htext, by decide⟩
          rw [htext]
          show (if e = 'u' then _ else (unescape e).map fun d => (CodePoint.char d, rest)) = _
          rw [if_neg hu, hback]
          rfl
      | none =>
          have hquote : c ≠ '"' := fun heq => by
            rw [heq] at hshort
            cases hshort
          have hslash : c ≠ '\\' := fun heq => by
            rw [heq] at hshort
            cases hshort
          by_cases hprint : 32 ≤ c.toNat ∧ c.toNat ≤ 126
          · have htext : writeUnit (.char c) = [c] := by
              rw [writeUnit, hshort]
              exact if_pos hprint
            refine ⟨?_, c, [], htext, hquote⟩
            rw [htext]
            show readUnit (c :: rest) = _
            unfold readUnit
            dsimp only
            rw [if_neg hslash, if_neg (by omega)]
          · have htext : writeUnit (.char c) = unicodeEscape c.toNat := by
              rw [writeUnit, hshort]
              exact if_neg hprint
            refine ⟨?_, '\\', _, htext, by decide⟩
            rw [htext, readUnit_unicodeEscape h, ofCode_toNat]

theorem readUnits_flatMap : ∀ {us : List CodePoint} {fuel : Nat}, (∀ u ∈ us, IsUnit u) →
    us.length < fuel → ∀ rest,
      readUnits fuel (us.flatMap writeUnit ++ '"' :: rest) = some (us, rest)
  | us, 0, _, hfuel, _ => absurd hfuel (Nat.not_lt_zero _)
  | [], fuel + 1, _, _, rest => by
      rw [List.flatMap_nil, List.nil_append, readUnits]
      exact if_pos rfl
  | u :: us, fuel + 1, h, hfuel, rest => by
      obtain ⟨hu, hus⟩ := List.forall_mem_cons.1 h
      obtain ⟨hread, c, t, htext, hc⟩ := readUnit_writeUnit hu (us.flatMap writeUnit ++ '"' :: rest)
      have hhead : (writeUnit u ++ (us.flatMap writeUnit ++ '"' :: rest)).head? ≠ some '"' := by
        rw [htext]
        exact fun heq => hc (Option.some.inj heq)
      rw [List.flatMap_cons, List.append_assoc, readUnits, if_neg hhead, hread]
      simp only [Option.bind_eq_bind, Option.bind_some,
        readUnits_flatMap hus (Nat.lt_of_succ_lt_succ hfuel) rest]
      rfl

def Unpaired : Str → Prop
  | .high _ :: .low _ :: _ => False
  | _ :: rest => Unpaired rest
  | [] => True

theorem isUnit_units (p : CodePoint) : ∀ u ∈ units p, IsUnit u := by
  cases p with
  | high n => simp [units, IsUnit]
  | low n => simp [units, IsUnit]
  | char c =>
      by_cases hc : c.toNat < 0x10000
      · rw [units, if_pos hc]
        intro u hu
        rw [List.mem_singleton.1 hu]
        exact hc
      · rw [units, if_neg hc]
        simp [IsUnit]

theorem joinPairs_char (c : Char) (us : Str) :
    joinPairs (units (.char c) ++ us) = .char c :: joinPairs us := by
  by_cases hc : c.toNat < 0x10000
  · rw [units, if_pos hc]
    rfl
  · rw [units, if_neg hc]
    have hvalid : c.toNat < 0xD800 ∨ 0xDFFF < c.toNat ∧ c.toNat < 0x110000 := c.valid
    show CodePoint.char (Char.ofNat (0x10000 + 1024 * ((c.toNat - 0x10000) / 1024 % 1024)
      + (c.toNat - 0x10000) % 1024 % 1024)) :: joinPairs us = _
    have hcode : 0x10000 + 1024 * ((c.toNat - 0x10000) / 1024 % 1024)
        + (c.toNat - 0x10000) % 1024 % 1024 = c.toNat := by omega
    rw [hcode, Char.ofNat_toNat]

theorem joinPairs_units : ∀ {s : Str}, Unpaired s → joinPairs (s.flatMap units) = s
  | [], _ => rfl
  | .char c :: s, h => by
      have h : Unpaired s := h
      rw [List.flatMap_cons, joinPairs_char, joinPairs_units h]
  | .low n :: s, h => by
      have h : Unpaired s := h
      rw [List.flatMap_cons]
      show CodePoint.low n :: joinPairs (s.flatMap units) = _
      rw [joinPairs_units h]
  | .high n :: s, h => by
      have hsame : joinPairs ((CodePoint.high n :: s).flatMap units)
          = .high n :: joinPairs (s.flatMap units) := by
        cases s with
        | nil => rfl
        | cons q s =>
            cases q with
            | low m => exact absurd h id
            | high m => rfl
            | char c =>
                rw [List.flatMap_cons, List.flatMap_cons]
                by_cases hc : c.toNat < 0x10000
                · have hone : units (.char c) = [.char c] := if_pos hc
                  rw [hone]
                  rfl
                · have htwo : units (.char c) = [.high _, .low _] := if_neg hc
                  rw [htwo]
                  rfl
      have hrest : Unpaired s := by
        cases s with
        | nil => trivial
        | cons q s =>
            cases q with
            | low m => exact absurd h id
            | high m => exact h
            | char c => exact h
      rw [hsame, joinPairs_units hrest]

theorem units_joinPairs : ∀ {us : Str}, (∀ u ∈ us, IsUnit u) → (joinPairs us).flatMap units = us
  | [], _ => rfl
  | .char c :: us, h => by
      obtain ⟨hc, hus⟩ := List.forall_mem_cons.1 h
      have hone : units (.char c) = [.char c] := if_pos hc
      show units (.char c) ++ (joinPairs us).flatMap units = _
      rw [hone, units_joinPairs hus]
      rfl
  | .low n :: us, h => by
      obtain ⟨-, hus⟩ := List.forall_mem_cons.1 h
      show .low n :: (joinPairs us).flatMap units = _
      rw [units_joinPairs hus]
  | .high n :: us, h => by
      obtain ⟨-, hus⟩ := List.forall_mem_cons.1 h
      cases us with
      | nil => rfl
      | cons q us =>
          cases q with
          | low m =>
              obtain ⟨-, hus⟩ := List.forall_mem_cons.1 hus
              have hn := n.isLt
              have hm := m.isLt
              have hvalid : (0x10000 + 1024 * n.val + m.val).isValidChar := by
                right
                omega
              have hnat : (Char.ofNat (0x10000 + 1024 * n + m)).toNat = 0x10000 + 1024 * n + m := by
                unfold Char.ofNat
                rw [dif_pos hvalid]
                rfl
              have htwo : units (.char (Char.ofNat (0x10000 + 1024 * n + m)))
                  = [.high n, .low m] := by
                have hfront : Fin.ofNat 1024 ((0x10000 + 1024 * n + m - 0x10000) / 1024) = n := by
                  refine Fin.ext ?_
                  show (0x10000 + 1024 * n.val + m.val - 0x10000) / 1024 % 1024 = n.val
                  omega
                have hback : Fin.ofNat 1024 ((0x10000 + 1024 * n + m - 0x10000) % 1024) = m := by
                  refine Fin.ext ?_
                  show (0x10000 + 1024 * n.val + m.val - 0x10000) % 1024 % 1024 = m.val
                  omega
                refine (if_neg (by omega)).trans ?_
                rw [hnat, hfront, hback]
              show units _ ++ (joinPairs us).flatMap units = _
              rw [htwo, units_joinPairs hus]
              rfl
          | high m =>
              show .high n :: (joinPairs (.high m :: us)).flatMap units = _
              rw [units_joinPairs hus]
          | char c =>
              show .high n :: (joinPairs (.char c :: us)).flatMap units = _
              rw [units_joinPairs hus]

theorem unpaired_joinPairs : ∀ us : Str, Unpaired (joinPairs us)
  | [] => trivial
  | .char c :: us => unpaired_joinPairs us
  | .low n :: us => unpaired_joinPairs us
  | .high n :: us => by
      cases us with
      | nil => trivial
      | cons q us =>
          cases q with
          | low m => exact unpaired_joinPairs us
          | high m =>
              have ih := unpaired_joinPairs (.high m :: us)
              cases us with
              | nil => trivial
              | cons r us =>
                  cases r with
                  | low k => exact ih
                  | high k => exact ih
                  | char c => exact ih
          | char c => exact unpaired_joinPairs (.char c :: us)

def joined (s : Str) : Str := joinPairs (s.flatMap units)

theorem unpaired_joined (s : Str) : Unpaired (joined s) := unpaired_joinPairs _

theorem writeString_joined (s : Str) : writeString (joined s) = writeString s := by
  have hunits : ∀ u ∈ s.flatMap units, IsUnit u := by
    intro u hu
    obtain ⟨p, -, hu⟩ := List.mem_flatMap.1 hu
    exact isUnit_units p u hu
  unfold writeString joined
  rw [units_joinPairs hunits]

theorem joined_eq_self_iff {s : Str} : joined s = s ↔ Unpaired s :=
  ⟨fun h => h ▸ unpaired_joined s, joinPairs_units⟩

theorem length_le_flatMap_writeUnit : ∀ {us : List CodePoint}, (∀ u ∈ us, IsUnit u) →
    us.length ≤ (us.flatMap writeUnit).length
  | [], _ => Nat.le_refl 0
  | u :: us, h => by
      obtain ⟨hu, hus⟩ := List.forall_mem_cons.1 h
      obtain ⟨-, c, t, htext, -⟩ := readUnit_writeUnit hu []
      have ih := length_le_flatMap_writeUnit hus
      rw [List.flatMap_cons, htext]
      simp only [List.length_cons, List.length_append]
      omega

theorem readString_writeString {s : Str} (h : Unpaired s) (rest : List Char) :
    readString ((s.flatMap units).flatMap writeUnit ++ '"' :: rest) = some (s, rest) := by
  have hunits : ∀ u ∈ s.flatMap units, IsUnit u := by
    intro u hu
    obtain ⟨p, -, hu⟩ := List.mem_flatMap.1 hu
    exact isUnit_units p u hu
  have hfuel := length_le_flatMap_writeUnit hunits
  unfold readString
  rw [readUnits_flatMap hunits (by rw [List.length_append, List.length_cons]; omega) rest,
    Option.map_some, joinPairs_units h]

theorem writeString_eq (s : Str) (rest : List Char) :
    writeString s ++ rest = '"' :: ((s.flatMap units).flatMap writeUnit ++ '"' :: rest) := by
  rw [writeString, List.cons_append, List.append_assoc]
  rfl

-- ===== numbers

def Ends (rest : List Char) : Prop :=
  ∀ c ∈ rest.head?, Text.isDigit c = false ∧ c ≠ '.' ∧ c ≠ 'e' ∧ c ≠ 'E'

theorem isDigit_of_isDigit {c : Char} (h : c.isDigit = true) : Text.isDigit c = true := by
  rw [Char.isDigit, Bool.and_eq_true, decide_eq_true_eq, decide_eq_true_eq] at h
  rw [Text.isDigit, Bool.and_eq_true, decide_eq_true_eq, decide_eq_true_eq]
  exact h

theorem head_toDigits : ∀ {n : Nat}, 0 < n → (Nat.toDigits 10 n).head? ≠ some '0' := by
  intro n
  induction n using Nat.strongRecOn with
  | ind n ih =>
      intro hn
      by_cases hsmall : n < 10
      · rw [Nat.toDigits_of_lt_base hsmall]
        have hdigit : ∀ d < 10, 0 < d → [Nat.digitChar d].head? ≠ some '0' := by decide
        exact hdigit n hsmall hn
      · have hlarge : 10 ≤ n := Nat.le_of_not_lt hsmall
        rw [Nat.toDigits_of_base_le (by decide) hlarge,
          List.head?_append_of_ne_nil _ Nat.toDigits_ne_nil]
        exact ih (n / 10) (Nat.div_lt_self hn (by decide)) (Nat.div_pos hlarge (by decide))

theorem takeWhile_ends {p : Char → Bool} {ds rest : List Char} (hds : ∀ c ∈ ds, p c = true)
    (hrest : ∀ c ∈ rest.head?, p c = false) :
    (ds ++ rest).takeWhile p = ds ∧ (ds ++ rest).dropWhile p = rest := by
  rw [List.takeWhile_append_of_pos hds, List.dropWhile_append_of_pos hds]
  cases rest with
  | nil => exact ⟨List.append_nil ds, rfl⟩
  | cons c rest =>
      have hc := hrest c rfl
      rw [List.takeWhile_cons_of_neg (by rw [hc]; exact Bool.false_ne_true),
        List.dropWhile_cons_of_neg (by rw [hc]; exact Bool.false_ne_true), List.append_nil]
      exact ⟨rfl, rfl⟩

theorem natural_toDigits (n : Nat) {rest : List Char} (h : Ends rest) :
    natural (Nat.toDigits 10 n ++ rest) = some (Nat.toDigits 10 n, rest) := by
  have hdigits : ∀ c ∈ Nat.toDigits 10 n, Text.isDigit c = true := fun c hc =>
    isDigit_of_isDigit (Nat.isDigit_of_mem_toDigits (by decide) (by decide) hc)
  obtain ⟨htake, hdrop⟩ := takeWhile_ends hdigits fun c hc => (h c hc).1
  by_cases hzero : n = 0
  · rw [hzero, Nat.toDigits_zero]
    rfl
  · have hhead : (Nat.toDigits 10 n ++ rest).head? ≠ some '0' := by
      rw [List.head?_append_of_ne_nil _ Nat.toDigits_ne_nil]
      exact head_toDigits (Nat.pos_of_ne_zero hzero)
    unfold natural
    rw [if_neg hhead, htake, hdrop]
    exact if_neg Nat.toDigits_ne_nil

theorem fraction_ends {rest : List Char} (h : Ends rest) : fraction rest = ([], rest) := by
  unfold fraction
  split
  next tail => exact absurd rfl (h '.' rfl).2.1
  next => rfl

theorem exponent_ends {rest : List Char} (h : Ends rest) : exponent rest = ([], rest) := by
  unfold exponent
  split
  next e tail =>
    obtain ⟨-, -, he, hE⟩ := h e rfl
    rw [if_neg (by rintro (heq | heq) <;> contradiction)]
  next => rfl

theorem readNumber_writeInt {n : Int} (hn : (Nat.toDigits 10 n.natAbs).length ≤ MAX_STR_DIGITS)
    {rest : List Char} (h : Ends rest) :
    readNumber (writeInt n ++ rest) = .ok (.int n, rest) := by
  have hminus : (Nat.toDigits 10 n.natAbs ++ rest).head? ≠ some '-' := by
    rw [List.head?_append_of_ne_nil _ Nat.toDigits_ne_nil]
    intro heq
    have hdigit := Nat.isDigit_of_mem_toDigits (by decide) (by decide) (List.mem_of_mem_head? heq)
    exact absurd hdigit (by decide)
  have hread : ∀ negative : Bool, readDigits negative (Nat.toDigits 10 n.natAbs ++ rest)
      = .ok (.int (if negative then -(n.natAbs : Int) else n.natAbs), rest) := by
    intro negative
    unfold readDigits
    rw [natural_toDigits _ h]
    dsimp only
    rw [fraction_ends h]
    dsimp only
    rw [exponent_ends h]
    dsimp only
    rw [if_pos ⟨rfl, rfl⟩, if_neg (Nat.not_lt.2 hn), Nat.ofDigitChars_ten_toDigits]
  unfold readNumber writeInt
  by_cases hneg : n < 0
  · have hsign : -(n.natAbs : Int) = n := by omega
    rw [if_pos hneg, List.cons_append, List.head?_cons, if_pos rfl, List.drop_one, List.tail_cons,
      hread true, if_pos rfl, hsign]
  · have hsign : (n.natAbs : Int) = n := by omega
    rw [if_neg hneg, if_neg hminus, hread false, if_neg Bool.false_ne_true, hsign]

-- ===== values

mutual

def Value.nesting : Value → Nat
  | .list items => nestingItems items + 1
  | .dict entries => nestingEntries entries + 1
  | _ => 0

def nestingItems : List Value → Nat
  | [] => 0
  | x :: xs => max x.nesting (nestingItems xs)

def nestingEntries : List (Str × Value) → Nat
  | [] => 0
  | (_, v) :: es => max v.nesting (nestingEntries es)

end

mutual

/-- What is read back as it was: no number with a fraction or with too many
digits, no half of a pair in front of the other, and no key twice. -/
def Value.Readable : Value → Prop
  | .int n => (Nat.toDigits 10 n.natAbs).length ≤ MAX_STR_DIGITS
  | .float _ => False
  | .str s => Unpaired s
  | .list items => ReadableItems items
  | .dict entries => (entries.map (·.1)).Nodup ∧ ReadableEntries entries
  | _ => True

def ReadableItems : List Value → Prop
  | [] => True
  | x :: xs => x.Readable ∧ ReadableItems xs

def ReadableEntries : List (Str × Value) → Prop
  | [] => True
  | (k, v) :: es => Unpaired k ∧ v.Readable ∧ ReadableEntries es

end

theorem skip_white {gap : List Char} (h : ∀ c ∈ gap, isWhite c = true) {c : Char}
    (hc : isWhite c = false) (rest : List Char) : skip (gap ++ c :: rest) = c :: rest := by
  unfold skip
  rw [List.dropWhile_append_of_pos h,
    List.dropWhile_cons_of_neg (by rw [hc]; exact Bool.false_ne_true)]

theorem skip_self {c : Char} (hc : isWhite c = false) (rest : List Char) :
    skip (c :: rest) = c :: rest :=
  @skip_white [] (fun _ h => absurd h List.not_mem_nil) c hc rest

theorem ends_white {gap : List Char} (h : ∀ c ∈ gap, isWhite c = true) {rest : List Char}
    (hrest : Ends rest) : Ends (gap ++ rest) := by
  cases gap with
  | nil => exact hrest
  | cons c gap =>
      intro d hd
      obtain rfl : c = d := Option.some.inj hd
      have hc := h c List.mem_cons_self
      unfold isWhite at hc
      simp only [Bool.or_eq_true, beq_iff_eq] at hc
      rcases hc with ((rfl | rfl) | rfl) | rfl
      · decide
      · decide
      · decide
      · decide

def Begins (s : List Char) : Prop :=
  ∃ c t, s = c :: t ∧ isWhite c = false ∧ c ≠ ']' ∧ c ≠ '}' ∧ c ≠ Char.ofNat 0xFEFF

theorem isDigit_head {n : Nat} : ∃ c t, Nat.toDigits 10 n = c :: t ∧ c.isDigit = true := by
  cases h : Nat.toDigits 10 n with
  | nil => exact absurd h Nat.toDigits_ne_nil
  | cons c t =>
      have hmem : c ∈ Nat.toDigits 10 n := by
        rw [h]
        exact List.mem_cons_self
      exact ⟨c, t, rfl, Nat.isDigit_of_mem_toDigits (by decide) (by decide) hmem⟩

theorem digit_cases {c : Char} (h : c.isDigit = true) : c ∈ "0123456789".toList := by
  rw [Char.isDigit, Bool.and_eq_true, decide_eq_true_eq, decide_eq_true_eq] at h
  have hlow : 48 ≤ c.toNat := h.1
  have hhigh : c.toNat ≤ 57 := h.2
  have hofNat := Char.ofNat_toNat c
  have hall : ∀ n, 48 ≤ n → n ≤ 57 → Char.ofNat n ∈ "0123456789".toList := by
    intro n h₁ h₂
    interval_cases n <;> decide
  rw [← hofNat]
  exact hall c.toNat hlow hhigh

section Write

variable {style : Style}

theorem begins_write {v : Value} (h : v.Readable) (depth : Nat) (rest : List Char) :
    Begins (write style depth v ++ rest) := by
  cases v with
  | null => exact ⟨'n', _, rfl, by decide⟩
  | bool b =>
      cases b with
      | true => exact ⟨'t', _, rfl, by decide⟩
      | false => exact ⟨'f', _, rfl, by decide⟩
  | int n =>
      obtain ⟨c, t, htext, hc⟩ := @isDigit_head n.natAbs
      have hdigit : ∀ c ∈ "0123456789".toList,
          isWhite c = false ∧ c ≠ ']' ∧ c ≠ '}' ∧ c ≠ Char.ofNat 0xFEFF := by simp; decide
      unfold write writeInt
      split
      next => exact ⟨'-', _, rfl, by decide⟩
      next =>
        rw [htext]
        exact ⟨c, _, rfl, hdigit c (digit_cases hc)⟩
  | float literal => exact absurd h id
  | str s => exact ⟨'"', _, rfl, by decide⟩
  | list items =>
      cases items with
      | nil => exact ⟨'[', _, rfl, by decide⟩
      | cons x xs => exact ⟨'[', _, rfl, by decide⟩
  | dict entries =>
      cases entries with
      | nil => exact ⟨'\x7b', _, rfl, by decide⟩
      | cons e es => exact ⟨'\x7b', _, rfl, by decide⟩

theorem readPlain_int {n : Int} (hn : (Nat.toDigits 10 n.natAbs).length ≤ MAX_STR_DIGITS)
    {rest : List Char} (h : Ends rest) :
    readPlain (writeInt n ++ rest) = .ok (.int n, rest) := by
  obtain ⟨c, t, htext, hc⟩ := @isDigit_head n.natAbs
  have hcase := digit_cases hc
  have hplain : ∀ c ∈ "0123456789".toList, c ≠ 'n' ∧ c ≠ 't' ∧ c ≠ 'f' ∧ c ≠ 'N' ∧ c ≠ 'I' ∧
      c ≠ '-' := by simp
  obtain ⟨hn', ht, hf, hN, hI, hminus⟩ := hplain c hcase
  have hstart : ∀ {pat : List Char} {d e : Char}, pat.head? = some d →
      (writeInt n ++ rest).head? = some e → d ≠ e → ¬pat <+: writeInt n ++ rest := by
    intro pat d e hpat htext hde hpre
    obtain ⟨tail, htail⟩ := hpre
    cases pat with
    | nil => cases hpat
    | cons d' pat =>
        rw [← htail] at htext
        exact hde (Option.some.inj (hpat.symm.trans htext))
  have hread := readNumber_writeInt hn h
  unfold readPlain
  by_cases hneg : n < 0
  · have hhead : (writeInt n ++ rest).head? = some '-' := by
      rw [writeInt, if_pos hneg]
      rfl
    have hinfinity : ¬"-Infinity".toList <+: writeInt n ++ rest := by
      rw [writeInt, if_pos hneg, htext]
      intro hpre
      have hsecond := (List.cons_prefix_cons.1 (List.cons_prefix_cons.1 hpre).2).1
      exact hI hsecond.symm
    rw [if_neg (hstart rfl hhead (by decide)), if_neg (hstart rfl hhead (by decide)),
      if_neg (hstart rfl hhead (by decide)), if_neg (hstart rfl hhead (by decide)),
      if_neg (hstart rfl hhead (by decide)), if_neg hinfinity, hread]
  · have hhead : (writeInt n ++ rest).head? = some c := by
      rw [writeInt, if_neg hneg, htext]
      rfl
    rw [if_neg (hstart rfl hhead hn'.symm), if_neg (hstart rfl hhead ht.symm),
      if_neg (hstart rfl hhead hf.symm), if_neg (hstart rfl hhead hN.symm),
      if_neg (hstart rfl hhead hI.symm), if_neg (hstart rfl hhead hminus.symm), hread]

theorem scanOnce_plain {n : Nat} {s : List Char}
    (h : ∀ c ∈ s.head?, c ≠ '"' ∧ c ≠ '[' ∧ c ≠ '\x7b') : scanOnce n s = readPlain s := by
  unfold scanOnce
  split
  next => exact absurd rfl (h _ rfl).1
  next => exact absurd rfl (h _ rfl).2.1
  next => exact absurd rfl (h _ rfl).2.2
  next => rfl

theorem ends_cons {c : Char} (h : Text.isDigit c = false ∧ c ≠ '.' ∧ c ≠ 'e' ∧ c ≠ 'E')
    (rest : List Char) : Ends (c :: rest) := by
  intro d hd
  obtain rfl : c = d := Option.some.inj hd
  exact h

theorem asDict_nodup {entries : List (Str × Value)} (h : (entries.map (·.1)).Nodup) :
    asDict entries = entries := by
  have hfold : ∀ (es done : List (Str × Value)), ((done ++ es).map (·.1)).Nodup →
      es.foldl (fun (d : Assoc Str Value) e => d.set e.1 e.2) done = done ++ es := by
    intro es
    induction es with
    | nil => exact fun done _ => (List.append_nil done).symm
    | cons e es ih =>
        intro done hnodup
        have hnew : Assoc.get? done e.1 = none := by
          rw [List.map_append, List.map_cons] at hnodup
          by_contra hsome
          have hmem : e.1 ∈ Assoc.keys done :=
            (Assoc.mem_keys_iff done e.1).2 (Option.ne_none_iff_exists'.1 hsome)
          exact (List.nodup_append.1 hnodup).2.2 _ hmem _ List.mem_cons_self rfl
        rw [List.foldl_cons, Assoc.set_new hnew, ih]
        · rw [List.append_assoc]
          rfl
        · rw [List.append_assoc]
          exact hnodup
  exact hfold entries [] h

variable (hgap : ∀ depth, ∀ c ∈ style.gap depth, isWhite c = true)
  (hcolon : ∀ c ∈ style.colon, isWhite c = true)

include hcolon in
theorem readEntry_write {m depth : Nat} {k : Str} {v : Value} (hk : Unpaired k) (hv : v.Readable)
    (hread : ∀ rest, Ends rest → scanOnce m (write style depth v ++ rest) = .ok (v, rest))
    {rest : List Char} (hrest : Ends rest) :
    readEntry (scanOnce m)
        (writeString k ++ (':' :: (style.colon ++ (write style depth v ++ rest))))
      = .ok ((k, v), rest) := by
  obtain ⟨c, t, htext, hc, -⟩ := @begins_write style v hv depth rest
  have hskip : skip (style.colon ++ (write style depth v ++ rest)) = write style depth v ++ rest := by
    rw [htext]
    exact skip_white hcolon hc t
  rw [writeString_eq]
  unfold readEntry
  simp only [readString_writeString hk]
  show readAfterKey (scanOnce m) k (':' :: _) = _
  unfold readAfterKey
  rw [skip_self (by decide)]
  show (scanOnce m (skip _)).map _ = _
  rw [hskip, hread rest hrest]
  rfl

theorem length_writeItems (depth : Nat) : ∀ xs : List Value,
    xs.length ≤ (writeItems style depth xs).length
  | [] => Nat.le_refl 0
  | x :: xs => by
      have ih := length_writeItems depth xs
      rw [writeItems]
      simp only [List.length_cons, List.length_append]
      omega

theorem length_writeEntries (depth : Nat) : ∀ es : List (Str × Value),
    es.length ≤ (writeEntries style depth es).length
  | [] => Nat.le_refl 0
  | (k, v) :: es => by
      have ih := length_writeEntries depth es
      rw [writeEntries]
      simp only [List.length_cons, List.length_append]
      omega

theorem readArray_begins {value : List Char → Except LoadError (Value × List Char)}
    {s t : List Char} (hskip : skip s = t) (h : Begins t) :
    readArray value s = (readItems value t.length t).map fun r => (.list r.1, r.2) := by
  obtain ⟨c, t', rfl, -, hbracket, -⟩ := h
  unfold readArray
  rw [hskip]
  split
  next heq => exact absurd (List.cons.inj heq).1 hbracket
  next => rfl

theorem readObject_quote {value : List Char → Except LoadError (Value × List Char)}
    {s t : List Char} (hskip : skip s = '"' :: t) :
    readObject value s
      = (readEntries value ('"' :: t).length ('"' :: t)).map fun r => (.dict (asDict r.1), r.2) := by
  unfold readObject
  rw [hskip]
  rfl

theorem ends_items (depth : Nat) (xs : List Value) {gap : List Char}
    (h : ∀ c ∈ gap, isWhite c = true) (rest : List Char) :
    Ends (writeItems style depth xs ++ (gap ++ ']' :: rest)) := by
  cases xs with
  | nil => exact ends_white h (ends_cons (by decide) rest)
  | cons x xs => exact ends_cons (by decide) _

theorem ends_entries (depth : Nat) (es : List (Str × Value)) {gap : List Char}
    (h : ∀ c ∈ gap, isWhite c = true) (rest : List Char) :
    Ends (writeEntries style depth es ++ (gap ++ '\x7d' :: rest)) := by
  cases es with
  | nil => exact ends_white h (ends_cons (by decide) rest)
  | cons e es => exact ends_cons (by decide) _

include hgap

theorem readItems_write {m depth : Nat} : ∀ (xs : List Value) {x : Value} {fuel : Nat}
    {gap rest : List Char},
    (∀ rest, Ends rest → scanOnce m (write style depth x ++ rest) = .ok (x, rest)) →
    (∀ y ∈ xs, y.Readable ∧
      ∀ rest, Ends rest → scanOnce m (write style depth y ++ rest) = .ok (y, rest)) →
    (∀ c ∈ gap, isWhite c = true) → xs.length < fuel →
      readItems (scanOnce m) fuel
          (write style depth x ++ (writeItems style depth xs ++ (gap ++ ']' :: rest)))
        = .ok (x :: xs, rest)
  | _, _, 0, _, _, _, _, _, hfuel => absurd hfuel (Nat.not_lt_zero _)
  | [], x, fuel + 1, gap, rest, hx, _, hwhite, _ => by
      rw [readItems, hx _ (ends_items depth [] hwhite rest)]
      dsimp only [writeItems, List.nil_append]
      rw [skip_white hwhite (by decide)]
      rfl
  | y :: ys, x, fuel + 1, gap, rest, hx, hys, hwhite, hfuel => by
      obtain ⟨⟨hy, hread⟩, hrest⟩ := List.forall_mem_cons.1 hys
      obtain ⟨c, t, htext, hc, -⟩ := @begins_write style y hy depth
        (writeItems style depth ys ++ (gap ++ ']' :: rest))
      have hmore : writeItems style depth (y :: ys) ++ (gap ++ ']' :: rest)
          = ',' :: (style.gap depth ++ (write style depth y
              ++ (writeItems style depth ys ++ (gap ++ ']' :: rest)))) := by
        rw [writeItems]
        simp only [List.cons_append, List.append_assoc]
      have hskip : skip (style.gap depth ++ (write style depth y
          ++ (writeItems style depth ys ++ (gap ++ ']' :: rest))))
          = write style depth y ++ (writeItems style depth ys ++ (gap ++ ']' :: rest)) := by
        rw [htext]
        exact skip_white (hgap depth) hc t
      rw [readItems, hx _ (ends_items depth (y :: ys) hwhite rest), hmore]
      dsimp only
      rw [skip_self (by decide)]
      show (readItems (scanOnce m) fuel (skip _)).map _ = _
      rw [hskip, readItems_write ys hread hrest hwhite (Nat.lt_of_succ_lt_succ hfuel)]
      rfl

include hcolon

theorem readEntries_write {m depth : Nat} : ∀ (es : List (Str × Value)) {k : Str} {v : Value}
    {fuel : Nat} {gap rest : List Char}, Unpaired k → v.Readable →
    (∀ rest, Ends rest → scanOnce m (write style depth v ++ rest) = .ok (v, rest)) →
    (∀ e ∈ es, Unpaired e.1 ∧ e.2.Readable ∧
      ∀ rest, Ends rest → scanOnce m (write style depth e.2 ++ rest) = .ok (e.2, rest)) →
    (∀ c ∈ gap, isWhite c = true) → es.length < fuel →
      readEntries (scanOnce m) fuel
          (writeString k ++ (':' :: (style.colon ++ (write style depth v
            ++ (writeEntries style depth es ++ (gap ++ '\x7d' :: rest))))))
        = .ok ((k, v) :: es, rest)
  | _, _, _, 0, _, _, _, _, _, _, _, hfuel => absurd hfuel (Nat.not_lt_zero _)
  | [], k, v, fuel + 1, gap, rest, hk, hv, hread, _, hwhite, _ => by
      rw [readEntries, readEntry_write hcolon hk hv hread (ends_entries depth [] hwhite rest)]
      dsimp only [writeEntries, List.nil_append]
      rw [skip_white hwhite (by decide)]
      rfl
  | (k', v') :: es, k, v, fuel + 1, gap, rest, hk, hv, hread, hes, hwhite, hfuel => by
      obtain ⟨⟨hk', hv', hread'⟩, hrest⟩ := List.forall_mem_cons.1 hes
      have hmore : writeEntries style depth ((k', v') :: es) ++ (gap ++ '\x7d' :: rest)
          = ',' :: (style.gap depth ++ (writeString k' ++ (':' :: (style.colon
              ++ (write style depth v' ++ (writeEntries style depth es
                ++ (gap ++ '\x7d' :: rest))))))) := by
        rw [writeEntries]
        simp only [List.cons_append, List.append_assoc]
      have hskip : ∀ t, skip (style.gap depth ++ (writeString k' ++ t)) = writeString k' ++ t := by
        intro t
        rw [writeString_eq]
        exact skip_white (hgap depth) (by decide) _
      rw [readEntries, readEntry_write hcolon hk hv hread
        (ends_entries depth ((k', v') :: es) hwhite rest), hmore]
      dsimp only
      rw [skip_self (by decide)]
      show (readEntries (scanOnce m) fuel (skip _)).map _ = _
      rw [hskip, readEntries_write es hk' hv' hread' hrest hwhite (Nat.lt_of_succ_lt_succ hfuel)]
      rfl

mutual

/-- A value is read back, whatever stands behind it that does not go on with
a number. -/
theorem scanOnce_write : ∀ (v : Value) {n depth : Nat} {rest : List Char}, v.Readable →
    v.nesting ≤ n → Ends rest → scanOnce n (write style depth v ++ rest) = .ok (v, rest)
  | .null, n, depth, rest, _, _, _ => by
      rw [scanOnce_plain (by simp [write])]
      rfl
  | .bool true, n, depth, rest, _, _, _ => by
      rw [scanOnce_plain (by simp [write])]
      rfl
  | .bool false, n, depth, rest, _, _, _ => by
      rw [scanOnce_plain (by simp [write])]
      rfl
  | .int k, n, depth, rest, h, _, hrest => by
      have hplain : ∀ c ∈ (writeInt k ++ rest).head?, c ≠ '"' ∧ c ≠ '[' ∧ c ≠ '\x7b' := by
        obtain ⟨c, t, htext, hc⟩ := @isDigit_head k.natAbs
        have hdigit : ∀ c ∈ "0123456789".toList, c ≠ '"' ∧ c ≠ '[' ∧ c ≠ '\x7b' := by simp
        unfold writeInt
        split
        next =>
          intro d hd
          obtain rfl : '-' = d := Option.some.inj hd
          decide
        next =>
          rw [htext]
          intro d hd
          obtain rfl : c = d := Option.some.inj hd
          exact hdigit c (digit_cases hc)
      show scanOnce n (writeInt k ++ rest) = _
      rw [scanOnce_plain hplain, readPlain_int h hrest]
  | .float literal, n, depth, rest, h, _, _ => absurd h id
  | .str s, n, depth, rest, h, _, _ => by
      have h : Unpaired s := h
      have hread : ∀ t, readString t = some (s, rest) →
          scanOnce n ('"' :: t) = .ok (.str s, rest) := by
        intro t ht
        unfold scanOnce
        show (match readString t with
          | none => _
          | some (t, rest) => _) = _
        rw [ht]
      show scanOnce n (writeString s ++ rest) = _
      rw [writeString_eq]
      exact hread _ (readString_writeString h rest)
  | .list [], 0, depth, rest, _, hn, _ => absurd hn (by decide)
  | .list [], n + 1, depth, rest, _, _, _ => by
      show readArray (scanOnce n) (']' :: rest) = _
      unfold readArray
      rw [skip_self (by decide)]
      rfl
  | .list (x :: xs), 0, depth, rest, _, hn, _ => absurd hn (Nat.not_succ_le_zero _)
  | .list (x :: xs), n + 1, depth, rest, h, hn, _ => by
      obtain ⟨hx, hxs⟩ : x.Readable ∧ ReadableItems xs := h
      have hdepth : max x.nesting (nestingItems xs) ≤ n := Nat.le_of_succ_le_succ hn
      have hbegins := @begins_write style x hx (depth + 1)
        (writeItems style (depth + 1) xs ++ (style.gap depth ++ ']' :: rest))
      have hskip : skip (style.gap (depth + 1) ++ (write style (depth + 1) x
          ++ (writeItems style (depth + 1) xs ++ (style.gap depth ++ ']' :: rest))))
          = write style (depth + 1) x
            ++ (writeItems style (depth + 1) xs ++ (style.gap depth ++ ']' :: rest)) := by
        obtain ⟨c, t, htext, hc, -⟩ := hbegins
        rw [htext]
        exact skip_white (hgap (depth + 1)) hc t
      have htext : write style depth (.list (x :: xs)) ++ rest
          = '[' :: (style.gap (depth + 1) ++ (write style (depth + 1) x
            ++ (writeItems style (depth + 1) xs ++ (style.gap depth ++ ']' :: rest)))) := by
        rw [write]
        simp only [List.cons_append, List.append_assoc, List.nil_append]
      rw [htext]
      show readArray (scanOnce n) _ = _
      have hlength := @length_writeItems style (depth + 1) xs
      rw [readArray_begins hskip hbegins, readItems_write hgap xs
        (fun rest hrest => scanOnce_write x hx (by omega) hrest)
        (scanItems_write xs hxs (by omega)) (hgap depth)]
      · rfl
      · simp only [List.length_append, List.length_cons]
        omega
  | .dict [], 0, depth, rest, _, hn, _ => absurd hn (by decide)
  | .dict [], n + 1, depth, rest, _, _, _ => by
      show readObject (scanOnce n) ('\x7d' :: rest) = _
      unfold readObject
      rw [skip_self (by decide)]
      rfl
  | .dict ((k, v) :: es), 0, depth, rest, _, hn, _ => absurd hn (Nat.not_succ_le_zero _)
  | .dict ((k, v) :: es), n + 1, depth, rest, h, hn, _ => by
      obtain ⟨hnodup, hk, hv, hes⟩ :
        (((k, v) :: es).map Prod.fst).Nodup ∧ Unpaired k ∧ v.Readable ∧ ReadableEntries es := h
      have hdepth : max v.nesting (nestingEntries es) ≤ n := Nat.le_of_succ_le_succ hn
      have htext : write style depth (.dict ((k, v) :: es)) ++ rest
          = '\x7b' :: (style.gap (depth + 1) ++ (writeString k ++ (':' :: (style.colon
            ++ (write style (depth + 1) v ++ (writeEntries style (depth + 1) es
              ++ (style.gap depth ++ '\x7d' :: rest))))))) := by
        rw [write]
        simp only [List.cons_append, List.append_assoc, List.nil_append]
      have hskip : skip (style.gap (depth + 1) ++ (writeString k ++ (':' :: (style.colon
            ++ (write style (depth + 1) v ++ (writeEntries style (depth + 1) es
              ++ (style.gap depth ++ '\x7d' :: rest)))))))
          = '"' :: ((k.flatMap units).flatMap writeUnit ++ '"' :: (':' :: (style.colon
            ++ (write style (depth + 1) v ++ (writeEntries style (depth + 1) es
              ++ (style.gap depth ++ '\x7d' :: rest)))))) := by
        rw [writeString_eq]
        exact skip_white (hgap (depth + 1)) (by decide) _
      rw [htext]
      show readObject (scanOnce n) _ = _
      have hlength := @length_writeEntries style (depth + 1) es
      rw [readObject_quote hskip, ← writeString_eq, readEntries_write hgap hcolon es hk hv
        (fun rest hrest => scanOnce_write v hv (by omega) hrest)
        (scanEntries_write es hes (by omega)) (hgap depth)]
      · show Except.ok (Value.dict (asDict ((k, v) :: es)), rest) = _
        rw [asDict_nodup hnodup]
      · simp only [List.length_append, List.length_cons]
        omega

theorem scanItems_write : ∀ (xs : List Value) {n depth : Nat}, ReadableItems xs →
    nestingItems xs ≤ n → ∀ y ∈ xs, y.Readable ∧
      ∀ rest, Ends rest → scanOnce n (write style depth y ++ rest) = .ok (y, rest)
  | [], _, _, _, _ => fun y hy => absurd hy List.not_mem_nil
  | x :: xs, n, depth, h, hn => by
      obtain ⟨hx, hxs⟩ : x.Readable ∧ ReadableItems xs := h
      have hdepth : max x.nesting (nestingItems xs) ≤ n := hn
      refine List.forall_mem_cons.2 ⟨⟨hx, fun rest hrest => ?_⟩, ?_⟩
      · exact scanOnce_write x hx (by omega) hrest
      · exact scanItems_write xs hxs (by omega)

theorem scanEntries_write : ∀ (es : List (Str × Value)) {n depth : Nat}, ReadableEntries es →
    nestingEntries es ≤ n → ∀ e ∈ es, Unpaired e.1 ∧ e.2.Readable ∧
      ∀ rest, Ends rest → scanOnce n (write style depth e.2 ++ rest) = .ok (e.2, rest)
  | [], _, _, _, _ => fun e he => absurd he List.not_mem_nil
  | (k, v) :: es, n, depth, h, hn => by
      obtain ⟨hk, hv, hes⟩ : Unpaired k ∧ v.Readable ∧ ReadableEntries es := h
      have hdepth : max v.nesting (nestingEntries es) ≤ n := hn
      refine List.forall_mem_cons.2 ⟨⟨hk, hv, fun rest hrest => ?_⟩, ?_⟩
      · exact scanOnce_write v hv (by omega) hrest
      · exact scanEntries_write es hes (by omega)

end

theorem loads_write {v : Value} (h : v.Readable) {n : Nat} (hn : v.nesting ≤ n) (depth : Nat)
    {tail : List Char} (htail : ∀ c ∈ tail, isWhite c = true) :
    loads n (write style depth v ++ tail) = .ok v := by
  obtain ⟨c, t, htext, hc, -, -, hmark⟩ := @begins_write style v h depth tail
  have hends : Ends tail := by
    have hnil : Ends [] := fun c hc => by cases hc
    rw [← List.append_nil tail]
    exact ends_white htail hnil
  have hread := @scanOnce_write style hgap hcolon v n depth tail h hn hends
  have hskip : skip (write style depth v ++ tail) = write style depth v ++ tail := by
    rw [htext]
    exact skip_self hc t
  have hrest : skip tail = [] := List.dropWhile_eq_nil_iff.2 htail
  unfold loads
  rw [hskip, hread, if_neg]
  · exact if_pos hrest
  · rw [htext]
    exact fun heq => hmark (Option.some.inj heq)

end Write

-- ===== one line

theorem return_not_mem_writeUnit (p : CodePoint) : '\r' ∉ writeUnit p := by
  have hhex : ∀ d < 16, Nat.digitChar d ≠ '\r' := by decide
  have hescape (n : Nat) : '\r' ∉ unicodeEscape n := by
    unfold unicodeEscape hex4
    simp only [List.mem_cons, List.not_mem_nil, or_false, not_or]
    have hdigit (m : Nat) : '\r' ≠ Nat.digitChar (m % 16) := (hhex _ (Nat.mod_lt _ (by decide))).symm
    exact ⟨by decide, by decide, hdigit _, hdigit _, hdigit _, hdigit _⟩
  cases p with
  | high n => exact hescape _
  | low n => exact hescape _
  | char c =>
      simp only [writeUnit]
      split
      next e he =>
        have hletter : e ≠ '\r' := by
          intro heq
          subst heq
          unfold shortEscape at he
          repeat' split at he
          all_goals cases he
        simp only [List.mem_cons, List.not_mem_nil, or_false, not_or]
        exact ⟨by decide, hletter.symm⟩
      next =>
        split
        next hprintable =>
          intro hmem
          rw [← List.mem_singleton.1 hmem] at hprintable
          exact absurd hprintable.1 (by decide)
        next => exact hescape _

theorem return_not_mem_writeString (s : Str) : '\r' ∉ writeString s := by
  unfold writeString
  intro hmem
  rcases List.mem_cons.1 hmem with hquote | hmem
  · exact absurd hquote (by decide)
  · rcases List.mem_append.1 hmem with hmem | hmem
    · obtain ⟨p, -, hp⟩ := List.mem_flatMap.1 hmem
      exact return_not_mem_writeUnit p hp
    · exact absurd (List.mem_singleton.1 hmem) (by decide)

end Lib.JsonText
