/-
UTF-8 at the byte level, for programs that cut encoded text to a byte
limit: `encode`, the decoder that skips what it cannot decode
(`decodeIgnore`), and the theorem that cutting an encoding anywhere and
decoding what is left gives a prefix of the text, the longest one that
fits (`decodeIgnore_take_encode`).

The character codec itself is the core library's; what is added here is
the resynchronization argument. A cut either falls between two
characters, or leaves a proper prefix of one character's bytes at the
end: its first byte announces more bytes than there are, and every later
one is a continuation byte, which starts no character. So nothing of the
broken character is decoded.
-/
import Mathlib.Data.List.Basic

namespace Lib.Utf8

def encode (s : List Char) : List UInt8 := s.flatMap String.utf8EncodeChar

/-- The character a byte string begins with, if it begins with one. -/
def decodeHead (bytes : List UInt8) : Option Char := bytes.toByteArray.utf8DecodeChar? 0

/-- Decode with a step budget, skipping a byte where no character
starts. -/
def decodeAux : Nat → List UInt8 → List Char
  | 0, _ => []
  | _ + 1, [] => []
  | n + 1, b :: bs =>
      match decodeHead (b :: bs) with
      | some c => c :: decodeAux n ((b :: bs).drop c.utf8Size)
      | none => decodeAux n bs

/-- `bytes.decode("utf-8", errors="ignore")`. -/
def decodeIgnore (bytes : List UInt8) : List Char := decodeAux bytes.length bytes

/-- The longest prefix of a text whose encoding fits in `n` bytes. -/
def clip : Nat → List Char → List Char
  | _, [] => []
  | n, c :: cs => if c.utf8Size ≤ n then c :: clip (n - c.utf8Size) cs else []

-- ===== encoding

@[simp] theorem encode_nil : encode [] = [] := rfl

@[simp] theorem encode_cons (c : Char) (cs : List Char) :
    encode (c :: cs) = String.utf8EncodeChar c ++ encode cs := rfl

theorem encode_length_le (s : List Char) : (encode s).length ≤ 4 * s.length := by
  induction s with
  | nil => simp
  | cons c cs ih =>
      have hfour := c.utf8Size_le_four
      simp only [encode_cons, List.length_cons, List.length_append,
        String.length_utf8EncodeChar]
      omega

-- ===== one head

theorem decodeHead_encode (c : Char) (rest : List UInt8) :
    decodeHead (String.utf8EncodeChar c ++ rest) = some c := by
  unfold decodeHead
  rw [List.toByteArray_append]
  exact ByteArray.utf8DecodeChar?_utf8EncodeChar_append

theorem decodeHead_continuation {b : UInt8} {bs : List UInt8}
    (hb : ¬ b.IsUTF8FirstByte) : decodeHead (b :: bs) = none := by
  cases hd : decodeHead (b :: bs) with
  | none => rfl
  | some c =>
      have hsome : ((b :: bs).toByteArray.utf8DecodeChar? 0).isSome = true := by
        unfold decodeHead at hd
        rw [hd]
        rfl
      have hfirst := ByteArray.isUTF8FirstByte_of_isSome_utf8DecodeChar? hsome
      rw [List.getElem_toByteArray] at hfirst
      exact absurd hfirst hb

theorem decodeHead_broken {c : Char} {n : Nat} (hn : n < c.utf8Size) :
    decodeHead ((String.utf8EncodeChar c).take n) = none := by
  cases hd : decodeHead ((String.utf8EncodeChar c).take n) with
  | none => rfl
  | some d =>
      unfold decodeHead at hd
      -- completing the bytes keeps the decoded character, so it is `c`
      have happ := ByteArray.utf8DecodeChar?_append_eq_some hd
        ((String.utf8EncodeChar c).drop n).toByteArray
      have hwhole : decodeHead (String.utf8EncodeChar c) = some c := by
        simpa using decodeHead_encode c []
      rw [← List.toByteArray_append, List.take_append_drop] at happ
      unfold decodeHead at hwhole
      have hcd : d = c := by
        rw [hwhole] at happ
        exact (Option.some.inj happ).symm
      have hsize := ByteArray.le_size_of_utf8DecodeChar?_eq_some hd
      rw [List.size_toByteArray, List.length_take, String.length_utf8EncodeChar, hcd] at hsize
      omega

-- ===== decoding

theorem decodeAux_continuation :
    ∀ (n : Nat) (bytes : List UInt8), (∀ b ∈ bytes, ¬ b.IsUTF8FirstByte) →
      decodeAux n bytes = []
  | 0, _, _ => rfl
  | _ + 1, [], _ => rfl
  | n + 1, b :: bs, h => by
      rw [decodeAux, decodeHead_continuation (h b (List.mem_cons_self ..))]
      exact decodeAux_continuation n bs fun x hx => h x (List.mem_cons_of_mem _ hx)

theorem continuation_tail {c : Char} {b x : UInt8} {bs : List UInt8}
    (h : String.utf8EncodeChar c = b :: bs) (hx : x ∈ bs) : ¬ x.IsUTF8FirstByte := by
  obtain ⟨i, hi, rfl⟩ := List.getElem_of_mem hx
  have hlen : i + 1 < (String.utf8EncodeChar c).length := by
    rw [h, List.length_cons]
    omega
  have hget : (String.utf8EncodeChar c)[i + 1] = bs[i] := by
    simp [h]
  rw [← hget, UInt8.isUTF8FirstByte_getElem_utf8EncodeChar]
  omega

theorem decodeAux_broken {c : Char} {n k : Nat} (hn : n < c.utf8Size) :
    decodeAux k ((String.utf8EncodeChar c).take n) = [] := by
  cases henc : String.utf8EncodeChar c with
  | nil => exact absurd henc String.utf8EncodeChar_ne_nil
  | cons b bs =>
      have hbroken := decodeHead_broken hn
      rw [henc] at hbroken
      cases n with
      | zero => cases k <;> rfl
      | succ n =>
          cases k with
          | zero => rfl
          | succ k =>
              rw [List.take_succ_cons] at hbroken ⊢
              rw [decodeAux, hbroken]
              refine decodeAux_continuation k _ fun x hx => ?_
              exact continuation_tail henc (List.mem_of_mem_take hx)

theorem decodeAux_take_encode :
    ∀ (s : List Char) (n k : Nat), ((encode s).take n).length ≤ k →
      decodeAux k ((encode s).take n) = clip n s
  | [], n, k, _ => by cases k <;> simp [decodeAux, clip]
  | c :: cs, n, k, hk => by
      have hpos := c.utf8Size_pos
      have hlenc := String.length_utf8EncodeChar c
      by_cases hc : c.utf8Size ≤ n
      · -- the character is whole: it is decoded, and the rest is cut further on
        have htake : (encode (c :: cs)).take n
            = String.utf8EncodeChar c ++ (encode cs).take (n - c.utf8Size) := by
          rw [encode_cons, List.take_append, hlenc, List.take_of_length_le (by omega)]
        rw [htake, List.length_append, hlenc] at hk
        obtain ⟨k, rfl⟩ : ∃ j, k = j + 1 := ⟨k - 1, by omega⟩
        rw [htake, clip, if_pos hc]
        cases henc : String.utf8EncodeChar c with
        | nil => exact absurd henc String.utf8EncodeChar_ne_nil
        | cons b bs =>
            have hhead := decodeHead_encode c ((encode cs).take (n - c.utf8Size))
            have hdrop : ((b :: bs) ++ (encode cs).take (n - c.utf8Size)).drop c.utf8Size
                = (encode cs).take (n - c.utf8Size) := by
              rw [← henc, ← hlenc, List.drop_left]
            rw [henc] at hhead
            rw [List.cons_append] at hhead hdrop ⊢
            rw [decodeAux, hhead]
            simp only [hdrop]
            rw [decodeAux_take_encode cs (n - c.utf8Size) k (by omega)]
      · -- the cut falls inside the character
        have htake : (encode (c :: cs)).take n = (String.utf8EncodeChar c).take n := by
          rw [encode_cons, List.take_append_of_le_length (by omega)]
        rw [htake, clip, if_neg hc]
        exact decodeAux_broken (by omega)

/-- Cutting the bytes and decoding what is left is cutting the text. -/
theorem decodeIgnore_take_encode (n : Nat) (s : List Char) :
    decodeIgnore ((encode s).take n) = clip n s :=
  decodeAux_take_encode s n _ (Nat.le_refl _)

-- ===== clipping

theorem clip_initial : ∀ (n : Nat) (s : List Char), clip n s <+: s
  | _, [] => List.prefix_refl _
  | n, c :: cs => by
      rw [clip]
      split
      · exact (List.prefix_cons_inj c).2 (clip_initial _ cs)
      · exact List.nil_prefix

theorem encode_clip_le : ∀ (n : Nat) (s : List Char), (encode (clip n s)).length ≤ n
  | _, [] => by simp [clip]
  | n, c :: cs => by
      rw [clip]
      split
      next hc =>
        have ih := encode_clip_le (n - c.utf8Size) cs
        rw [encode_cons, List.length_append, String.length_utf8EncodeChar]
        omega
      next => simp

theorem clip_of_le : ∀ {n : Nat} {s : List Char}, (encode s).length ≤ n → clip n s = s
  | _, [], _ => rfl
  | n, c :: cs, h => by
      rw [encode_cons, List.length_append, String.length_utf8EncodeChar] at h
      rw [clip, if_pos (by omega), clip_of_le (by omega)]

theorem decodeIgnore_encode (s : List Char) : decodeIgnore (encode s) = s := by
  have hall := decodeIgnore_take_encode (encode s).length s
  rwa [List.take_length, clip_of_le (Nat.le_refl _)] at hall

end Lib.Utf8
