/-
What `redact_secrets` leaves (`free_of_step`, `redactSecrets_eq_self`): it is
one replacement after another by the same placeholder, and a word that the
placeholder is fenced off from comes up in none of them.

So a value that is gone after its own replacement is gone at the end, and a
text with no value, no key and no authorization header in it is left alone.
The header is the one shape that looks at what is before it; it is the last
to be replaced, and takes every character that could begin another.
-/
import Velune.Core.Redaction

namespace Velune.Core

open Lib
open Lib.Replace (Fenced Sound Untaken lastOf)
open Lib.Regex (Re Reads Takes taker)

-- ===== fences

structure Maskable (w : RawStr) : Prop where
  something : w ≠ []
  starless : some '*' ∉ w
  apart : ¬ w <:+: REDACTION_PLACEHOLDER

theorem Maskable.fenced {w : RawStr} (h : Maskable w) : Fenced REDACTION_PLACEHOLDER w :=
  @Replace.fenced_of_ends _ (some '*') _ (PyStr.raw "**REDACTED***".toList)
    (PyStr.raw "***REDACTED**".toList) w rfl rfl h.starless h.apart

theorem maskable_of_length {w : RawStr} (hlen : 15 ≤ w.length) (hstar : some '*' ∉ w) :
    Maskable w where
  something hnil := by simp [hnil] at hlen
  starless := hstar
  apart hin := by
    have hle := hin.length_le
    rw [show REDACTION_PLACEHOLDER.length = 14 from rfl] at hle
    omega

-- ===== steps

def Masks (f : RawStr → RawStr) : Prop :=
  ∀ w, Maskable w → ∀ text, w <:+: f text → w <:+: text

theorem masks_foldl {β : Type} {f : RawStr → β → RawStr} :
    ∀ {bs : List β}, (∀ b ∈ bs, Masks fun text => f text b) →
      Masks fun text => bs.foldl f text := by
  intro bs
  induction bs with
  | nil => exact fun _ w _ text hin => hin
  | cons b bs ih =>
      intro h w hw text hin
      have hrest := ih (fun b' hb' => h b' (List.mem_cons_of_mem b hb')) w hw (f text b) hin
      exact h b (List.mem_cons_self ..) w hw text hrest

theorem free_foldl {β : Type} {f : RawStr → β → RawStr} {w : RawStr} (hw : Maskable w) :
    ∀ {bs : List β}, (∀ b ∈ bs, Masks fun text => f text b) →
      (∃ b ∈ bs, ∀ text, ¬ w <:+: f text b) → ∀ text, ¬ w <:+: bs.foldl f text := by
  intro bs
  induction bs with
  | nil =>
      intro _ h
      obtain ⟨b, hb, -⟩ := h
      cases hb
  | cons b bs ih =>
      intro h hfree text
      have hmasks : ∀ b' ∈ bs, Masks fun text => f text b' :=
        fun b' hb' => h b' (List.mem_cons_of_mem b hb')
      obtain ⟨b', hb', hnone⟩ := hfree
      rcases List.mem_cons.1 hb' with rfl | hb'
      · intro hin
        exact hnone text (masks_foldl hmasks w hw (f text b') hin)
      · exact ih hmasks ⟨b', hb', hnone⟩ (f text b)

theorem foldl_eq_self {β : Type} {f : RawStr → β → RawStr} {text : RawStr} :
    ∀ {bs : List β}, (∀ b ∈ bs, f text b = text) → bs.foldl f text = text := by
  intro bs
  induction bs with
  | nil => exact fun _ => rfl
  | cons b bs ih =>
      intro h
      rw [List.foldl_cons, h b (List.mem_cons_self ..)]
      exact ih fun b' hb' => h b' (List.mem_cons_of_mem b hb')

-- ===== values

theorem redactValue_eq (text value : RawStr) :
    redactValue text value
      = Replace.replaceAll (Replace.literal value) REDACTION_PLACEHOLDER text := by
  unfold redactValue
  split
  next => rfl
  next hnone => exact (Replace.replace_literal_eq_self hnone).symm

theorem masks_redactValue {value : RawStr} (hvalue : value ≠ []) :
    Masks fun text => redactValue text value := by
  intro w hw text hin
  have hin : w <:+: redactValue text value := hin
  rw [redactValue_eq] at hin
  exact Replace.infix_of_replaceAll (Replace.sound_literal hvalue) hw.fenced hin

theorem free_redactValue {value : RawStr} (h : Maskable value) (text : RawStr) :
    ¬ value <:+: redactValue text value := by
  rw [redactValue_eq]
  exact Replace.free_of_literal h.something h.fenced

theorem redactValue_eq_self {text value : RawStr} (h : ¬ value <:+: text) :
    redactValue text value = text := if_neg h

theorem masks_redactVariable (env : PyStr → Option RawStr) (var : PyStr) :
    Masks fun text => redactVariable env text var := by
  intro w hw text hin
  unfold redactVariable at hin
  split at hin
  next value _ =>
    split at hin
    next hlen =>
      exact masks_redactValue (fun hnil => by simp [hnil] at hlen) w hw text hin
    next => exact hin
  next => exact hin

-- ===== key shapes

def manyChars (n : Nat) (body : Char → Bool) : Language Char :=
  {t | n ≤ t.length ∧ ∀ c ∈ t, body c = true}

def keyWords (lead : List Char) (body : Char → Bool) : Language Char := {lead} * manyChars 20 body

variable {isWord : Char → Bool}

theorem reads_keyShape (lead : List Char) (body : Char → Bool) :
    Reads isWord (keyShape lead body) (keyWords lead body) := Reads.text.seq Reads.atLeast

def Starless (shape : List Char × (Char → Bool)) : Prop := '*' ∉ shape.1 ∧ shape.2 '*' = false

theorem starless_of_shape : ∀ shape ∈ KEY_SHAPES, Starless shape := by
  simp [KEY_SHAPES, Starless, isKeyChar, isDashedKeyChar, Text.isAlnum, Text.isLower, Text.isUpper,
    Text.isDigit]

theorem map_star {w : RawStr} (h : '*' ∉ w.map shownChar) : some '*' ∉ w := fun hin =>
  h (List.mem_map.2 ⟨some '*', hin, rfl⟩)

theorem maskable_of_key {shape : List Char × (Char → Bool)} (hshape : Starless shape) {w : RawStr}
    (hw : w.map shownChar ∈ keyWords shape.1 shape.2) : Maskable w := by
  obtain ⟨lead, hlead, t, ⟨hlen, ht⟩, heq⟩ := Language.mem_mul.1 hw
  cases (hlead : lead = shape.1)
  apply maskable_of_length
  · rw [← List.length_map (f := shownChar), ← heq, List.length_append]
    omega
  · apply map_star
    rw [← heq, List.mem_append]
    intro hin
    rcases hin with hin | hin
    · exact hshape.1 hin
    · simpa [hshape.2] using ht '*' hin

theorem sound_key (shape : List Char × (Char → Bool)) :
    Sound (taker isWord shownChar (keyShape shape.1 shape.2)) := by
  refine Regex.sound_taker_of_reads (reads_keyShape shape.1 shape.2) fun hnil => ?_
  obtain ⟨lead, -, t, ⟨hlen, -⟩, heq⟩ := Language.mem_mul.1 hnil
  rw [(List.append_eq_nil_iff.1 heq).2] at hlen
  cases hlen

theorem free_key {shape : List Char × (Char → Bool)}
    (hshape : Starless shape) {w : RawStr} (hw : w.map shownChar ∈ keyWords shape.1 shape.2)
    (text : RawStr) : ¬ w <:+: redactPattern isWord text (keyShape shape.1 shape.2) := by
  have hmask := maskable_of_key hshape hw
  exact Replace.free_of_replaced hmask.fenced hmask.something
    (Regex.isSome_taker (reads_keyShape shape.1 shape.2) hw)
    (Replace.replaced_replaceAll (sound_key shape) _ text)

theorem redactPattern_eq_self {pattern : Re} {L : Language Char}
    (hways : ∀ prev s prev' s' g', Takes isWord pattern prev s [] prev' s' g' → ∃ t ∈ L, s = t ++ s')
    {text : RawStr} (h : ∀ w, w.map shownChar ∈ L → ¬ w <:+: text) :
    redactPattern isWord text pattern = text := by
  refine Replace.replaceFrom_eq_self fun a b heq _ => ?_
  rw [List.append_nil, ← Option.not_isSome_iff_eq_none, Regex.isSome_taker_iff]
  intro hway
  obtain ⟨prev', s', g', hway⟩ := hway
  obtain ⟨t, ht, hb⟩ := hways _ _ _ _ _ hway
  obtain ⟨w, rest, rfl, hw, -⟩ := List.map_eq_append_iff.1 hb
  refine h w (hw ▸ ht) ⟨a, rest, ?_⟩
  rw [heq, List.append_assoc]

theorem ways_keyShape {lead : List Char} {body : Char → Bool}
    {prev prev' : Option Char} {s s' : List Char} {g' : Regex.Groups}
    (h : Takes isWord (keyShape lead body) prev s [] prev' s' g') :
    ∃ t ∈ keyWords lead body, s = t ++ s' := by
  obtain ⟨t, ht, hs, -, -⟩ := (reads_keyShape lead body _ _ _ _ _ _).1 h
  exact ⟨t, ht, hs⟩

-- ===== authorization

def noCaseWords (word : List Char) : Language Char :=
  {w | List.Forall₂ (fun c d => noCase c d = true) word w}

def headerWords : Language Char :=
  (noCaseWords "bearer".toList + noCaseWords "token".toList) * Regex.someChars Text.isSpace
    * manyChars 16 isTokenChar

theorem noCaseWords_eq (word : List Char) :
    noCaseWords word = (word.map fun c => Regex.oneChar (noCase c)).prod := by
  induction word with
  | nil =>
      apply Set.ext
      intro w
      show List.Forall₂ (fun c d => noCase c d = true) [] w ↔ w ∈ (1 : Language Char)
      rw [List.forall₂_nil_left_iff, Language.mem_one]
  | cons c word ih =>
      apply Set.ext
      intro w
      rw [List.map_cons, List.prod_cons, ← ih]
      constructor
      · intro h
        cases h with
        | cons hc hrest => exact Language.mem_mul.2 ⟨_, ⟨_, hc, rfl⟩, _, hrest, rfl⟩
      · intro h
        obtain ⟨_, ⟨d, hd, rfl⟩, rest, hrest, rfl⟩ := Language.mem_mul.1 h
        exact List.Forall₂.cons hd hrest

theorem reads_wordNoCase (word : List Char) :
    Reads isWord (wordNoCase word) (noCaseWords word) := by
  rw [noCaseWords_eq, wordNoCase]
  apply Reads.cat
  rw [List.forall₂_map_left_iff, List.forall₂_map_right_iff]
  exact List.forall₂_same.2 fun c _ => Reads.cls

theorem takes_authorization {prev prev' : Option Char} {s s' : List Char} {g g' : Regex.Groups} :
    Takes isWord AUTHORIZATION prev s g prev' s' g' ↔
      prev.any isWord ≠ s.head?.any isWord
        ∧ ∃ t ∈ headerWords, s = t ++ s' ∧ prev' = Regex.lastOf prev t ∧ g' = g := by
  have hreads : Reads isWord
      (.seq (.seq (.alt (wordNoCase "bearer".toList) (wordNoCase "token".toList))
        (.plus Text.isSpace)) (.atLeast 16 isTokenChar)) headerWords :=
    (((reads_wordNoCase _).alt (reads_wordNoCase _)).seq Reads.plus).seq Reads.atLeast
  rw [← hreads prev s g prev' s' g']
  constructor
  · intro h
    obtain ⟨q, t, g₁, ⟨q', t', g₂, ⟨hedge, rfl, rfl, rfl⟩, hfront⟩, hbody⟩ := h
    exact ⟨hedge, q, t, g₁, hfront, hbody⟩
  · intro h
    obtain ⟨hedge, q, t, g₁, hfront, hbody⟩ := h
    exact ⟨q, t, g₁, ⟨prev, s, g, ⟨hedge, rfl, rfl, rfl⟩, hfront⟩, hbody⟩

theorem isTokenChar_upper : ∀ c ∈ "bearertoken".toList,
    isTokenChar c = true ∧ isTokenChar c.toUpper = true := by
  have hall : ("bearertoken".toList.all fun c => isTokenChar c && isTokenChar c.toUpper) = true := by
    decide
  intro c hc
  exact Bool.and_eq_true_iff.1 (List.all_eq_true.1 hall c hc)

theorem noCase_tokenChar {c d : Char} (hc : c ∈ "bearertoken".toList) (hd : noCase c d = true) :
    isTokenChar d = true := by
  obtain ⟨hlower, hupper⟩ := isTokenChar_upper c hc
  simp only [noCase, Bool.or_eq_true, Bool.and_eq_true, beq_iff_eq] at hd
  rcases hd with (rfl | rfl) | ⟨-, rfl⟩
  · exact hlower
  · exact hupper
  · decide

theorem noCaseWords_chars {word t : List Char} (hword : ∀ c ∈ word, c ∈ "bearertoken".toList)
    (ht : t ∈ noCaseWords word) : t.length = word.length ∧ ∀ c ∈ t, isTokenChar c = true := by
  have ht : List.Forall₂ (fun c d => noCase c d = true) word t := ht
  refine ⟨ht.length_eq.symm, ?_⟩
  induction ht with
  | nil => exact fun d hd => by cases hd
  | cons hcd hrest ih =>
      intro e he
      rcases List.mem_cons.1 he with rfl | he
      · exact noCase_tokenChar (hword _ (List.mem_cons_self ..)) hcd
      · exact ih (fun c hc => hword c (List.mem_cons_of_mem _ hc)) hrest e he

/-- A header is long, has no star, and begins with a character of a token. -/
theorem headerWords_chars {t : List Char} (ht : t ∈ headerWords) :
    15 ≤ t.length ∧ '*' ∉ t ∧ ∃ c t', t = c :: t' ∧ isTokenChar c = true := by
  obtain ⟨front, hfront, body, ⟨hlen, hbody⟩, rfl⟩ := Language.mem_mul.1 ht
  obtain ⟨word, hword, gap, ⟨-, hgap⟩, rfl⟩ := Language.mem_mul.1 hfront
  have hsplit : "bearertoken".toList = "bearer".toList ++ "token".toList := by decide
  have hchars : 0 < word.length ∧ ∀ c ∈ word, isTokenChar c = true := by
    rcases (Language.mem_add _ _ word).1 hword with hword | hword
    · obtain ⟨hlen, hchars⟩ :=
        noCaseWords_chars (fun c hc => hsplit ▸ List.mem_append_left _ hc) hword
      exact ⟨by rw [hlen]; decide, hchars⟩
    · obtain ⟨hlen, hchars⟩ :=
        noCaseWords_chars (fun c hc => hsplit ▸ List.mem_append_right _ hc) hword
      exact ⟨by rw [hlen]; decide, hchars⟩
  obtain ⟨hpos, hword⟩ := hchars
  refine ⟨?_, ?_, ?_⟩
  · simp only [List.length_append]
    omega
  · simp only [List.mem_append, not_or]
    refine ⟨⟨fun hin => ?_, fun hin => ?_⟩, fun hin => ?_⟩
    · exact absurd (hword '*' hin) (by decide)
    · exact absurd (hgap '*' hin) (by decide)
    · exact absurd (hbody '*' hin) (by decide)
  · obtain ⟨c, word, rfl⟩ := List.exists_cons_of_length_pos hpos
    exact ⟨c, word ++ gap ++ body, by simp, hword c (List.mem_cons_self ..)⟩

theorem sound_authorization : Sound (taker isWord shownChar AUTHORIZATION) := by
  refine Regex.sound_taker fun prev s prev' s' g' hway => ?_
  obtain ⟨-, t, ht, rfl, -, -⟩ := takes_authorization.1 hway
  have hlen := (headerWords_chars ht).1
  rw [List.length_append]
  omega

/-- No header is left, nor made: one that begins behind a placeholder would
begin with a character that the one before it had taken. -/
theorem redactPattern_authorization_idem (text : RawStr) :
    redactPattern isWord (redactPattern isWord text AUTHORIZATION) AUTHORIZATION
      = redactPattern isWord text AUTHORIZATION := by
  refine Replace.replaceFrom_eq_self fun a b heq _ => ?_
  rw [List.append_nil, ← Option.not_isSome_iff_eq_none, Regex.isSome_taker_iff]
  intro hway
  obtain ⟨prev', s', g', hway⟩ := hway
  obtain ⟨hedge, t, ht, hb, -, -⟩ := takes_authorization.1 hway
  obtain ⟨w, rest, rfl, hw, -⟩ := List.map_eq_append_iff.1 hb
  obtain ⟨hlen, hstar, c, t', rfl, hc⟩ := headerWords_chars ht
  obtain ⟨d, w, rfl, hd, -⟩ := List.map_eq_cons_iff.1 hw
  have hmask : Maskable (d :: w) :=
    maskable_of_length (by rw [← List.length_map (f := shownChar), hw]; exact hlen)
      (map_star (by rwa [hw]))
  have hreplaced := Replace.replaced_replaceAll (@sound_authorization isWord)
    REDACTION_PLACEHOLDER text
  rcases Replace.place_of_replaced hmask.fenced hmask.something (by decide) hreplaced
    (heq.trans (List.append_assoc a (d :: w) rest).symm) with ⟨b, y, hlast, hnone⟩ | ⟨b, x, y, hsome⟩
  · rw [← Option.not_isSome_iff_eq_none, Regex.isSome_taker_iff] at hnone
    refine hnone ⟨_, y.map shownChar, [], takes_authorization.2 ⟨?_, c :: t', ht, ?_, rfl, rfl⟩⟩
    · rw [hlast]
      simpa using hedge
    · rw [List.map_append, hw]
  · have hstop := Regex.taker_stops hsome d (by simp)
    rw [hd, hc] at hstop
    cases hstop

-- ===== all of them

theorem masks_redactPattern {pattern : Re} (hp : pattern ∈ SECRET_PATTERNS) :
    Masks fun text => redactPattern isWord text pattern := by
  intro w hw text hin
  rcases List.mem_append.1 hp with hp | hp
  · obtain ⟨shape, -, rfl⟩ := List.mem_map.1 hp
    exact Replace.infix_of_replaceAll (sound_key shape) hw.fenced hin
  · rw [List.mem_singleton.1 hp] at hin
    exact Replace.infix_of_replaceAll sound_authorization hw.fenced hin

/-- Where no word of a pattern can be, there is none for any of them. -/
theorem redactPattern_of_free {pattern : Re} (hp : pattern ∈ SECRET_PATTERNS)
    {text : RawStr} (h : ∀ w, some '*' ∉ w → w ≠ [] → ¬ w <:+: text) :
    redactPattern isWord text pattern = text := by
  rcases List.mem_append.1 hp with hp | hp
  · obtain ⟨shape, hshape, rfl⟩ := List.mem_map.1 hp
    refine redactPattern_eq_self (fun _ _ _ _ _ => ways_keyShape) fun w hw => ?_
    have hmask := maskable_of_key (starless_of_shape shape hshape) hw
    exact h w hmask.starless hmask.something
  · rw [List.mem_singleton.1 hp]
    refine redactPattern_eq_self (L := headerWords) (fun _ _ _ _ _ hway => ?_) fun w hw => ?_
    · obtain ⟨-, t, ht, hs, -, -⟩ := takes_authorization.1 hway
      exact ⟨t, ht, hs⟩
    · obtain ⟨-, hstar, c, t', heq, -⟩ := headerWords_chars hw
      refine h w (map_star hstar) fun hnil => ?_
      rw [hnil] at heq
      cases heq

theorem redactPattern_settled (isWord : Char → Bool) (text : RawStr) :
    ∀ pattern ∈ SECRET_PATTERNS,
      redactPattern isWord (SECRET_PATTERNS.foldl (redactPattern isWord) text) pattern
        = SECRET_PATTERNS.foldl (redactPattern isWord) text := by
  intro pattern hp
  rcases List.mem_append.1 hp with hkey | hlast
  · obtain ⟨shape, hshape, rfl⟩ := List.mem_map.1 hkey
    have hstar := starless_of_shape shape hshape
    refine redactPattern_eq_self (fun _ _ _ _ _ => ways_keyShape) fun w hw => ?_
    exact free_foldl (maskable_of_key hstar hw) (fun b hb => masks_redactPattern hb)
      ⟨_, hp, free_key hstar hw⟩ text
  · rw [List.mem_singleton.1 hlast, SECRET_PATTERNS, List.foldl_append]
    exact redactPattern_authorization_idem _

theorem masks_redactSecrets (isWord : Char → Bool) (env : PyStr → Option RawStr) :
    Masks (redactSecrets isWord env) := by
  intro w hw text hin
  unfold redactSecrets at hin
  split at hin
  next => exact hin
  next =>
    have hvars := masks_foldl (fun pattern hp => @masks_redactPattern isWord pattern hp) w hw _ hin
    exact masks_foldl (fun var _ => masks_redactVariable env var) w hw text hvars

/-- The variables that `redact_secrets` looks at hold maskable values. -/
def EnvMaskable (env : PyStr → Option RawStr) : Prop :=
  ∀ var ∈ SECRET_ENV_VARS, ∀ value, env var = some value → 8 ≤ value.length → Maskable value

theorem redactSecrets_idem {env : PyStr → Option RawStr} (henv : EnvMaskable env) (text : RawStr) :
    redactSecrets isWord env (redactSecrets isWord env text) = redactSecrets isWord env text := by
  generalize hout : redactSecrets isWord env text = out
  rw [redactSecrets]
  split
  next => rfl
  next hne =>
    have hout' : out = SECRET_PATTERNS.foldl (redactPattern isWord)
        (SECRET_ENV_VARS.foldl (redactVariable env) text) := by
      rw [← hout, redactSecrets, if_neg]
      intro htext
      rw [htext] at hout
      exact hne hout.symm
    have hvars : SECRET_ENV_VARS.foldl (redactVariable env) out = out := by
      refine foldl_eq_self fun var hvar => ?_
      unfold redactVariable
      split
      next value hvalue =>
        split
        next hlen =>
          have hmask := henv var hvar value hvalue hlen
          refine redactValue_eq_self fun hin => ?_
          rw [hout'] at hin
          refine free_foldl hmask (fun var _ => masks_redactVariable env var)
            ⟨var, hvar, fun text => ?_⟩ text
            (masks_foldl (fun pattern hp => masks_redactPattern hp) value hmask _ hin)
          simpa only [redactVariable, hvalue, if_pos hlen] using free_redactValue hmask text
        next => rfl
      next => rfl
    rw [hvars, hout']
    exact foldl_eq_self (redactPattern_settled isWord _)

end Velune.Core
