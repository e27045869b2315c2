/-
What a scrubbed text shows of the secrets it was scrubbed of
(`scrub_complete`): none of them, in none of their spellings, however they
overlap; and what the executor hands on after its cut.

Every value and spelling is replaced by itself once, and none comes up
again (`Core.Masks`). The spellings are texts over their own letters, so a
spelling is within the placeholder only where the value itself is.
-/
import Velune.Core.Proofs.Redaction
import Velune.Engine.Secrets

namespace Velune.Engine

open Lib
open Core

-- ===== vocabulary

structure Secret (full : PyStr) : Prop where
  long : MIN_SECRET_CHARS ≤ (Text.strip full).length
  maskable : Maskable (PyStr.raw (Text.strip full))

def SecretScrubber.secrets (scrubber : SecretScrubber) : List RawStr :=
  (scrubber.sources.filterMap id).flatten

/-- No text that ends in `mark` has `w` in it by way of `mark`. -/
def ClearOf (mark w : RawStr) : Prop :=
  ¬ w <:+: mark ∧ ∀ y, y ≠ [] → y <+: mark → ¬ y <:+ w

/-- The notice of the cut neither shows a secret nor completes it. -/
def ClearOfNotice (full : PyStr) : Prop :=
  ∀ s ∈ spellings (Text.strip full), ClearOf TRUNCATION_MARKER s

-- ===== quote

theorem lt_of_isAlwaysSafe : ∀ n : Fin 256,
    isAlwaysSafe (UInt8.ofNat n.val) = true → n.val < 128 := by
  decide +kernel

theorem utf8Size_of_low {c : Char} (hlow : ∀ b ∈ String.utf8EncodeChar c, b.toNat < 128) :
    c.utf8Size = 1 := by
  have hpos := c.utf8Size_pos
  have hfour := c.utf8Size_le_four
  have hlast (hin : c.val.toUInt8 &&& 0x3f ||| 0x80 ∈ String.utf8EncodeChar c) : False := by
    have hlt := hlow _ hin
    have hle : 128 ≤ (c.val.toUInt8 &&& 0x3f ||| 0x80).toNat := by
      rw [UInt8.toNat_or]
      exact Nat.right_le_or
    omega
  obtain h | h | h | h :
      c.utf8Size = 1 ∨ c.utf8Size = 2 ∨ c.utf8Size = 3 ∨ c.utf8Size = 4 := by omega
  · exact h
  · exact (hlast (by rw [String.utf8EncodeChar_eq_cons_cons h]; simp)).elim
  · exact (hlast (by rw [String.utf8EncodeChar_eq_cons_cons_cons h]; simp)).elim
  · exact (hlast (by rw [String.utf8EncodeChar_eq_cons_cons_cons_cons h]; simp)).elim

theorem ofNat_byte {c : Char} (h : c.utf8Size = 1) : Char.ofNat c.val.toUInt8.toNat = c := by
  have hle : c.toNat ≤ 127 := Char.utf8Size_eq_one_iff.1 h
  have hbyte : c.val.toUInt8.toNat = c.toNat := by
    rw [UInt32.toNat_toUInt8]
    exact Nat.mod_eq_of_lt (show c.toNat < 256 by omega)
  rw [hbyte, Char.ofNat_toNat]

theorem quoteChar_eq {c : Char} (h : '%' ∉ (String.utf8EncodeChar c).flatMap quoteByte) :
    (String.utf8EncodeChar c).flatMap quoteByte = [c] := by
  have hsafe : ∀ b ∈ String.utf8EncodeChar c, isAlwaysSafe b = true := by
    intro b hb
    by_contra hnot
    exact h (List.mem_flatMap.2 ⟨b, hb, by simp [quoteByte, hnot]⟩)
  have hsize := utf8Size_of_low fun b hb =>
    lt_of_isAlwaysSafe ⟨b.toNat, b.toNat_lt⟩ (by simpa using hsafe b hb)
  rw [String.utf8EncodeChar_eq_singleton hsize] at hsafe ⊢
  have hone := hsafe _ (List.mem_singleton_self _)
  rw [List.flatMap_singleton, quoteByte, if_pos hone, ofNat_byte hsize]

theorem quote_cons (c : Char) (text : PyStr) :
    quote (c :: text) = (String.utf8EncodeChar c).flatMap quoteByte ++ quote text := by
  rw [quote, Utf8.encode_cons, List.flatMap_append]
  rfl

theorem quote_append (a b : PyStr) : quote (a ++ b) = quote a ++ quote b := by
  simp [quote, Utf8.encode]

theorem quote_eq_self : ∀ {text : PyStr}, '%' ∉ quote text → quote text = text := by
  intro text
  induction text with
  | nil => exact fun _ => rfl
  | cons c text ih =>
      intro h
      rw [quote_cons, List.mem_append, not_or] at h
      rw [quote_cons, quoteChar_eq h.1, ih h.2]
      rfl

theorem starless_quoteByte : ∀ n : Fin 256, '*' ∉ quoteByte (UInt8.ofNat n.val) := by
  decide +kernel

theorem starless_quote (text : PyStr) : '*' ∉ quote text := by
  intro hin
  obtain ⟨b, -, hb⟩ := List.mem_flatMap.1 hin
  exact starless_quoteByte ⟨b.toNat, b.toNat_lt⟩ (by simpa using hb)

-- ===== JSON

theorem jsonInner_eq (text : PyStr) :
    jsonInner text = ((JsonText.ofText text).flatMap JsonText.units).flatMap JsonText.writeUnit := by
  simp [jsonInner, JsonText.writeString]

theorem jsonInner_append (a b : PyStr) : jsonInner (a ++ b) = jsonInner a ++ jsonInner b := by
  simp [jsonInner_eq, JsonText.ofText]

def jsonChar (c : Char) : PyStr := (JsonText.units (.char c)).flatMap JsonText.writeUnit

theorem jsonInner_cons (c : Char) (text : PyStr) :
    jsonInner (c :: text) = jsonChar c ++ jsonInner text := by
  simp [jsonInner_eq, jsonChar, JsonText.ofText]

theorem starless_unicodeEscape (n : Nat) : '*' ∉ JsonText.unicodeEscape n := by
  have hdigit : ∀ m : Nat, Nat.digitChar (m % 16) ≠ '*' := fun m => by
    have hall : ∀ d < 16, Nat.digitChar d ≠ '*' := by decide
    exact hall _ (Nat.mod_lt m (by decide))
  simp only [JsonText.unicodeEscape, JsonText.hex4, List.mem_cons, List.not_mem_nil, or_false,
    not_or]
  exact ⟨by decide, by decide, (hdigit _).symm, (hdigit _).symm, (hdigit _).symm, (hdigit _).symm⟩

theorem starless_shortEscape {c e : Char} (h : JsonText.shortEscape c = some e) :
    '*' ∉ ['\\', e] := by
  unfold JsonText.shortEscape at h
  repeat' split at h
  all_goals first | (cases h; done) | (cases h; decide)

theorem jsonChar_cases (c : Char) :
    jsonChar c = [c] ∨ '\\' ∈ jsonChar c ∧ '*' ∉ jsonChar c := by
  by_cases hsmall : c.toNat < 0x10000
  · rw [jsonChar, JsonText.units, if_pos hsmall, List.flatMap_singleton, JsonText.writeUnit]
    cases hshort : JsonText.shortEscape c with
    | some e => exact .inr ⟨List.mem_cons_self .., starless_shortEscape hshort⟩
    | none =>
        dsimp only
        split
        next => exact .inl rfl
        next => exact .inr ⟨List.mem_cons_self .., starless_unicodeEscape _⟩
  · rw [jsonChar, JsonText.units, if_neg hsmall]
    refine .inr ⟨List.mem_cons_self .., ?_⟩
    simp only [List.flatMap_cons, List.flatMap_nil, JsonText.writeUnit, List.append_nil,
      List.mem_append, not_or]
    exact ⟨starless_unicodeEscape _, starless_unicodeEscape _⟩

theorem jsonInner_eq_self : ∀ {text : PyStr}, '\\' ∉ jsonInner text → jsonInner text = text := by
  intro text
  induction text with
  | nil => exact fun _ => rfl
  | cons c text ih =>
      intro h
      rw [jsonInner_cons, List.mem_append, not_or] at h
      rw [jsonInner_cons, (jsonChar_cases c).resolve_right fun hesc => h.1 hesc.1, ih h.2]
      rfl

theorem starless_jsonInner : ∀ {text : PyStr}, '*' ∉ text → '*' ∉ jsonInner text := by
  intro text
  induction text with
  | nil => exact fun h => h
  | cons c text ih =>
      intro h
      rw [List.mem_cons, not_or] at h
      rw [jsonInner_cons, List.mem_append, not_or]
      refine ⟨?_, ih h.2⟩
      rcases jsonChar_cases c with hself | ⟨-, hstar⟩
      · rw [hself, List.mem_singleton]
        exact h.1
      · exact hstar

-- ===== spellings

theorem raw_infix {a b : PyStr} (h : a <:+: b) : PyStr.raw a <:+: PyStr.raw b := by
  obtain ⟨x, y, rfl⟩ := h
  exact ⟨PyStr.raw x, PyStr.raw y, by simp [PyStr.raw]⟩

theorem mem_raw {c : Char} {text : PyStr} : some c ∈ PyStr.raw text ↔ c ∈ text := by
  simp [PyStr.raw]

theorem maskable_spelling {text spelling : PyStr} (escape : Char)
    (htext : Maskable (PyStr.raw text)) (hne : spelling ≠ []) (hstar : '*' ∉ spelling)
    (hself : escape ∉ spelling → spelling = text)
    (hescape : some escape ∉ REDACTION_PLACEHOLDER) : Maskable (PyStr.raw spelling) where
  something hnil := hne (List.map_eq_nil_iff.1 hnil)
  starless hin := hstar (mem_raw.1 hin)
  apart hin := by
    have hnone : escape ∉ spelling := fun hmem => hescape (hin.subset (mem_raw.2 hmem))
    rw [hself hnone] at hin
    exact htext.apart hin

theorem maskable_spellings {text : PyStr} (h : Maskable (PyStr.raw text)) :
    ∀ s ∈ spellings text, Maskable s := by
  have hne : text ≠ [] := fun hnil => h.something (by rw [hnil]; rfl)
  obtain ⟨c, rest, rfl⟩ := List.exists_cons_of_ne_nil hne
  have hstar : '*' ∉ c :: rest := fun hin => h.starless (mem_raw.2 hin)
  intro s hs
  simp only [spellings, List.mem_cons, List.not_mem_nil, or_false] at hs
  rcases hs with rfl | rfl | rfl
  · exact h
  · refine maskable_spelling '\\' h (fun hnil => ?_) (starless_jsonInner hstar)
      jsonInner_eq_self (by decide)
    have hself := @jsonInner_eq_self (c :: rest) (by rw [hnil]; simp)
    rw [hnil] at hself
    cases hself
  · refine maskable_spelling '%' h (fun hnil => ?_) (starless_quote _)
      quote_eq_self (by decide)
    have hself := @quote_eq_self (c :: rest) (by rw [hnil]; simp)
    rw [hnil] at hself
    cases hself

theorem spellings_strip {full : PyStr} {s : RawStr} (hs : s ∈ spellings full) :
    ∃ t ∈ spellings (Text.strip full), t <:+: s := by
  obtain ⟨lead, trail, heq, -, -⟩ := Text.exists_trim Text.isSpace full
  simp only [spellings, List.mem_cons, List.not_mem_nil, or_false] at hs
  rcases hs with rfl | rfl | rfl
  · exact ⟨_, List.mem_cons_self .., raw_infix ⟨lead, trail, heq.symm⟩⟩
  · refine ⟨_, List.mem_cons_of_mem _ (List.mem_cons_self ..), raw_infix ?_⟩
    exact ⟨jsonInner lead, jsonInner trail, by
      rw [← jsonInner_append, ← jsonInner_append, Text.strip, ← heq]⟩
  · refine ⟨_, List.mem_cons_of_mem _ (List.mem_cons_of_mem _ (List.mem_cons_self ..)),
      raw_infix ?_⟩
    exact ⟨quote lead, quote trail, by rw [← quote_append, ← quote_append, Text.strip, ← heq]⟩

-- ===== the values

theorem strip_raw (full : PyStr) : (PyStr.raw full).strip = PyStr.raw (Text.strip full) := by
  simp [RawStr.strip, PyStr.raw, Text.strip, Text.trim, List.dropWhile_map, ← List.map_reverse,
    Function.comp_def]

/-- A scrubber that holds nothing but secrets, and can read them. -/
structure Holds (scrubber : SecretScrubber) : Prop where
  secret : ∀ value ∈ scrubber.secrets, ∃ full, value = PyStr.raw full ∧ Secret full
  read : scrubber.strict = true → none ∉ scrubber.sources

theorem spelled_raw {full : PyStr} (h : Secret full) :
    spelled (PyStr.raw full) = some (spellings (Text.strip full)) := by
  have hlong : ¬ (PyStr.raw (Text.strip full)).length < MIN_SECRET_CHARS := by
    rw [PyStr.raw, List.length_map]
    exact Nat.not_lt.2 h.long
  rw [spelled, strip_raw, if_neg hlong, RawStr.clean?_raw]
  rfl

variable {scrubber : SecretScrubber}

theorem mem_secrets {value : RawStr} :
    value ∈ scrubber.secrets ↔ ∃ values, some values ∈ scrubber.sources ∧ value ∈ values := by
  simp [SecretScrubber.secrets, List.mem_flatten]

theorem mapM_of_isSome {β γ : Type} {f : β → Option γ} : ∀ {xs : List β},
    (∀ x ∈ xs, (f x).isSome = true) →
      ∃ ys, xs.mapM f = some ys ∧ ∀ y, y ∈ ys ↔ ∃ x ∈ xs, f x = some y := by
  intro xs
  induction xs with
  | nil => exact fun _ => ⟨[], rfl, by simp⟩
  | cons x xs ih =>
      intro h
      obtain ⟨ys, hys, hmem⟩ := ih fun x' hx' => h x' (List.mem_cons_of_mem x hx')
      obtain ⟨y, hy⟩ := Option.isSome_iff_exists.1 (h x (List.mem_cons_self ..))
      refine ⟨y :: ys, by simp [List.mapM_cons, hy, hys], fun z => ?_⟩
      rw [List.mem_cons, hmem]
      constructor
      · intro hz
        rcases hz with rfl | ⟨x', hx', hz⟩
        · exact ⟨x, List.mem_cons_self .., hy⟩
        · exact ⟨x', List.mem_cons_of_mem x hx', hz⟩
      · intro hz
        obtain ⟨x', hx', hz⟩ := hz
        rcases List.mem_cons.1 hx' with rfl | hx'
        · exact .inl (Option.some.inj (hz.symm.trans hy))
        · exact .inr ⟨x', hx', hz⟩

theorem mem_values {u : Surroundings} (h : Holds scrubber) :
    ∃ values, u.values scrubber = some values ∧ ∀ s, s ∈ values ↔
      ∃ full, PyStr.raw full ∈ scrubber.secrets ∧ s ∈ spellings (Text.strip full) := by
  have hread : ∀ source ∈ scrubber.sources, ∃ found,
      readSource scrubber.strict source = some found ∧ ∀ s, s ∈ found ↔
        ∃ values full, source = some values ∧ PyStr.raw full ∈ values
          ∧ s ∈ spellings (Text.strip full) := by
    intro source hsource
    cases source with
    | none =>
        refine ⟨[], ?_, by simp⟩
        rw [readSource, if_neg fun hstrict => h.read hstrict hsource]
    | some values =>
        have hsecret : ∀ value ∈ values, ∃ full, value = PyStr.raw full ∧ Secret full :=
          fun value hv => h.secret value (mem_secrets.2 ⟨values, hsource, hv⟩)
        obtain ⟨found, hfound, hmem⟩ := @mapM_of_isSome _ _ spelled values fun value hv => by
          obtain ⟨full, rfl, hfull⟩ := hsecret value hv
          rw [spelled_raw hfull]
          rfl
        refine ⟨found.flatten, by rw [readSource, hfound]; rfl, fun s => ?_⟩
        rw [List.mem_flatten]
        constructor
        · intro hs
          obtain ⟨ss, hss, hs⟩ := hs
          obtain ⟨value, hv, heq⟩ := (hmem ss).1 hss
          obtain ⟨full, rfl, hfull⟩ := hsecret value hv
          rw [spelled_raw hfull] at heq
          cases heq
          exact ⟨values, full, rfl, hv, hs⟩
        · intro hs
          obtain ⟨values', full, heq, hv, hs⟩ := hs
          cases heq
          obtain ⟨full', heq, hfull⟩ := hsecret _ hv
          have hfull' : full = full' := by
            have hclean := congrArg RawStr.clean? heq
            rw [RawStr.clean?_raw, RawStr.clean?_raw] at hclean
            exact Option.some.inj hclean
          exact ⟨_, (hmem _).2 ⟨_, hv, spelled_raw (hfull' ▸ hfull)⟩, hs⟩
  obtain ⟨found, hfound, hmem⟩ := @mapM_of_isSome _ _ (readSource scrubber.strict)
    scrubber.sources fun source hsource => by
      obtain ⟨found, heq, -⟩ := hread source hsource
      rw [heq]
      rfl
  refine ⟨_, by rw [Surroundings.values, SecretScrubber.found, hfound]; rfl, fun s => ?_⟩
  rw [List.mem_mergeSort, u.mem_listed, List.mem_flatten]
  constructor
  · intro hs
    obtain ⟨ss, hss, hs⟩ := hs
    obtain ⟨source, hsource, heq⟩ := (hmem ss).1 hss
    obtain ⟨found', heq', hmem'⟩ := hread source hsource
    cases heq.symm.trans heq'
    obtain ⟨values, full, rfl, hv, hs⟩ := (hmem' s).1 hs
    exact ⟨full, mem_secrets.2 ⟨values, hsource, hv⟩, hs⟩
  · intro hs
    obtain ⟨full, hfull, hs⟩ := hs
    obtain ⟨values, hsource, hv⟩ := mem_secrets.1 hfull
    obtain ⟨found', heq', hmem'⟩ := hread _ hsource
    exact ⟨found', (hmem _).2 ⟨_, hsource, heq'⟩, (hmem' s).2 ⟨values, full, rfl, hv, hs⟩⟩

-- ===== scrubbing

def Hides (scrubber : SecretScrubber) (out : RawStr) : Prop :=
  ∀ full, PyStr.raw full ∈ scrubber.secrets → ∀ s ∈ spellings full, ¬ s <:+: out

theorem hides_of_strip {out : RawStr}
    (h : ∀ full, PyStr.raw full ∈ scrubber.secrets →
      ∀ s ∈ spellings (Text.strip full), ¬ s <:+: out) : Hides scrubber out := by
  intro full hfull s hs hin
  obtain ⟨t, ht, hts⟩ := spellings_strip hs
  exact h full hfull t ht (hts.trans hin)

theorem maskable_value (h : Holds scrubber) {full : PyStr}
    (hfull : PyStr.raw full ∈ scrubber.secrets) :
    ∀ s ∈ spellings (Text.strip full), Maskable s := by
  obtain ⟨full', heq, hsecret⟩ := h.secret _ hfull
  have hclean := congrArg RawStr.clean? heq
  rw [RawStr.clean?_raw, RawStr.clean?_raw] at hclean
  cases hclean
  exact maskable_spellings hsecret.maskable

theorem free_of_values {isWord : Char → Bool} {env : PyStr → Option RawStr} {values : List RawStr}
    (hmask : ∀ s ∈ values, Maskable s) (text : RawStr) :
    ∀ s ∈ values, ¬ s <:+: redactSecrets isWord env (values.foldl redactValue text) := by
  intro s hs hin
  have hvalues := masks_redactSecrets isWord env s (hmask s hs) _ hin
  exact free_foldl (hmask s hs) (fun b hb => masks_redactValue (hmask b hb).something)
    ⟨s, hs, free_redactValue (hmask s hs)⟩ text hvalues

theorem scrub_hides {u : Surroundings} (h : Holds scrubber) (text : RawStr) :
    ∃ out, u.scrub scrubber text = some out
      ∧ (∀ full, PyStr.raw full ∈ scrubber.secrets →
          ∀ s ∈ spellings (Text.strip full), ¬ s <:+: out)
      ∧ (EnvMaskable u.env → u.scrub scrubber out = some out) := by
  obtain ⟨values, hvalues, hmem⟩ := mem_values (u := u) h
  have hmask : ∀ s ∈ values, Maskable s := by
    intro s hs
    obtain ⟨full, hfull, hs⟩ := (hmem s).1 hs
    exact maskable_value h hfull s hs
  by_cases htext : text = []
  · refine ⟨text, by rw [Surroundings.scrub, if_pos htext], fun full hfull s hs hin => ?_,
      fun _ => by rw [Surroundings.scrub, if_pos htext]⟩
    rw [htext, List.infix_nil] at hin
    exact (maskable_value h hfull s hs).something hin
  · refine ⟨redactSecrets u.isWord u.env (values.foldl redactValue text),
      by rw [Surroundings.scrub, if_neg htext, hvalues]; rfl, fun full hfull s hs => ?_,
      fun henv => ?_⟩
    · exact free_of_values hmask text s ((hmem s).2 ⟨full, hfull, hs⟩)
    · have hfree := @free_of_values u.isWord u.env _ hmask text
      generalize hout : redactSecrets u.isWord u.env (values.foldl redactValue text) = out at hfree
      rw [Surroundings.scrub]
      split
      next => rfl
      next =>
        rw [hvalues, Option.map_some, foldl_eq_self fun s hs => redactValue_eq_self (hfree s hs),
          ← hout, redactSecrets_idem henv]

-- ===== the cut

/-- A word in a text that is cut is in the text, or in the notice, or ends in
its beginning. -/
theorem ClearOf.absent {mark w front : RawStr} (h : ClearOf mark w) (hfront : ¬ w <:+: front) :
    ¬ w <:+: front ++ mark := by
  intro hin
  obtain ⟨a, z, heq⟩ := hin
  rcases List.append_eq_append_iff.1 heq.symm with ⟨y, haw, hmark⟩ | ⟨z', hf, -⟩
  · rcases List.append_eq_append_iff.1 haw with ⟨x, hf, hw⟩ | ⟨x, ha, hy⟩
    · cases y with
      | nil => exact hfront ⟨a, [], by rw [hf, hw]; simp⟩
      | cons c y => exact h.2 (c :: y) (by simp) ⟨z, hmark.symm⟩ ⟨x, hw.symm⟩
    · exact h.1 ⟨x, z, by rw [hmark, hy]⟩
  · exact hfront ⟨a, z', hf.symm⟩

theorem boundText_length_le (text : RawStr) : (boundText text).length ≤ MAX_OUTPUT_CHARS := by
  have hmark : TRUNCATION_MARKER.length ≤ MAX_OUTPUT_CHARS := by decide
  unfold boundText
  split
  next hshort => exact hshort
  next =>
    rw [List.length_append, List.length_take]
    omega

/-- Scrubbing is complete. -/
theorem scrub_complete (u : Surroundings) (h : Host) (scrubber : SecretScrubber)
    (hholds : Holds scrubber) (text : RawStr) :
    (∃ out, u.scrub scrubber text = some out ∧ Hides scrubber out
        ∧ (EnvMaskable u.env → u.scrub scrubber out = some out))
      ∧ (boundOutput (u.host scrubber h) text).1.length ≤ MAX_OUTPUT_CHARS
      ∧ ∀ full, PyStr.raw full ∈ scrubber.secrets →
          ((boundOutput (u.host scrubber h) text).2.1 = true → ClearOfNotice full) →
          ∀ s ∈ spellings full, ¬ s <:+: (boundOutput (u.host scrubber h) text).1 := by
  obtain ⟨out, hout, hhides, hidem⟩ := scrub_hides (u := u) hholds text
  obtain ⟨clean, hclean, hfree, -⟩ :=
    scrub_hides (u := u) hholds (redactSecrets u.isWord u.env text)
  have hsanitize : sanitize (u.host scrubber h) text = clean := by
    show (u.scrub scrubber (redactSecrets u.isWord u.env text)).getD SCRUB_FAILED_TEXT = clean
    rw [hclean]
    rfl
  refine ⟨⟨out, hout, hides_of_strip hhides, hidem⟩, boundText_length_le _,
    fun full hfull hclear s hs hin => ?_⟩
  simp only [boundOutput, hsanitize, decide_eq_true_eq] at hclear hin
  obtain ⟨t, ht, hts⟩ := spellings_strip hs
  have hint := hts.trans hin
  unfold boundText at hint
  split at hint
  next => exact hfree full hfull t ht hint
  next hlong =>
    refine (hclear (Nat.lt_of_not_le hlong) t ht).absent (fun hin => ?_) hint
    exact hfree full hfull t ht (hin.trans (List.take_prefix _ _).isInfix)

def bareSurroundings : Surroundings where
  env _ := none
  isWord c := Text.isAlnum c || c == '_'
  listed := List.dedup
  mem_listed _ _ := List.mem_dedup
  nodup_listed := List.nodup_dedup

def holding (values : List RawStr) : SecretScrubber where
  sources := [some values]

def bareHost : Host where
  argumentDigest s := s
  callDigest _ s := s
  isJsonObject _ := some true
  redact s := s
  scrub := none

def twoSecrets : SecretScrubber :=
  holding [PyStr.raw "hunter2 x/y".toList, PyStr.raw "hunter2 x/y\"z".toList]

def spelledText : RawStr := PyStr.raw "hunter2 x/y\\\"z, hunter2%20x%2Fy%22z, hunter2 x/y".toList

theorem scrub_complete_two :
    ∃ out, bareSurroundings.scrub twoSecrets spelledText = some out ∧ Hides twoSecrets out
      ∧ bareSurroundings.scrub twoSecrets out = some out := by
  have hholds : Holds twoSecrets := by
    refine ⟨fun value hv => ?_, fun hstrict => (by cases hstrict)⟩
    have hv : value ∈ [PyStr.raw "hunter2 x/y".toList, PyStr.raw "hunter2 x/y\"z".toList] := hv
    simp only [List.mem_cons, List.not_mem_nil, or_false] at hv
    rcases hv with rfl | rfl
    · exact ⟨_, rfl, by decide, by decide, by decide, by decide⟩
    · exact ⟨_, rfl, by decide, by decide, by decide, by decide⟩
  obtain ⟨⟨out, hout, hhides, hidem⟩, -, -⟩ :=
    scrub_complete bareSurroundings bareHost twoSecrets hholds spelledText
  exact ⟨out, hout, hhides, hidem fun var _ value hvalue => by cases hvalue⟩

-- ===== where the claim goes wrong

theorem not_infix_stars {w : RawStr} (hstar : some '*' ∉ w) (hne : w ≠ []) (n : Nat) :
    ¬ w <:+: List.replicate n (some '*') := by
  intro hin
  obtain ⟨c, w, rfl⟩ := List.exists_cons_of_ne_nil hne
  have hc := List.eq_of_mem_replicate (hin.subset (List.mem_cons_self ..))
  exact hstar (hc ▸ List.mem_cons_self ..)

theorem redactSecrets_stars (n : Nat) :
    redactSecrets bareSurroundings.isWord bareSurroundings.env (List.replicate n (some '*'))
      = List.replicate n (some '*') := by
  unfold redactSecrets
  split
  next => rfl
  next =>
    rw [foldl_eq_self fun var (_ : var ∈ SECRET_ENV_VARS) => rfl]
    exact foldl_eq_self fun pattern hp => redactPattern_of_free hp fun w hstar hne =>
      not_infix_stars hstar hne n

theorem scrub_stars (h : Holds scrubber) (n : Nat) :
    bareSurroundings.scrub scrubber (List.replicate n (some '*'))
      = some (List.replicate n (some '*')) := by
  obtain ⟨values, hvalues, hmem⟩ := @mem_values scrubber bareSurroundings h
  rw [Surroundings.scrub]
  split
  next => rfl
  next =>
    rw [hvalues, Option.map_some, foldl_eq_self fun s hs => ?_, redactSecrets_stars]
    obtain ⟨full, hfull, hs⟩ := (hmem s).1 hs
    have hmask := maskable_value h hfull s hs
    exact redactValue_eq_self (not_infix_stars hmask.starless hmask.something n)

theorem holds_truncated : Holds (holding [PyStr.raw "truncated".toList]) := by
  refine ⟨fun value hv => ?_, fun hstrict => (by cases hstrict)⟩
  have hv : value ∈ [PyStr.raw "truncated".toList] := hv
  rw [List.mem_singleton.1 hv]
  exact ⟨_, rfl, by decide, by decide, by decide, by decide⟩

theorem sanitize_stars (n : Nat) :
    sanitize (bareSurroundings.host (holding [PyStr.raw "truncated".toList]) bareHost)
      (List.replicate n (some '*')) = List.replicate n (some '*') := by
  show (bareSurroundings.scrub _ (redactSecrets bareSurroundings.isWord bareSurroundings.env
    (List.replicate n (some '*')))).getD SCRUB_FAILED_TEXT = _
  rw [redactSecrets_stars, scrub_stars holds_truncated, Option.getD_some]

theorem values_redacted :
    bareSurroundings.values (holding [PyStr.raw " REDACTED".toList])
      = some [PyStr.raw "REDACTED".toList] := by
  have hfound : (holding [PyStr.raw " REDACTED".toList]).found
      = some (List.replicate 3 (PyStr.raw "REDACTED".toList)) := by decide +kernel
  have hlisted : bareSurroundings.listed (List.replicate 3 (PyStr.raw "REDACTED".toList))
      = [PyStr.raw "REDACTED".toList] := by decide +kernel
  rw [Surroundings.values, hfound, Option.map_some, hlisted, List.mergeSort_singleton]

theorem scrub_redacted (text : RawStr) (htext : text ≠ []) :
    bareSurroundings.scrub (holding [PyStr.raw " REDACTED".toList]) text
      = some (redactSecrets bareSurroundings.isWord bareSurroundings.env
          (redactValue text (PyStr.raw "REDACTED".toList))) := by
  rw [Surroundings.scrub, if_neg htext, values_redacted]
  rfl

/-- A value that is short between its white space is passed over; one that
is the placeholder's word there is replaced again and again; one that the
notice shows is shown by it; and where one does not encode, nothing comes
back. -/
theorem not_scrub_claimed :
    bareSurroundings.scrub (holding [PyStr.raw "a       ".toList]) (PyStr.raw "a       ".toList)
        = some (PyStr.raw "a       ".toList)
      ∧ ((bareSurroundings.scrub (holding [PyStr.raw " REDACTED".toList])
            (PyStr.raw "REDACTED".toList)).bind
          (bareSurroundings.scrub (holding [PyStr.raw " REDACTED".toList])))
        ≠ bareSurroundings.scrub (holding [PyStr.raw " REDACTED".toList])
            (PyStr.raw "REDACTED".toList)
      ∧ PyStr.raw "truncated".toList <:+:
          (boundOutput (bareSurroundings.host (holding [PyStr.raw "truncated".toList]) bareHost)
            (List.replicate 20001 (some '*'))).1
      ∧ bareSurroundings.scrub (holding [List.replicate 8 none]) (PyStr.raw "a".toList) = none := by
  refine ⟨?_, ?_, ?_, by decide +kernel⟩
  · have hvalues : bareSurroundings.values (holding [PyStr.raw "a       ".toList]) = some [] := by
      have hfound : (holding [PyStr.raw "a       ".toList]).found = some [] := by decide +kernel
      rw [Surroundings.values, hfound, Option.map_some,
        show bareSurroundings.listed [] = [] from rfl, List.mergeSort_nil]
    rw [Surroundings.scrub, hvalues]
    decide +kernel
  · rw [scrub_redacted _ (by decide), Option.bind_some, scrub_redacted _ (by decide +kernel)]
    decide +kernel
  · have hclean := sanitize_stars 20001
    rw [boundOutput, hclean, boundText, if_neg]
    · have hmark : PyStr.raw "truncated".toList <:+: TRUNCATION_MARKER := by decide
      exact hmark.trans (List.suffix_append _ _).isInfix
    · rw [List.length_replicate]
      decide

end Velune.Engine
