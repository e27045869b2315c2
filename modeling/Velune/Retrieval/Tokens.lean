/-
What the lexical index finds (`retrieval/keyword.py`): tokens, and the
documents that share one with a query.

A word is a token whole, and by its humps where it has several. The humps are
ASCII, whereas a word is not, so a part with other letters is no token of its
own; nor is one whose humps are all short or stop words, or any part of a word
that is a stop word itself. Every other part of an identifier is found, from
the part alone (`findsPart_iff`).

The scores are a parameter.
-/
import Mathlib.Data.List.Dedup
import Mathlib.Data.List.Sort
import Mathlib.Data.Rat.Floor
import Velune.Lib.SplitText
import Velune.Retrieval.Keyword

namespace Velune.Retrieval

open Lib Lib.Text

-- ===== tokens

/-- What `\w` matches, and `str.lower`. -/
structure Unicode where
  word : Char → Bool
  lower : PyStr → PyStr
  word_alnum : ∀ c, isAlnum c = true → word c = true
  word_underscore : word '_' = true
  length_lower : ∀ s, s.length ≤ (lower s).length
  length_lower_alnum : ∀ s, (∀ c ∈ s, isAlnum c = true) → (lower s).length = s.length
  lower_underscore : ∀ s, '_' ∈ lower s ↔ '_' ∈ s

def STOP_WORDS : List PyStr :=
  ["a", "an", "the", "and", "or", "but", "if", "then", "else", "to", "of", "in", "for", "on", "with",
    "at", "by", "from", "is", "this", "that"].map String.toList

def keeps (token : PyStr) : Bool := 1 < token.length ∧ token ∉ STOP_WORDS

/-- `[a-z0-9]`. -/
def small (c : Char) : Bool := isLower c || isDigit c

/-- The length of a match of `_HUMP_RE` at the front, or zero. -/
def humpLength (s : PyStr) : Nat :=
  let caps := s.takeWhile isUpper
  let tail := s.dropWhile isUpper
  -- a capital before a small letter is no part of a run of capitals
  let run := if tail.head?.any isLower then caps.length - 1 else caps.length
  if run ≠ 0 then run else caps.length + (tail.takeWhile small).length

/-- `_HUMP_RE.findall`, past the characters of a match. -/
def humpsFrom : Nat → PyStr → List PyStr
  | _, [] => []
  | n + 1, _ :: s => humpsFrom n s
  | 0, c :: s =>
      match humpLength (c :: s) with
      | 0 => humpsFrom 0 s
      | n + 1 => (c :: s).take (n + 1) :: humpsFrom n s

def humps (word : PyStr) : List PyStr := (splitText ['_'] word).flatMap (humpsFrom 0)

section Retrieve

variable (u : Unicode)

/-- `_WORD_RE.findall`. -/
def words (text : PyStr) : List PyStr := (text.splitOnP fun c => !u.word c).filter (· ≠ [])

def wordTokens (word : PyStr) : List PyStr :=
  if keeps (u.lower word) then
    let parts := (humps word).map u.lower
    u.lower word :: if 1 < parts.length then parts.filter keeps else []
  else []

def tokenize (text : PyStr) : List PyStr := (words u text).flatMap (wordTokens u)

def BM25Retriever.ensureIndex (b : BM25Retriever) : BM25Retriever :=
  if b.dirty = true ∧ b.corpus ≠ [] then { b with bm25 := some b.corpus, dirty := false } else b

/-- `get_scores`, of an index and the tokens of a query, for each document. -/
abbrev Scores := List (List PyStr) → List PyStr → Nat → Rat

/-- The candidates with their scores and overlaps; an empty namespace is
none. -/
def BM25Retriever.scored (b : BM25Retriever) (score : Nat → Rat) (query : List PyStr)
    (space : Option PyStr) : List (Rat × Nat × RetrievalDocument) :=
  (b.documents.zip b.corpus).zipIdx.filterMap fun ((doc, tokens), i) =>
    if (space.filter (· ≠ [])).any (· ≠ doc.space) then none
    else if (query.dedup.filter (· ∈ tokens)).length = 0 then none
    else some (score i, (query.dedup.filter (· ∈ tokens)).length, doc)

structure LexicalHit where
  document : RetrievalDocument
  score : Rat
  rank : Nat

def BM25Retriever.retrieve (scores : Scores) (b : BM25Retriever) (query : PyStr) (topK : Nat)
    (space : Option PyStr) : List LexicalHit :=
  if b.documents = [] then []
  else
    match b.ensureIndex.bm25 with
    | none => []
    | some index =>
        ((((b.scored (scores index (tokenize u query)) (tokenize u query) space).insertionSort
          fun s t => t.1 < s.1 ∨ t.1 = s.1 ∧ t.2.1 ≤ s.2.1).take topK).zipIdx).map fun (hit, i) =>
            ⟨hit.2.2, max 0 hit.1, i + 1⟩

-- ===== property

inductive Filled : BM25Retriever → Prop
  | new : Filled .new
  | add {b : BM25Retriever} (docs : List RetrievalDocument) (h : Filled b) :
      Filled (b.addDocuments (tokenize u) docs)
  | asked {b : BM25Retriever} (h : Filled b) : Filled b.ensureIndex

def Part (p : PyStr) : Prop := 2 ≤ p.length ∧ u.lower p ∉ STOP_WORDS

/-- Capitals with the small letters and digits behind them; before a small
letter there is one capital at most. -/
def Hump (p : PyStr) : Prop := ∃ caps body, p = caps ++ body ∧ (∀ c ∈ caps, isUpper c = true) ∧
  (∀ c ∈ body, small c = true) ∧ (body.head?.any isLower = true → caps.length ≤ 1)

/-- A hump ends where a capital stands behind it, which is not one more of its
own capitals. -/
def Ends (p next : PyStr) : Prop := ∀ c t, next = c :: t →
  isUpper c = true ∧ (p.getLast?.any small = true ∨ t.head?.any isLower = true)

inductive Identifier : PyStr → List PyStr → Prop
  | underscores {parts : List PyStr} (htwo : 2 ≤ parts.length) (hparts : ∀ p ∈ parts, Part u p)
      (hword : ∀ p ∈ parts, ∀ c ∈ p, u.word c = true ∧ c ≠ '_') :
      Identifier (join ['_'] parts) parts
  | camel {parts : List PyStr} (htwo : 2 ≤ parts.length) (hparts : ∀ p ∈ parts, Part u p)
      (hhumps : ∀ p ∈ parts, Hump p) (hends : parts.IsChain Ends) :
      Identifier parts.flatten parts

def InSpace (space : Option PyStr) (doc : RetrievalDocument) : Prop := ∀ s, space = some s → doc.space = s

/-- A document with the identifier is found by a query with the part as a
word; nothing of another namespace and nothing unlike the query is. -/
structure FindsPart (identifier part : PyStr) (space : Option PyStr) : Prop where
  found : ∀ b, Filled u b → ∀ doc ∈ b.documents, InSpace space doc → identifier ∈ words u doc.content →
    ∀ query, part ∈ words u query → ∀ scores topK, b.documents.length ≤ topK →
      doc ∈ (b.retrieve u scores query topK space).map (·.document)
  only : ∀ b, Filled u b → ∀ scores query topK, ∀ hit ∈ b.retrieve u scores query topK space,
    InSpace space hit.document ∧ ∃ token ∈ tokenize u query, token ∈ tokenize u hit.document.content

/-- The identifier is no stop word and has several humps, and in lower case
the part is one of them, or has several itself, one of them no short or stop
word. -/
structure Reached (identifier part : PyStr) : Prop where
  named : u.lower identifier ∉ STOP_WORDS
  several : 1 < (humps identifier).length
  shared : u.lower part ∈ (humps identifier).map u.lower ∨
    1 < (humps part).length ∧ ∃ h ∈ humps part, keeps (u.lower h) = true

end Retrieve

-- ===== humps

theorem humpsFrom_skip (s : PyStr) : ∀ t : PyStr, humpsFrom t.length (t ++ s) = humpsFrom 0 s
  | [] => rfl
  | _ :: t => humpsFrom_skip s t

theorem humpsFrom_match {t s : PyStr} (ht : t ≠ []) (h : humpLength (t ++ s) = t.length) :
    humpsFrom 0 (t ++ s) = t :: humpsFrom 0 s := by
  obtain ⟨c, t, rfl⟩ := List.exists_cons_of_ne_nil ht
  rw [List.cons_append] at h ⊢
  rw [humpsFrom, h, List.length_cons]
  have htake : ((c :: t) ++ s).take (c :: t).length = c :: t := List.take_left
  exact congrArg₂ List.cons htake (humpsFrom_skip s t)

theorem humpsFrom_piece : ∀ (s : PyStr) (n : Nat), ∀ h ∈ humpsFrom n s, h <:+: s
  | [], _, h, hh => by cases hh
  | c :: s, n + 1, h, hh => (humpsFrom_piece s n h hh).trans (List.suffix_cons c s).isInfix
  | c :: s, 0, h, hh => by
      rw [humpsFrom] at hh
      split at hh
      next => exact (humpsFrom_piece s 0 h hh).trans (List.suffix_cons c s).isInfix
      next n _ =>
        rcases List.mem_cons.1 hh with rfl | hh
        · exact (List.take_prefix ..).isInfix
        · exact (humpsFrom_piece s n h hh).trans (List.suffix_cons c s).isInfix

theorem small_of_upper {c : Char} (h : isUpper c = true) : small c = false := by
  simp only [isUpper, small, isLower, isDigit, Bool.and_eq_true, decide_eq_true_eq, Char.le_def,
    UInt32.le_iff_toNat_le] at h ⊢
  rw [Bool.or_eq_false_iff, Bool.and_eq_false_iff, Bool.and_eq_false_iff]
  simp only [decide_eq_false_iff_not]
  have h0 := h.1
  have h1 := h.2
  change 65 ≤ _ at h0
  change _ ≤ 90 at h1
  exact ⟨.inl fun h => (by change 97 ≤ _ at h; omega), .inr fun h => (by change _ ≤ 57 at h; omega)⟩

theorem takeWhile_all {p : Char → Bool} {a s : PyStr} (ha : ∀ c ∈ a, p c = true)
    (hs : s.head?.any p = false) : (a ++ s).takeWhile p = a ∧ (a ++ s).dropWhile p = s := by
  rw [List.takeWhile_append_of_pos ha, List.dropWhile_append_of_pos ha]
  cases s with
  | nil => exact ⟨List.append_nil _, rfl⟩
  | cons c t =>
      have hc : p c = false := hs
      rw [List.takeWhile_cons_of_neg (by rw [hc]; exact Bool.false_ne_true),
        List.dropWhile_cons_of_neg (by rw [hc]; exact Bool.false_ne_true), List.append_nil]
      exact ⟨rfl, rfl⟩

theorem humpLength_append {caps : PyStr} (s : PyStr) (hcaps : ∀ c ∈ caps, isUpper c = true)
    (hs : s.head?.any isUpper = false) : humpLength (caps ++ s) =
      if (if s.head?.any isLower then caps.length - 1 else caps.length) ≠ 0 then
        if s.head?.any isLower then caps.length - 1 else caps.length
      else caps.length + (s.takeWhile small).length := by
  rw [humpLength, (takeWhile_all hcaps hs).1, (takeWhile_all hcaps hs).2]

theorem Ends.stops {p next : PyStr} (h : Ends p next) : next.head?.any small = false := by
  cases next with
  | nil => rfl
  | cons c t => exact small_of_upper (h c t rfl).1

theorem humpsFrom_body {body next : PyStr} (hne : body ≠ []) (hbody : ∀ c ∈ body, small c = true)
    (hnext : next.head?.any small = false) :
    humpsFrom 0 (body ++ next) = body :: humpsFrom 0 next := by
  obtain ⟨b, rest, rfl⟩ := List.exists_cons_of_ne_nil hne
  have hb : isUpper b = false := Bool.eq_false_iff.2 fun h => by
    cases (small_of_upper h).symm.trans (hbody b (List.mem_cons_self ..))
  refine humpsFrom_match hne ?_
  have hnone : ∀ c ∈ ([] : PyStr), isUpper c = true := fun _ h => absurd h List.not_mem_nil
  refine (humpLength_append (b :: rest ++ next) hnone hb).trans ?_
  rw [if_neg (by split <;> exact fun h => h rfl), (takeWhile_all hbody hnext).1, List.length_nil,
    Nat.zero_add]

/-- What a hump is split into does not depend on what stands behind it. -/
theorem exists_humps {p : PyStr} (hp : Hump p) (hlen : 2 ≤ p.length) :
    ∃ hs, ∀ next, Ends p next → humpsFrom 0 (p ++ next) = hs ++ humpsFrom 0 next := by
  obtain ⟨caps, body, rfl, hcaps, hbody, hone⟩ := hp
  cases body with
  | nil =>
      rw [List.append_nil] at hlen ⊢
      have hne : caps ≠ [] := List.ne_nil_of_length_pos (Nat.lt_of_lt_of_le Nat.two_pos hlen)
      refine ⟨[caps], fun next hends => humpsFrom_match hne ?_⟩
      cases next with
      | nil =>
          have hend := humpLength_append [] hcaps rfl
          rw [List.append_nil] at hend ⊢
          rw [hend]
          exact if_pos (show caps.length ≠ 0 by omega)
      | cons c t =>
          obtain ⟨hc, hlast | hlower⟩ := hends c t rfl
          · rw [List.getLast?_eq_some_getLast hne, Option.any_some,
              small_of_upper (hcaps _ (List.getLast_mem hne))] at hlast
            cases hlast
          · have hstop : t.head?.any isUpper = false := by
              cases t with
              | nil => rfl
              | cons d t =>
                  exact Bool.eq_false_iff.2 fun hd => by
                    have hs := small_of_upper hd
                    rw [small, show isLower d = true from hlower] at hs
                    cases hs
            have hall : ∀ d ∈ caps ++ [c], isUpper d = true := fun d hd => by
              rcases List.mem_append.1 hd with hd | hd
              · exact hcaps d hd
              · exact List.mem_singleton.1 hd ▸ hc
            rw [List.append_cons, humpLength_append t hall hstop, if_pos hlower, List.length_append]
            exact if_pos (show caps.length + 1 - 1 ≠ 0 by omega)
  | cons b rest =>
      have hb : isUpper b = false := Bool.eq_false_iff.2 fun h => by
        cases (small_of_upper h).symm.trans (hbody b (List.mem_cons_self ..))
      by_cases hrun : (if isLower b then caps.length - 1 else caps.length) = 0
      · refine ⟨[caps ++ b :: rest], fun next hends => humpsFrom_match
          (List.append_ne_nil_of_right_ne_nil _ (List.cons_ne_nil b rest)) ?_⟩
        rw [List.append_assoc, humpLength_append (b :: rest ++ next) hcaps hb, if_neg fun h => h hrun,
          (takeWhile_all hbody hends.stops).1, List.length_append]
      · have hdigit : isLower b = false := Bool.eq_false_iff.2 fun hlower => hrun (by
          have := hone hlower
          rw [if_pos hlower]
          omega)
        rw [if_neg (by rw [hdigit]; exact Bool.false_ne_true)] at hrun
        refine ⟨[caps, b :: rest], fun next hends => ?_⟩
        rw [List.append_assoc, humpsFrom_match (List.ne_nil_of_length_pos (by omega)),
          humpsFrom_body (List.cons_ne_nil b rest) hbody hends.stops]
        · rfl
        · rw [humpLength_append (b :: rest ++ next) hcaps hb, List.cons_append, List.head?_cons, Option.any_some, hdigit]
          exact if_pos hrun

theorem humpsFrom_flatten : ∀ {parts : List PyStr}, (∀ p ∈ parts, Hump p ∧ 2 ≤ p.length) →
    parts.IsChain Ends → humpsFrom 0 parts.flatten = parts.flatMap (humpsFrom 0)
  | [], _, _ => rfl
  | p :: rest, hparts, hends => by
      obtain ⟨hp, hlen⟩ := hparts p (List.mem_cons_self ..)
      obtain ⟨hs, hall⟩ := exists_humps hp hlen
      have hnil := hall [] fun _ _ h => by cases h
      rw [List.append_nil, humpsFrom, List.append_nil] at hnil
      rw [List.flatten_cons, List.flatMap_cons, hnil, hall, humpsFrom_flatten
        (fun q hq => hparts q (List.mem_cons_of_mem _ hq)) hends.of_cons]
      intro c t hnext
      cases rest with
      | nil => cases hnext
      | cons q later =>
          obtain ⟨hq, hfollows⟩ := hparts q (List.mem_cons_of_mem _ (List.mem_cons_self ..))
          obtain ⟨x, y, q, rfl⟩ : ∃ x y q', q = x :: y :: q' := by
            match q, hfollows with
            | x :: y :: q', _ => exact ⟨x, y, q', rfl⟩
          cases hnext
          exact (List.isChain_cons_cons.1 hends).1 _ (y :: q) rfl

-- ===== identifiers

section Found

variable {u : Unicode} {identifier part : PyStr} {parts : List PyStr} {b : BM25Retriever}

theorem words_word {w : PyStr} (hne : w ≠ []) (hw : ∀ c ∈ w, u.word c = true) : words u w = [w] := by
  rw [words, List.splitOnP_eq_singleton fun c hc => by rw [hw c hc]; rfl]
  exact List.filter_cons_of_pos (decide_eq_true hne)

theorem humps_plain {w : PyStr} (h : '_' ∉ w) : humps w = humpsFrom 0 w := by
  rw [humps, splitText_of_not_mem h, List.flatMap_singleton]

theorem join_spec : ∀ {parts : List PyStr}, parts ≠ [] → (∀ p ∈ parts, '_' ∉ p) →
    splitText ['_'] (join ['_'] parts) = parts ∧
      ∀ c ∈ join ['_'] parts, c = '_' ∨ ∃ p ∈ parts, c ∈ p
  | [p], _, h => by
      have hjoin : join ['_'] [p] = p := List.append_nil p
      rw [hjoin]
      exact ⟨splitText_of_not_mem (h p (List.mem_cons_self ..)), fun c hc =>
        .inr ⟨p, List.mem_cons_self .., hc⟩⟩
  | p :: q :: rest, _, h => by
      have hjoin : join ['_'] (p :: q :: rest) = p ++ '_' :: join ['_'] (q :: rest) := rfl
      obtain ⟨hsplit, hmem⟩ := join_spec (List.cons_ne_nil q rest)
        fun r hr => h r (List.mem_cons_of_mem _ hr)
      rw [hjoin, splitText_singleton (h p (List.mem_cons_self ..)), hsplit]
      refine ⟨rfl, fun c hc => ?_⟩
      rcases List.mem_append.1 hc with hc | hc
      · exact .inr ⟨p, List.mem_cons_self .., hc⟩
      · rcases List.mem_cons.1 hc with rfl | hc
        · exact .inl rfl
        · exact (hmem c hc).imp_right fun ⟨r, hr, hcr⟩ => ⟨r, List.mem_cons_of_mem _ hr, hcr⟩

theorem Hump.alnum {p : PyStr} (h : Hump p) : ∀ c ∈ p, isAlnum c = true := by
  obtain ⟨caps, body, rfl, hcaps, hbody, -⟩ := h
  intro c hc
  rcases List.mem_append.1 hc with hc | hc
  · rw [isAlnum, hcaps c hc, Bool.or_true, Bool.true_or]
  · have hsmall := hbody c hc
    rw [small, Bool.or_eq_true] at hsmall
    rcases hsmall with h | h <;> simp [isAlnum, h]

/-- What an identifier is to its parts: a word of theirs, with their humps,
that in lower case is unlike every piece of them. -/
structure Made (u : Unicode) (identifier : PyStr) (parts : List PyStr) : Prop where
  word : ∀ c ∈ identifier, u.word c = true
  pieces : ∀ p ∈ parts, p ≠ [] ∧ '_' ∉ p ∧ ∀ c ∈ p, u.word c = true
  joined : humps identifier = parts.flatMap humps
  apart : ∀ p ∈ parts, ∀ s, s <:+: p → u.lower s ≠ u.lower identifier
  two : 2 ≤ identifier.length

theorem Identifier.made (h : Identifier u identifier parts) : Made u identifier parts := by
  cases h with
  | underscores htwo hparts hword =>
      obtain ⟨p, q, rest, rfl⟩ : ∃ p q rest, parts = p :: q :: rest := by
        match parts, htwo with
        | p :: q :: rest, _ => exact ⟨p, q, rest, rfl⟩
      have hfree : ∀ r ∈ p :: q :: rest, '_' ∉ r := fun r hr hc => (hword r hr _ hc).2 rfl
      obtain ⟨hsplit, hmem⟩ := join_spec (List.cons_ne_nil p (q :: rest)) hfree
      have hmark : '_' ∈ join ['_'] (p :: q :: rest) :=
        List.mem_append_right p (List.mem_cons_self ..)
      refine ⟨fun c hc => ?_, fun r hr => ⟨?_, hfree r hr, fun c hc =>
        (hword r hr c hc).1⟩, ?_, ?_, ?_⟩
      · rcases hmem c hc with rfl | ⟨r, hr, hcr⟩
        · exact u.word_underscore
        · exact (hword r hr c hcr).1
      · exact List.ne_nil_of_length_pos (Nat.lt_of_lt_of_le Nat.two_pos (hparts r hr).1)
      · rw [Retrieval.humps, hsplit]
        exact (List.flatMap_congr fun r hr => humps_plain (hfree r hr)).symm
      · intro r hr s hs heq
        have hlow := (u.lower_underscore s).1 (heq ▸ (u.lower_underscore _).2 hmark)
        exact hfree r hr (hs.subset hlow)
      · have hp := (hparts p (List.mem_cons_self ..)).1
        exact hp.trans (List.prefix_append p _).length_le
  | camel htwo hparts hhumps hends =>
      have halnum : ∀ c ∈ parts.flatten, isAlnum c = true := fun c hc => by
        obtain ⟨p, hp, hcp⟩ := List.mem_flatten.1 hc
        exact (hhumps p hp).alnum c hcp
      have hfree : ∀ w : PyStr, (∀ c ∈ w, isAlnum c = true) → '_' ∉ w := fun w hw hc => by
        cases hw _ hc
      have hlonger : ∀ p ∈ parts, p.length + 2 ≤ parts.flatten.length := fun p hp => by
        obtain ⟨before, later, rfl⟩ := List.append_of_mem hp
        have hrest : before ++ later ≠ [] := List.ne_nil_of_length_pos (by
          rw [List.length_append, List.length_cons] at htwo
          rw [List.length_append]
          omega)
        obtain ⟨q, hq⟩ := List.exists_mem_of_ne_nil _ hrest
        have hlen := (hparts q (by
          rw [List.mem_append, List.mem_cons]
          exact (List.mem_append.1 hq).imp_right .inr)).1
        have hle := (List.sublist_flatten_of_mem hq).length_le
        simp only [List.flatten_append, List.flatten_cons, List.length_append] at hle ⊢
        omega
      refine ⟨fun c hc => u.word_alnum c (halnum c hc), fun p hp => ⟨?_, hfree p (hhumps p hp).alnum,
        fun c hc => u.word_alnum c ((hhumps p hp).alnum c hc)⟩, ?_, ?_, ?_⟩
      · exact List.ne_nil_of_length_pos (Nat.lt_of_lt_of_le Nat.two_pos (hparts p hp).1)
      · rw [humps_plain (hfree _ halnum), humpsFrom_flatten (fun p hp => ⟨hhumps p hp, (hparts p hp).1⟩) hends]
        exact (List.flatMap_congr fun p hp => humps_plain (hfree p (hhumps p hp).alnum)).symm
      · intro p hp s hs heq
        have hlen := congrArg List.length heq
        rw [u.length_lower_alnum _ halnum, u.length_lower_alnum s fun c hc =>
          (hhumps p hp).alnum c (hs.subset hc)] at hlen
        have := hs.length_le
        have := hlonger p hp
        omega
      · obtain ⟨p, hp⟩ := List.exists_mem_of_ne_nil parts (List.ne_nil_of_length_pos (by omega))
        exact (Nat.le_add_left 2 _).trans (hlonger p hp)

-- ===== retrieval

theorem Filled.kept (h : Filled u b) :
    b.corpus = b.documents.map (fun doc => tokenize u doc.content) ∧
      (b.documents ≠ [] → b.dirty = true ∨ b.bm25 ≠ none) := by
  induction h with
  | new => exact ⟨rfl, fun h => absurd rfl h⟩
  | add docs _ ih =>
      refine ⟨?_, fun _ => .inl rfl⟩
      rw [BM25Retriever.addDocuments, List.map_append, ih.1]
  | asked _ ih =>
      unfold BM25Retriever.ensureIndex
      split
      next => exact ⟨ih.1, fun _ => .inr fun h => by cases h⟩
      next => exact ih

theorem Filled.indexed (h : Filled u b) (hne : b.documents ≠ []) :
    ∃ index, b.ensureIndex.bm25 = some index := by
  obtain ⟨hcorpus, hready⟩ := h.kept
  unfold BM25Retriever.ensureIndex
  split
  next => exact ⟨_, rfl⟩
  next hnot =>
    rcases hready hne with hdirty | hbm25
    · exact absurd ⟨hdirty, fun hnil => hne (List.map_eq_nil_iff.1 (hcorpus.symm.trans hnil))⟩ hnot
    · exact Option.ne_none_iff_exists'.1 hbm25

structure Hit (u : Unicode) (b : BM25Retriever) (query : PyStr) (space : Option PyStr)
    (doc : RetrievalDocument) : Prop where
  mem : doc ∈ b.documents
  within : ∀ s, space = some s → s ≠ [] → doc.space = s
  shares : ∃ token ∈ tokenize u query, token ∈ tokenize u doc.content

theorem mem_scored (h : Filled u b) {score : Nat → Rat} {query : PyStr} {space : Option PyStr}
    {doc : RetrievalDocument} :
    doc ∈ (b.scored score (tokenize u query) space).map (·.2.2) ↔ Hit u b query space doc := by
  have hzip : b.documents.zip b.corpus = b.documents.map fun doc => (doc, tokenize u doc.content) := by
    have hboth := List.zip_map' (l := b.documents) (f := id) (g := fun doc => tokenize u doc.content)
    rwa [List.map_id, ← h.kept.1] at hboth
  have hspace : ∀ doc : RetrievalDocument, (space.filter (· ≠ [])).any (· ≠ doc.space) = true ↔
      ¬ ∀ s, space = some s → s ≠ [] → doc.space = s := fun doc => by
    cases space with
    | none => simp
    | some s =>
        have hone : (∀ t, some s = some t → t ≠ [] → doc.space = t) ↔ (s ≠ [] → doc.space = s) :=
          ⟨fun h => h s rfl, fun h t ht => Option.some.inj ht ▸ h⟩
        rw [hone, Option.filter_some]
        by_cases hs : s = []
        · simp [hs]
        · rw [if_pos (decide_eq_true hs), Option.any_some, decide_eq_true_iff]
          exact ⟨fun hne h => hne (h hs).symm, fun h heq => h fun _ => heq.symm⟩
  have hnone : ∀ tokens : List PyStr,
      ((tokenize u query).dedup.filter (· ∈ tokens)).length = 0 ↔
        ¬ ∃ token ∈ tokenize u query, token ∈ tokens := fun tokens => by
    rw [List.length_eq_zero_iff, List.filter_eq_nil_iff]
    simp
  rw [List.mem_map, BM25Retriever.scored, hzip]
  constructor
  · rintro ⟨hit, hhit, rfl⟩
    obtain ⟨⟨pair, i⟩, hpair, hsome⟩ := List.mem_filterMap.1 hhit
    obtain ⟨doc, hdoc, rfl⟩ := List.mem_map.1 (List.fst_mem_of_mem_zipIdx hpair)
    dsimp only at hsome
    rw [Option.ite_none_left_eq_some, Option.ite_none_left_eq_some, hspace, hnone, not_not,
      not_not] at hsome
    obtain ⟨hin, hshared, heq⟩ := hsome
    obtain rfl := Option.some.inj heq
    exact ⟨hdoc, hin, hshared⟩
  · intro hhit
    obtain ⟨i, hi⟩ := List.mem_iff_getElem?.1 (List.mem_map_of_mem
      (f := fun doc => (doc, tokenize u doc.content)) hhit.mem)
    refine ⟨(score i, ((tokenize u query).dedup.filter (· ∈ tokenize u doc.content)).length, doc),
      List.mem_filterMap.2 ⟨⟨_, i⟩, List.mem_zipIdx_iff_getElem?.2 hi, ?_⟩, rfl⟩
    dsimp only
    rw [if_neg ((hspace doc).not.2 (not_not.2 hhit.within)),
      if_neg ((hnone _).not.2 (not_not.2 hhit.shares))]

theorem mem_retrieve (h : Filled u b) {scores : Scores} {query : PyStr} {topK : Nat}
    {space : Option PyStr} {doc : RetrievalDocument} :
    (doc ∈ (b.retrieve u scores query topK space).map (·.document) → Hit u b query space doc) ∧
      (b.documents.length ≤ topK → Hit u b query space doc →
        doc ∈ (b.retrieve u scores query topK space).map (·.document)) := by
  rw [BM25Retriever.retrieve]
  split
  next hnil => exact ⟨fun h => (by cases h), fun _ hhit => by cases hnil ▸ hhit.mem⟩
  next hne =>
    obtain ⟨index, hindex⟩ := h.indexed hne
    rw [hindex]
    dsimp only
    generalize hsort : (b.scored (scores index (tokenize u query)) (tokenize u query) space).insertionSort
      (fun s t => t.1 < s.1 ∨ t.1 = s.1 ∧ t.2.1 ≤ s.2.1) = sorted
    have hperm := hsort ▸ List.perm_insertionSort _ _
    have hfst : ((sorted.take topK).zipIdx.map fun (hit, i) =>
        (⟨hit.2.2, max 0 hit.1, i + 1⟩ : LexicalHit)).map (·.document) =
          (sorted.take topK).map (·.2.2) := by
      rw [List.map_map, ← List.zipIdx_map_fst 0 (sorted.take topK), List.map_map, List.zipIdx_map_fst]
      rfl
    rw [hfst]
    constructor
    · intro hmem
      exact (mem_scored h).1 (((hperm.map _).mem_iff).1 (List.map_subset _ (List.take_subset ..) hmem))
    · intro hle hhit
      have hlen : sorted.length ≤ b.documents.length := by
        rw [hperm.length_eq, BM25Retriever.scored]
        refine (List.length_filterMap_le ..).trans ?_
        rw [List.length_zipIdx, List.length_zip]
        exact min_le_left ..
      rw [List.take_of_length_le (hlen.trans hle)]
      exact ((hperm.map _).mem_iff).2 ((mem_scored h).2 hhit)

-- ===== parts

theorem Identifier.part_of (h : Identifier u identifier parts) (hp : part ∈ parts) : Part u part := by
  cases h with
  | underscores _ hparts _ | camel _ hparts _ _ => exact hparts part hp

theorem Part.keeps (h : Part u part) : keeps (u.lower part) = true :=
  decide_eq_true ⟨Nat.lt_of_lt_of_le h.1 (u.length_lower part), h.2⟩

theorem mem_wordTokens (w token : PyStr) : token ∈ wordTokens u w ↔ keeps (u.lower w) = true ∧
    (token = u.lower w ∨ 1 < (humps w).length ∧ keeps token = true ∧
      token ∈ (humps w).map u.lower) := by
  unfold wordTokens
  split
  next hw =>
    rw [and_iff_right hw, List.mem_cons, List.length_map]
    refine or_congr_right ?_
    split
    next hmany => rw [and_iff_right hmany, List.mem_filter, and_comm]
    next hfew => exact iff_of_false List.not_mem_nil fun h => hfew h.1
  next hw => exact iff_of_false List.not_mem_nil fun h => hw h.1

/-- A part shares a token with its identifier exactly when it is reached. -/
theorem shares_iff (hmade : Made u identifier parts) (hp : part ∈ parts) (hpart : Part u part) :
    (∃ token ∈ wordTokens u part, token ∈ wordTokens u identifier) ↔ Reached u identifier part := by
  have hpieces : ∀ h ∈ humps part, h <:+: part ∧ h ∈ humps identifier := fun h hh => by
    refine ⟨?_, ?_⟩
    · rw [humps_plain (hmade.pieces part hp).2.1] at hh
      exact humpsFrom_piece part 0 h hh
    · rw [hmade.joined]
      exact List.mem_flatMap.2 ⟨part, hp, hh⟩
  constructor
  · rintro ⟨token, htoken, hin⟩
    obtain ⟨hkeeps, hnamed | ⟨hmany, -, hhump⟩⟩ := (mem_wordTokens identifier token).1 hin
    · -- in lower case no piece of the part is the identifier
      rcases ((mem_wordTokens part token).1 htoken).2 with heq | ⟨-, -, hpiece⟩
      · exact absurd (heq.symm.trans hnamed) (hmade.apart part hp part (List.infix_refl _))
      · obtain ⟨h, hh, rfl⟩ := List.mem_map.1 hpiece
        exact absurd hnamed (hmade.apart part hp h (hpieces h hh).1)
    · refine ⟨(decide_eq_true_iff.1 hkeeps).2, hmany, ?_⟩
      rcases ((mem_wordTokens part token).1 htoken).2 with rfl | ⟨hseveral, hkept, hpiece⟩
      · exact .inl hhump
      · obtain ⟨h, hh, rfl⟩ := List.mem_map.1 hpiece
        exact .inr ⟨hseveral, h, hh, hkept⟩
  · rintro ⟨hnamed, hmany, hshared⟩
    have hkeeps : keeps (u.lower identifier) = true :=
      decide_eq_true ⟨Nat.lt_of_lt_of_le hmade.two (u.length_lower _), hnamed⟩
    rcases hshared with hshared | ⟨hseveral, h, hh, hkept⟩
    · exact ⟨u.lower part, (mem_wordTokens ..).2 ⟨hpart.keeps, .inl rfl⟩,
        (mem_wordTokens ..).2 ⟨hkeeps, .inr ⟨hmany, hpart.keeps, hshared⟩⟩⟩
    · exact ⟨u.lower h, (mem_wordTokens ..).2 ⟨hpart.keeps, .inr ⟨hseveral, hkept,
        List.mem_map_of_mem hh⟩⟩, (mem_wordTokens ..).2 ⟨hkeeps, .inr ⟨hmany, hkept,
          List.mem_map_of_mem (hpieces h hh).2⟩⟩⟩

/-- A part finds its identifier exactly when it is reached, within a namespace
that is not empty. -/
theorem findsPart_iff (h : Identifier u identifier parts) (hp : part ∈ parts)
    (space : Option PyStr) :
    FindsPart u identifier part space ↔ space ≠ some [] ∧ Reached u identifier part := by
  have hmade := h.made
  have hpart := h.part_of hp
  have hwords : words u part = [part] ∧ words u identifier = [identifier] :=
    ⟨words_word (hmade.pieces part hp).1 (hmade.pieces part hp).2.2,
      words_word (List.ne_nil_of_length_pos (Nat.lt_of_lt_of_le Nat.two_pos hmade.two)) hmade.word⟩
  have htokens : tokenize u part = wordTokens u part ∧ tokenize u identifier = wordTokens u identifier := by
    rw [tokenize, tokenize, hwords.1, hwords.2, List.flatMap_singleton, List.flatMap_singleton]
    exact ⟨rfl, rfl⟩
  -- a retriever of one document
  have hone : ∀ doc : RetrievalDocument, Filled u (BM25Retriever.new.addDocuments (tokenize u) [doc]) :=
    fun doc => .add [doc] .new
  constructor
  · intro hfinds
    refine ⟨?_, ?_⟩
    · rintro rfl
      have hlow : u.lower part ∈ tokenize u part := by
        rw [htokens.1]
        exact (mem_wordTokens ..).2 ⟨hpart.keeps, .inl rfl⟩
      have hhit : Hit u (BM25Retriever.new.addDocuments (tokenize u) [⟨[], part, [], ['x'], []⟩]) part
          (some []) ⟨[], part, [], ['x'], []⟩ :=
        ⟨List.mem_singleton_self _, fun s hs hne => absurd (Option.some.inj hs).symm hne,
          u.lower part, hlow, hlow⟩
      obtain ⟨hit, hmem, heq⟩ := List.mem_map.1 ((mem_retrieve (hone _)).2 (le_refl 1) hhit)
      have hspace := (hfinds.only _ (hone _) (fun _ _ _ => 0) part 1 hit hmem).1 [] rfl
      rw [heq] at hspace
      cases hspace
    · have hdoc := hfinds.found _ (hone ⟨[], identifier, [], space.getD [], []⟩) _
        (List.mem_singleton_self _) (fun s hs => by rw [hs]; rfl)
        (by rw [hwords.2]; exact List.mem_singleton_self _) part
        (by rw [hwords.1]; exact List.mem_singleton_self _) (fun _ _ _ => 0) 1 (le_refl 1)
      have hshares := ((mem_retrieve (hone _)).1 hdoc).shares
      rw [htokens.1, htokens.2] at hshares
      exact (shares_iff hmade hp hpart).1 hshares
  · rintro ⟨hspace, hreached⟩
    refine ⟨fun b hb doc hdoc hin hid query hq scores topK hle => (mem_retrieve hb).2 hle ⟨hdoc,
      fun s hs _ => hin s hs, ?_⟩, fun b hb scores query topK hit hhit => ?_⟩
    · obtain ⟨token, ht, hi⟩ := (shares_iff hmade hp hpart).2 hreached
      exact ⟨token, List.mem_flatMap.2 ⟨part, hq, ht⟩, List.mem_flatMap.2 ⟨identifier, hid, hi⟩⟩
    · have hfound := (mem_retrieve hb).1 (List.mem_map_of_mem (f := (·.document)) hhit)
      exact ⟨fun s hs => hfound.within s hs fun hnil => hspace (hnil ▸ hs), hfound.shares⟩

end Found

def plainUnicode : Unicode where
  word c := isAlnum c || c == '_' || c == 'é'
  lower s := s
  word_alnum _ h := by rw [h]; rfl
  word_underscore := rfl
  length_lower _ := le_refl _
  length_lower_alnum _ _ := rfl
  lower_underscore _ := Iff.rfl

def listUsers : List PyStr := [['l', 'i', 's', 't'], ['u', 's', 'e', 'r', 's']]

theorem findsPart_listUsers :
    FindsPart plainUnicode (join ['_'] listUsers) ['u', 's', 'e', 'r', 's'] none := by
  have hparts : ∀ p ∈ listUsers, 2 ≤ p.length ∧ p ∉ STOP_WORDS := by decide +kernel
  have hidentifier : Identifier plainUnicode (join ['_'] listUsers) listUsers :=
    .underscores (by decide) hparts fun p hp c hc => by
      have hall : listUsers.all (·.all fun c => plainUnicode.word c && c != '_') = true := by decide
      have hc := List.all_eq_true.1 (List.all_eq_true.1 hall p hp) c hc
      exact ⟨(Bool.and_eq_true_iff.1 hc).1, bne_iff_ne.1 (Bool.and_eq_true_iff.1 hc).2⟩
  refine (findsPart_iff hidentifier (by decide) none).2 ⟨fun h => (by cases h), ?_, ?_, .inl ?_⟩
  all_goals decide +kernel

def oldCafe : PyStr := ['o', 'l', 'd', '_', 'c', 'a', 'f', 'é']

/-- A part with a letter that is not ASCII is no token of its identifier. -/
theorem not_findsPart_cafe : ¬ FindsPart plainUnicode oldCafe ['c', 'a', 'f', 'é'] none := by
  intro h
  have hfilled : Filled plainUnicode (BM25Retriever.new.addDocuments (tokenize plainUnicode)
    [⟨[], oldCafe, [], [], []⟩]) := .add _ .new
  have hfound := h.found _ hfilled _ (List.mem_singleton_self _) (fun _ hs => (by cases hs))
    (by decide +kernel) ['c', 'a', 'f', 'é'] (by decide +kernel) (fun _ _ _ => 0) 1 (le_refl 1)
  exact absurd ((mem_retrieve hfilled).1 hfound).shares (by decide +kernel)

end Velune.Retrieval
