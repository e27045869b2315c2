/-
What the lookup answers, beside asking every rule alone.

A rule's expression reads a language (`ruleLang`): a table finds a name, a
path or a suffix exactly when the rule's own expression matches the whole
path (`hits_iff`), because the pattern has nothing in it but what the table
holds. The other expressions are tried with `$`, which a line break at the
end of a path does not stop: there, and only there, the lookup finds a rule
that does not match the whole path (`lastMatch_iff`).
-/
import Velune.Ignore.Proofs.Lookup
import Velune.Ignore.Proofs.Segments
import Velune.Ignore.Proofs.Stars
import Velune.Lib.RegexLanguage

namespace Velune.Ignore

open Lib Lib.Regex Lib.Wildcard Computability

variable {flags : Flags}

-- ===== property

/-- One rule alone: its own expression matches the whole path, or its
segment pattern splits the path's segments. -/
def Rule.MatchesWhole (flags : Flags) (rule : Rule) (text : PyStr) : Prop :=
  if rule.kind = .multi then Splits (predicates flags rule.segs) (text.splitOn '/')
  else matchesWhole (run noWords (rule.regex flags)) text = true

/-- The rule at an index is asked about this kind of path and matches it. -/
def Alone (flags : Flags) (rules : List Rule) (isDir : Bool) (text : PyStr) (i : Nat) : Prop :=
  ∃ r, rules[i]? = some r ∧ (isDir || !r.dirOnly) = true ∧ r.MatchesWhole flags text

/-- The rule at an index is tried as an expression, and matches the path
without a line break at its end. -/
def ButForBreak (flags : Flags) (rules : List Rule) (isDir : Bool) (text : PyStr) (i : Nat) :
    Prop :=
  ∃ r t, rules[i]? = some r ∧ (isDir || !r.dirOnly) = true ∧ r.kind = .regex ∧
    text = t ++ ['\n'] ∧ r.MatchesWhole flags t

def Newest (p : Nat → Prop) : Option Nat → Prop
  | none => ∀ i, ¬p i
  | some i => p i ∧ ∀ j, p j → j ≤ i

-- ===== what rules read

def segLang (flags : Flags) (seg : Seg) : Language Char := {t | Around flags seg t}

def slashLang : Language Char := oneChar (· == '/')

def dirLang : Language Char := someChars notSlash * slashLang

/-- What the segments of an expression read, as `bodyRe` has them. -/
def bodyLang (flags : Flags) : List (Option Seg) → List (Language Char)
  | [] => []
  | [none] => [someChars anyChar]
  | [some seg] => [segLang flags seg]
  | none :: rest => dirLang∗ :: bodyLang flags rest
  | some seg :: rest => segLang flags seg :: slashLang :: bodyLang flags rest

def aboveLang : Language Char := chars anyChar * slashLang + 1

/-- What the expression of a rule reads between the ends of a text. -/
def ruleLang (flags : Flags) (rule : Rule) : Language Char :=
  ((if rule.anchored then [] else [aboveLang]) ++ bodyLang flags rule.body).prod

theorem reads_body : ∀ {body : List (Option Seg)}, (∀ seg, some seg ∈ body → Slashless flags seg) →
    List.Forall₂ (Reads noWords) (bodyRe flags body) (bodyLang flags body)
  | [], _ => .nil
  | [none], _ => .cons .plus .nil
  | [some seg], h => .cons (fun _ _ _ _ _ _ => by
      rw [takes_segRe (h seg List.mem_cons_self)]
      exact ⟨fun ⟨t, hs, ht, hrest⟩ => ⟨t, ht, hs, hrest⟩,
        fun ⟨t, ht, hs, hrest⟩ => ⟨t, hs, ht, hrest⟩⟩) .nil
  | none :: item :: rest, h => by
      have ih := @reads_body (item :: rest) fun seg hseg => h seg (List.mem_cons_of_mem none hseg)
      exact .cons (Reads.star (Reads.plus.seq Reads.cls)) ih
  | some seg :: item :: rest, h => by
      have ih := @reads_body (item :: rest) fun seg' hseg => h seg' (List.mem_cons_of_mem _ hseg)
      refine .cons (fun _ _ _ _ _ _ => ?_) (.cons Reads.cls ih)
      rw [takes_segRe (h seg List.mem_cons_self)]
      exact ⟨fun ⟨t, hs, ht, hrest⟩ => ⟨t, ht, hs, hrest⟩,
        fun ⟨t, ht, hs, hrest⟩ => ⟨t, hs, ht, hrest⟩⟩

def Rule.Slashless (flags : Flags) (rule : Rule) : Prop :=
  ∀ seg, some seg ∈ rule.body → Ignore.Slashless flags seg

variable {rule : Rule} {text : PyStr}

/-- The expression of a rule takes a text of its language from the start of
a path, with nothing or one line break behind. -/
theorem takes_regex (h : rule.Slashless flags) {g : Groups} {prev' : Option Char} {s' : PyStr}
    {g' : Groups} : Takes noWords (rule.regex flags) none text g prev' s' g' ↔
      ∃ t ∈ ruleLang flags rule, text = t ++ s' ∧ (s' = [] ∨ s' = ['\n']) ∧
        prev' = lastOf none t ∧ g' = g := by
  have hbody := reads_body h
  have hall : List.Forall₂ (Reads noWords)
      ((if rule.anchored then [] else [.opt (.seq (.many false anyChar) slash)])
        ++ bodyRe flags rule.body)
      ((if rule.anchored then [] else [aboveLang]) ++ bodyLang flags rule.body) := by
    cases rule.anchored with
    | true => exact hbody
    | false => exact .cons (Reads.opt (Reads.many.seq Reads.cls)) hbody
  exact takes_ends (Reads.cat hall)

theorem matchesWhole_regex (h : rule.Slashless flags) :
    matchesWhole (run noWords (rule.regex flags)) text = true ↔ text ∈ ruleLang flags rule := by
  unfold matchesWhole
  rw [run_isSome_iff]
  constructor
  · intro hfound
    obtain ⟨prev', s', g', hway, hend⟩ := hfound
    obtain ⟨t, ht, rfl, -, -, -⟩ := (takes_regex h).1 hway
    split at hend
    next hnil => rwa [hnil, List.append_nil]
    next => cases hend
  · intro ht
    refine ⟨lastOf none text, [], [], (takes_regex h).2 ⟨text, ht, ?_, .inl rfl, rfl, rfl⟩, rfl⟩
    rw [List.append_nil]

/-- Tried from the start of a path, the expression also finds a text of its
language in front of a last line break. -/
theorem matchAt_regex (h : rule.Slashless flags) :
    (matchAt noWords (rule.regex flags) none text).isSome = true ↔
      text ∈ ruleLang flags rule ∨ ∃ t, text = t ++ ['\n'] ∧ t ∈ ruleLang flags rule := by
  rw [matchAt_isSome]
  constructor
  · intro hfound
    obtain ⟨prev', s', g', hway⟩ := hfound
    obtain ⟨t, ht, rfl, hend, -, -⟩ := (takes_regex h).1 hway
    rcases hend with rfl | rfl
    · exact .inl (by rwa [List.append_nil])
    · exact .inr ⟨t, rfl, ht⟩
  · intro hfound
    rcases hfound with ht | ⟨t, rfl, ht⟩
    · refine ⟨_, [], _, (takes_regex h).2 ⟨text, ht, ?_, .inl rfl, rfl, rfl⟩⟩
      rw [List.append_nil]
    · exact ⟨_, ['\n'], _, (takes_regex h).2 ⟨t, ht, rfl, .inr rfl, rfl, rfl⟩⟩

-- ===== plain patterns

def lits (text : PyStr) : List CharPat := text.map .lit

theorem fits_lits (hcase : flags.caseSensitive = true) : ∀ {key t : PyStr},
    Fits ((lits key).map (·.holds flags)) t ↔ t = key
  | [], t => by
      constructor
      · intro h
        cases h
        rfl
      · intro h
        rw [h]
        exact .nil
  | c :: key, t => by
      have hholds : ∀ d, (CharPat.lit c).holds flags d = true ↔ d = c := by
        intro d
        rw [CharPat.holds, Flags.variants, if_pos hcase, List.contains_iff_mem, List.mem_singleton]
        exact eq_comm
      constructor
      · intro h
        cases h with
        | cons hc hfits => rw [(hholds _).1 hc, (fits_lits hcase).1 hfits]
      · intro h
        rw [h]
        exact .cons ((hholds c).2 rfl) ((fits_lits hcase).2 rfl)

theorem mem_slash_mul {L : Language Char} {t : PyStr} :
    t ∈ slashLang * L ↔ ∃ u ∈ L, t = '/' :: u := by
  rw [Language.mem_mul]
  constructor
  · intro h
    obtain ⟨_, ⟨c, hc, rfl⟩, u, hu, rfl⟩ := h
    exact ⟨u, hu, by rw [beq_iff_eq.1 hc]; rfl⟩
  · intro h
    obtain ⟨u, hu, rfl⟩ := h
    exact ⟨['/'], ⟨'/', rfl, rfl⟩, u, hu, rfl⟩

theorem mem_above_mul {L : Language Char} {t : PyStr} :
    t ∈ aboveLang * L ↔ t ∈ L ∨ ∃ above, ∃ u ∈ L, t = above ++ '/' :: u := by
  rw [aboveLang, Language.mem_mul]
  constructor
  · intro h
    obtain ⟨w, hw | hw, u, hu, rfl⟩ := h
    · obtain ⟨above, -, _, ⟨c, hc, rfl⟩, rfl⟩ := Language.mem_mul.1 hw
      refine .inr ⟨above, u, hu, ?_⟩
      rw [List.append_assoc, beq_iff_eq.1 hc]
      rfl
    · rw [(Language.mem_one w).1 hw]
      exact .inl hu
  · intro h
    rcases h with hu | ⟨above, u, hu, rfl⟩
    · exact ⟨[], .inr Language.nil_mem_one, t, hu, rfl⟩
    · refine ⟨above ++ ['/'], .inl ?_, u, hu, by rw [List.append_assoc]; rfl⟩
      exact Language.append_mem_mul (fun _ _ => rfl) ⟨'/', rfl, rfl⟩

theorem mem_bodyLang_lits (hcase : flags.caseSensitive = true) : ∀ {parts : List PyStr} {t : PyStr},
    t ∈ (bodyLang flags (parts.map fun part => some [lits part])).prod ↔ t = Text.join ['/'] parts
  | [], t => Language.mem_one t
  | [part], t => by
      show t ∈ segLang flags [lits part] * 1 ↔ t = part ++ []
      rw [mul_one, List.append_nil]
      exact fits_lits hcase
  | part :: next :: rest, t => by
      have ih := fun t => @mem_bodyLang_lits hcase (next :: rest) t
      show t ∈ segLang flags [lits part] * (slashLang
          * (bodyLang flags ((next :: rest).map fun part => some [lits part])).prod)
        ↔ t = part ++ ('/' :: Text.join ['/'] (next :: rest))
      rw [Language.mem_mul]
      constructor
      · intro h
        obtain ⟨w, hw, u, hu, rfl⟩ := h
        obtain ⟨v, hv, rfl⟩ := mem_slash_mul.1 hu
        rw [(fits_lits hcase).1 hw, (ih v).1 hv]
      · intro h
        rw [h]
        exact ⟨part, (fits_lits hcase).2 rfl, _, mem_slash_mul.2 ⟨_, (ih _).2 rfl, rfl⟩, rfl⟩

-- ===== the last segment

theorem relName_eq {name : PyStr} (hname : '/' ∉ name)
    (htext : text = name ∨ ∃ above, text = above ++ '/' :: name) :
    relName (text.splitOn '/') = name := by
  unfold relName
  rcases htext with rfl | ⟨above, rfl⟩
  · rw [List.splitOn_eq_singleton hname]
    rfl
  · rw [List.splitOn_append_cons_self, List.splitOn_eq_singleton hname, List.getLastD_concat]

theorem relName_spec (text : PyStr) : '/' ∉ relName (text.splitOn '/') ∧
    (text = relName (text.splitOn '/') ∨
      ∃ above, text = above ++ '/' :: relName (text.splitOn '/')) := by
  by_cases hslash : '/' ∈ text
  · obtain ⟨name, above, htext, hname⟩ := List.eq_append_cons_of_mem (List.mem_reverse.2 hslash)
    have hback : text = above.reverse ++ '/' :: name.reverse := by
      rw [← List.reverse_reverse text, htext]
      simp only [List.reverse_append, List.reverse_cons, List.append_assoc, List.singleton_append]
    have hfree : '/' ∉ name.reverse := fun hmem => hname (List.mem_reverse.1 hmem)
    rw [relName_eq hfree (.inr ⟨_, hback⟩)]
    exact ⟨hfree, .inr ⟨_, hback⟩⟩
  · rw [relName_eq hslash (.inl rfl)]
    exact ⟨hslash, .inl rfl⟩

theorem relText_splitOn (text : PyStr) : relText (text.splitOn '/') = text :=
  List.intercalate_splitOn '/'

-- ===== compiled patterns

theorem translateLoop_plain : ∀ {fuel : Nat} {key : PyStr}, key.length < fuel →
    key.any isSpecial = false → translateLoop fuel key = .ok [lits key]
  | fuel + 1, [], _, _ => rfl
  | fuel + 1, c :: key, hfuel, h => by
      have ih := translateLoop_plain (Nat.lt_of_succ_lt_succ hfuel)
      rw [List.any_cons, Bool.or_eq_false_iff] at h
      obtain ⟨hc, hkey⟩ := h
      simp only [isSpecial, Bool.or_eq_false_iff, beq_eq_false_iff_ne] at hc
      obtain ⟨⟨⟨hstar, hmark⟩, hclass⟩, hescape⟩ := hc
      unfold translateLoop
      rw [if_neg hescape, if_neg hstar, if_neg hmark, if_neg hclass, ih hkey]
      rfl

theorem translateSegment_plain {key : PyStr} (h : key.any isSpecial = false) :
    translateSegment key = .ok [lits key] := translateLoop_plain (Nat.lt_succ_self _) h

theorem translateSegment_star {key : PyStr} (h : key.any isSpecial = false) :
    translateSegment ('*' :: key) = .ok [[], lits key] := by
  have hkey : key.dropWhile (· == '*') = key := by
    cases key with
    | nil => rfl
    | cons c key =>
        rw [List.any_cons, Bool.or_eq_false_iff] at h
        have hc := h.1
        simp only [isSpecial, Bool.or_eq_false_iff] at hc
        rw [List.dropWhile_cons_of_neg (by rw [hc.1.1.1]; exact Bool.false_ne_true)]
  have hloop : translateLoop (key.length + 1) key = .ok [lits key] :=
    translateLoop_plain (Nat.lt_succ_self _) h
  show (translateLoop (key.length + 1) (key.dropWhile (· == '*'))).map ([] :: ·) = _
  rw [hkey, hloop]
  rfl

theorem ne_doubleStar {key : PyStr} (h : key.any isSpecial = false) : key ≠ doubleStar := by
  intro heq
  rw [heq] at h
  exact absurd h (by decide)

theorem mem_join {sep part : PyStr} {c : Char} (hc : c ∈ part) : ∀ {parts : List PyStr},
    part ∈ parts → c ∈ Text.join sep parts
  | [_], h => by
      rw [List.mem_singleton.1 h] at hc
      exact List.mem_append_left [] hc
  | first :: next :: rest, h => by
      show c ∈ first ++ (sep ++ Text.join sep (next :: rest))
      rcases List.mem_cons.1 h with rfl | h
      · exact List.mem_append_left _ hc
      · exact List.mem_append_right _ (List.mem_append_right _ (mem_join hc h))

theorem plain_of_mem_splitOn {key part : PyStr} (h : key.any isSpecial = false)
    (hpart : part ∈ key.splitOn '/') : part.any isSpecial = false := by
  rw [List.any_eq_false] at h ⊢
  intro c hc
  have hmem : c ∈ relText (key.splitOn '/') := mem_join hc hpart
  rw [relText_splitOn] at hmem
  exact h c hmem

theorem translateAll_plain : ∀ {parts : List PyStr}, (∀ part ∈ parts, part.any isSpecial = false) →
    translateAll parts = .ok (parts.map fun part => some [lits part])
  | [], _ => rfl
  | part :: parts, h => by
      obtain ⟨hpart, hparts⟩ := List.forall_mem_cons.1 h
      rw [translateAll, if_neg (ne_doubleStar hpart), translateSegment_plain hpart,
        translateAll_plain hparts]
      rfl

/-- What a line is compiled to: several double stars, or an expression whose
kind is read off the text its segments are from. -/
theorem compileLine_shape {line : PyStr} (h : compileLine line = .ok (some rule)) :
    rule.kind = .multi ∨ ∃ text, translateAll (text.splitOn '/') = .ok rule.body ∧
      (rule.anchored = false → '/' ∉ text) ∧ rule.kind = kindOf rule.anchored text := by
  have hpattern : ∀ {negate dirOnly : Bool} {line : PyStr},
      compilePattern negate dirOnly line = .ok (some rule) →
      rule.kind = .multi ∨ ∃ text, translateAll (text.splitOn '/') = .ok rule.body ∧
        (rule.anchored = false → '/' ∉ text) ∧ rule.kind = kindOf rule.anchored text := by
    intro negate dirOnly line h
    unfold compilePattern at h
    dsimp only at h
    have hmem : '/' ∈ (if line.head? = some '/' then line.tail else line) → '/' ∈ line := by
      split
      next => exact List.mem_of_mem_tail
      next => exact id
    generalize (if line.head? = some '/' then line.tail else line) = text at h hmem
    split at h
    next => cases h
    next =>
      split at h
      next => cases h
      next translated htranslated =>
        split at h
        next =>
          cases h
          exact .inl rfl
        next =>
          cases h
          refine .inr ⟨text, htranslated, fun hanchored hslash => ?_, rfl⟩
          have htrue : line.contains '/' = true := List.contains_iff_mem.2 (hmem hslash)
          exact Bool.false_ne_true (hanchored.symm.trans htrue)
  unfold compileLine at h
  split at h
  next => cases h
  next =>
    dsimp only at h
    split at h
    next => cases h
    next => exact hpattern h

theorem slashless_of_translateAll (hslash : SlashAlone flags) : ∀ {parts : List PyStr}
    {body : List (Option Seg)}, (∀ part ∈ parts, '/' ∉ part) → translateAll parts = .ok body →
      ∀ seg, some seg ∈ body → Slashless flags seg
  | [], _, _, h => by
      cases h
      exact fun seg hseg => absurd hseg List.not_mem_nil
  | part :: parts, _, hfree, h => by
      obtain ⟨hpart, hparts⟩ := List.forall_mem_cons.1 hfree
      rw [translateAll] at h
      split at h
      next =>
        obtain ⟨body, hbody, rfl⟩ := ok_map h
        intro seg hseg
        rcases List.mem_cons.1 hseg with hseg | hseg
        · cases hseg
        · exact slashless_of_translateAll hslash hparts hbody seg hseg
      next =>
        split at h
        next => cases h
        next s hs =>
          obtain ⟨body, hbody, rfl⟩ := ok_map h
          intro seg hseg
          rcases List.mem_cons.1 hseg with hseg | hseg
          · cases hseg
            exact slashless_of_translateLoop hslash hpart hs
          · exact slashless_of_translateAll hslash hparts hbody seg hseg

theorem slashAlone_of_caseSensitive (hcase : flags.caseSensitive = true) : SlashAlone flags := by
  intro c hc
  rw [Flags.variants, if_pos hcase] at hc
  exact List.mem_singleton.1 hc

-- ===== tables and rules

theorem mem_ruleLang_name (hcase : flags.caseSensitive = true) {key : PyStr}
    (hanchored : rule.anchored = false) (hbody : rule.body = [some [lits key]]) (hkey : '/' ∉ key) :
    text ∈ ruleLang flags rule ↔ relName (text.splitOn '/') = key := by
  have hone : ∀ u, u ∈ (bodyLang flags [some [lits key]]).prod ↔ u = key := by
    intro u
    rw [bodyLang, List.prod_singleton]
    exact fits_lits hcase
  rw [ruleLang, hanchored, hbody]
  show text ∈ (aboveLang :: bodyLang flags [some [lits key]]).prod ↔ _
  rw [List.prod_cons, mem_above_mul]
  simp only [hone, exists_eq_left]
  constructor
  · exact relName_eq hkey
  · intro h
    have hspec := (relName_spec text).2
    rwa [h] at hspec

/-- A star and a plain text without a slash is a suffix of the name. -/
theorem mem_ruleLang_suffix (hcase : flags.caseSensitive = true) {key : PyStr}
    (hanchored : rule.anchored = false) (hbody : rule.body = [some [[], lits key]])
    (hkey : '/' ∉ key) :
    text ∈ ruleLang flags rule ↔ key <:+ relName (text.splitOn '/') := by
  have hone : ∀ u, u ∈ (bodyLang flags [some [[], lits key]]).prod ↔
      ∃ run, (∀ c ∈ run, notSlash c = true) ∧ u = run ++ key := by
    intro u
    rw [bodyLang, List.prod_singleton]
    constructor
    · intro h
      obtain ⟨t, run, v, rfl, hnil, hrun, hv⟩ := h
      cases hnil
      exact ⟨run, hrun, by rw [(fits_lits hcase).1 hv]; rfl⟩
    · intro h
      obtain ⟨run, hrun, rfl⟩ := h
      exact ⟨[], run, key, rfl, .nil, hrun, (fits_lits hcase).2 rfl⟩
  rw [ruleLang, hanchored, hbody]
  show text ∈ (aboveLang :: bodyLang flags [some [[], lits key]]).prod ↔ _
  rw [List.prod_cons, mem_above_mul]
  constructor
  · intro h
    have hname : ∃ run, (∀ c ∈ run, notSlash c = true) ∧
        (text = run ++ key ∨ ∃ above, text = above ++ '/' :: (run ++ key)) := by
      rcases h with h | ⟨above, u, hu, htext⟩
      · obtain ⟨run, hrun, htext⟩ := (hone text).1 h
        exact ⟨run, hrun, .inl htext⟩
      · obtain ⟨run, hrun, rfl⟩ := (hone u).1 hu
        exact ⟨run, hrun, .inr ⟨above, htext⟩⟩
    obtain ⟨run, hrun, htext⟩ := hname
    have hfree : '/' ∉ run ++ key := by
      intro hmem
      rcases List.mem_append.1 hmem with hmem | hmem
      · exact absurd (hrun '/' hmem) (by decide)
      · exact hkey hmem
    rw [relName_eq hfree htext]
    exact List.suffix_append run key
  · intro h
    obtain ⟨hfree, hspec⟩ := relName_spec text
    obtain ⟨run, hrun⟩ := h
    have hmem : relName (text.splitOn '/') ∈ (bodyLang flags [some [[], lits key]]).prod := by
      refine (hone _).2 ⟨run, fun c hc => bne_iff_ne.2 fun heq => hfree ?_, hrun.symm⟩
      rw [← hrun, ← heq]
      exact List.mem_append_left key hc
    rcases hspec with htext | ⟨above, htext⟩
    · exact .inl (by rw [htext]; exact htext ▸ hmem)
    · exact .inr ⟨above, _, hmem, htext⟩

theorem mem_ruleLang_path (hcase : flags.caseSensitive = true) {key : PyStr}
    (hanchored : rule.anchored = true)
    (hbody : rule.body = (key.splitOn '/').map fun part => some [lits part]) :
    text ∈ ruleLang flags rule ↔ text = key := by
  rw [ruleLang, hanchored, hbody]
  show text ∈ (bodyLang flags ((key.splitOn '/').map fun part => some [lits part])).prod ↔ _
  rw [mem_bodyLang_lits hcase]
  show text = relText (key.splitOn '/') ↔ text = key
  rw [relText_splitOn]

/-- How a compiled rule is answered: by a table exactly when its own
expression matches the whole path; by its expression also when that matches
the path but for a line break at the end. -/
theorem hits_iff (hcase : flags.caseSensitive = true) {line : PyStr}
    (hline : compileLine line = .ok (some rule)) :
    rule.hits flags (text.splitOn '/') = true ↔
      rule.MatchesWhole flags text ∨
        rule.kind = .regex ∧ ∃ t, text = t ++ ['\n'] ∧ rule.MatchesWhole flags t := by
  unfold Rule.MatchesWhole
  rcases compileLine_shape hline with hkind | ⟨source, hbody, hfree, hkind⟩
  · simp only [Rule.hits, hkind, if_true]
    rw [matchSegments_iff]
    exact ⟨.inl, fun h => h.elim id fun h => (by cases h.1)⟩
  have hslashless : rule.Slashless flags := slashless_of_translateAll
    (slashAlone_of_caseSensitive hcase) (fun part hpart => PurePath.not_mem_splitOn hpart) hbody
  have hfold : ∀ s, flags.fold s = s := fun s => by rw [Flags.fold, if_pos hcase]
  have hbodyOf : ∀ {body}, translateAll (source.splitOn '/') = .ok body → rule.body = body :=
    fun h => Except.ok.inj (hbody.symm.trans h)
  unfold kindOf at hkind
  split at hkind
  next hplain =>
    have hplainBody := hbodyOf (translateAll_plain fun part hpart =>
      plain_of_mem_splitOn hplain hpart)
    split at hkind
    next hanchored =>
      simp only [Rule.hits, hkind, hfold, relText_splitOn, beq_iff_eq, reduceCtorEq, if_false,
        false_and, or_false]
      rw [matchesWhole_regex hslashless, mem_ruleLang_path hcase hanchored hplainBody]
    next hanchored =>
      have hkey := hfree (Bool.not_eq_true _ ▸ hanchored)
      rw [List.splitOn_eq_singleton hkey] at hplainBody
      simp only [Rule.hits, hkind, hfold, beq_iff_eq, reduceCtorEq, if_false, false_and, or_false]
      rw [matchesWhole_regex hslashless,
        mem_ruleLang_name hcase (Bool.not_eq_true _ ▸ hanchored) hplainBody hkey]
  next =>
    split at hkind
    next hstar =>
      simp only [Bool.and_eq_true, Bool.not_eq_true', decide_eq_true_eq] at hstar
      obtain ⟨⟨hanchored, hhead⟩, hplain⟩ := hstar
      obtain ⟨key, rfl⟩ : ∃ key, source = '*' :: key := by
        cases source with
        | nil => cases hhead
        | cons c key => exact ⟨key, by rw [Option.some.inj hhead]⟩
      rw [List.tail_cons] at hplain hkind
      have hkey : '/' ∉ key := fun hmem => hfree hanchored (List.mem_cons_of_mem '*' hmem)
      have hstarBody : rule.body = [some [[], lits key]] := by
        refine hbodyOf ?_
        have hne : '*' :: key ≠ doubleStar := by
          intro heq
          rw [(List.cons.inj heq).2] at hplain
          exact absurd hplain (by decide)
        rw [List.splitOn_eq_singleton (hfree hanchored), translateAll, if_neg hne,
          translateSegment_star hplain]
        rfl
      simp only [Rule.hits, hkind, hfold, List.isSuffixOf_iff_suffix, reduceCtorEq,
        if_false, false_and, or_false]
      rw [matchesWhole_regex hslashless, mem_ruleLang_suffix hcase hanchored hstarBody hkey]
    next =>
      simp only [Rule.hits, hkind, relText_splitOn, true_and, reduceCtorEq, if_false]
      rw [matchAt_regex hslashless, matchesWhole_regex hslashless]
      simp only [matchesWhole_regex hslashless]

-- ===== the lookup

theorem Newest.congr {p q : Nat → Prop} (hpq : ∀ i, p i ↔ q i) {best : Option Nat}
    (h : Newest p best) : Newest q best := by
  cases best with
  | none => exact fun i hi => h i ((hpq i).2 hi)
  | some i => exact ⟨(hpq i).1 h.1, fun j hj => h.2 j ((hpq j).2 hj)⟩

/-- The lookup answers with the newest rule that its own kind of answer
finds. -/
theorem newest_lastMatch (p : Rule → Bool) (rules : List Rule) (rel : List PyStr) :
    Newest (fun i => ∃ r, rules[i]? = some r ∧ p r = true ∧ r.hits flags rel = true)
      ((makeView flags ((indexed rules).filter fun r => p r.2)).lastMatch flags rel) := by
  induction rules using List.reverseRecOn with
  | nil =>
      have hnone : ∀ j ∈ View.empty.lastMatch flags rel, j < 0 := View.Below.empty.lastMatch rel
      show Newest _ (View.empty.lastMatch flags rel)
      cases hlast : View.empty.lastMatch flags rel with
      | none =>
          intro i h
          obtain ⟨r, hr, -⟩ := h
          cases hr
      | some j => exact absurd (hnone j hlast) (Nat.not_lt_zero j)
  | append_singleton rules rule ih =>
      have hbelow : (makeView flags ((indexed rules).filter fun r => p r.2)).Below rules.length :=
        makeView_below p rules
      -- the old rules, and the one added
      have hcases : ∀ i, (∃ r, (rules ++ [rule])[i]? = some r ∧ p r = true ∧ r.hits flags rel = true)
          ↔ (∃ r, rules[i]? = some r ∧ p r = true ∧ r.hits flags rel = true) ∨
            i = rules.length ∧ p rule = true ∧ rule.hits flags rel = true := by
        intro i
        rcases Nat.lt_trichotomy i rules.length with hi | rfl | hi
        · rw [List.getElem?_append_left hi]
          exact ⟨.inl, fun h => h.elim id fun h => absurd h.1 (Nat.ne_of_lt hi)⟩
        · rw [List.getElem?_concat_length, List.getElem?_eq_none (Nat.le_refl _)]
          simp
        · have hout : (rules ++ [rule])[i]? = none := List.getElem?_eq_none (by simp; omega)
          rw [hout, List.getElem?_eq_none (Nat.le_of_lt hi)]
          simp [Nat.ne_of_gt hi]
      rw [indexed_concat, filter_concat]
      by_cases hp : p rule = true
      · rw [if_pos hp, makeView_concat, View.lastMatch_add hbelow]
        by_cases hhit : rule.hits flags rel = true
        · rw [if_pos hhit]
          refine ⟨(hcases _).2 (.inr ⟨rfl, hp, hhit⟩), fun j hj => ?_⟩
          rcases (hcases j).1 hj with ⟨r, hr, -⟩ | ⟨rfl, -⟩
          · exact Nat.le_of_lt (List.getElem?_eq_some_iff.1 hr).1
          · exact Nat.le_refl _
        · rw [if_neg hhit]
          refine ih.congr fun i => ((hcases i).trans ?_).symm
          exact ⟨fun h => h.elim id fun h => absurd h.2.2 hhit, .inl⟩
      · rw [if_neg hp, List.append_nil]
        refine ih.congr fun i => ((hcases i).trans ?_).symm
        exact ⟨fun h => h.elim id fun h => absurd h.2.1 hp, .inl⟩

/-- The newest of two kinds is the newest of the first kind when no newer
one is of the second kind only. -/
theorem newest_or {p q : Nat → Prop} {best : Option Nat} (h : Newest (fun i => p i ∨ q i) best) :
    Newest p best ↔ ∀ i, q i → ∃ j, i ≤ j ∧ p j := by
  cases best with
  | none => exact iff_of_true (fun i hi => h i (.inl hi)) fun i hi => absurd (.inr hi) (h i)
  | some k =>
      constructor
      · exact fun hp i hi => ⟨k, h.2 i (.inr hi), hp.1⟩
      · intro hq
        have hk : p k := by
          rcases h.1 with hk | hk
          · exact hk
          · obtain ⟨j, hj, hpj⟩ := hq k hk
            rwa [Nat.le_antisymm hj (h.2 j (.inl hpj))]
        exact ⟨hk, fun j hj => h.2 j (.inl hj)⟩

/-- `_View.last_match`, with case told apart, is the newest rule of the view
whose own pattern matches the whole path, exactly when every rule that
matches the path but for its last line break is no newer than one that
matches the whole path. -/
theorem lastMatch_iff (hcase : flags.caseSensitive = true) {rules : List Rule}
    (hrules : ∀ r ∈ rules, ∃ line, compileLine line = .ok (some r)) (isDir : Bool) (text : PyStr) :
    Newest (Alone flags rules isDir text)
        ((viewFor flags rules isDir).lastMatch flags (text.splitOn '/')) ↔
      ∀ i, ButForBreak flags rules isDir text i → ∃ j, i ≤ j ∧ Alone flags rules isDir text j := by
  have hnewest := @newest_lastMatch flags (fun r => isDir || !r.dirOnly) rules
    (text.splitOn '/')
  refine newest_or (hnewest.congr fun i => ?_)
  constructor
  · intro h
    obtain ⟨r, hr, hview, hhit⟩ := h
    obtain ⟨line, hline⟩ := hrules r (List.mem_of_getElem? hr)
    rcases (hits_iff hcase hline).1 hhit with hwhole | ⟨hkind, t, htext, hwhole⟩
    · exact .inl ⟨r, hr, hview, hwhole⟩
    · exact .inr ⟨r, t, hr, hview, hkind, htext, hwhole⟩
  · intro h
    rcases h with ⟨r, hr, hview, hwhole⟩ | ⟨r, t, hr, hview, hkind, htext, hwhole⟩
    · obtain ⟨line, hline⟩ := hrules r (List.mem_of_getElem? hr)
      exact ⟨r, hr, hview, (hits_iff hcase hline).2 (.inl hwhole)⟩
    · obtain ⟨line, hline⟩ := hrules r (List.mem_of_getElem? hr)
      exact ⟨r, hr, hview, (hits_iff hcase hline).2 (.inr ⟨hkind, t, htext, hwhole⟩)⟩

def plainCase : Flags := ⟨⟨id, fun c => [c]⟩, true⟩

/-- The rule of the line `fo?`. -/
def markRule : Rule := ⟨false, [some [[.lit 'f', .lit 'o', .notSlash]]], false, false, .regex, []⟩

theorem compileLine_mark : compileLine "fo?".toList = .ok (some markRule) := rfl

theorem lastMatch_iff_mark :
    Newest (Alone plainCase [markRule] false "foo".toList)
      ((viewFor plainCase [markRule] false).lastMatch plainCase ("foo".toList.splitOn '/')) := by
  refine (lastMatch_iff rfl (fun r hr => ⟨"fo?".toList, ?_⟩) false "foo".toList).2 fun i h => ?_
  · rw [List.mem_singleton.1 hr]
    exact compileLine_mark
  · obtain ⟨r, t, -, -, -, htext, -⟩ := h
    have hlast := congrArg List.getLast? htext
    rw [List.getLast?_concat] at hlast
    exact absurd hlast (by decide)

/-- `fo?` is the answer for `foo` with a line break behind it, which it does
not match. -/
theorem lastMatch_break : compileLine "fo?".toList = .ok (some markRule) ∧
    ¬Newest (Alone plainCase [markRule] false "foo\n".toList)
      ((viewFor plainCase [markRule] false).lastMatch plainCase
        ("foo\n".toList.splitOn '/')) := by
  have hlast : (viewFor plainCase [markRule] false).lastMatch plainCase
      ("foo\n".toList.splitOn '/') = some 0 := by decide
  refine ⟨compileLine_mark, ?_⟩
  rw [hlast]
  intro h
  obtain ⟨r, hr, -, hwhole⟩ := h.1
  cases hr
  have hmiss : matchesWhole (run noWords (markRule.regex plainCase)) "foo\n".toList = false := by
    decide
  exact Bool.false_ne_true (hmiss.symm.trans hwhole)

end Velune.Ignore
