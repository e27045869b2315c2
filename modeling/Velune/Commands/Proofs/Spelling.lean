/-
How a command is spelled, and what its class makes of that.

The class is found in the text of a command, the program runs its words.
A command without quotes is the plain spelling of its call with its
blanks widened (`split_unquoted`), and every pattern but one survives
that, so that what is found in the plain spelling is found in the
command (`search_dangerous`, `search_highRisk`). The one that does not,
the only one tied to the end of the text, does when nothing stands behind
the last word, or when that word does not end the way the pattern wants.
The read-only list goes the other way: what begins with an entry in the
command's spelling does in the plain one (`listed_widened`).
-/
import Velune.Commands.Proofs.ReadOnly
import Velune.Lib.Widen

namespace Velune.Commands

open Lib Lib.Regex

-- ===== the spelling

theorem joined_append (x w : PyStr) (ws : List PyStr) :
    joined ((x ++ w) :: ws) = x ++ joined (w :: ws) := by
  cases ws with
  | nil => rfl
  | cons v ws => exact List.append_assoc ..

theorem plain_eq_joined (spec : CommandSpec) : spec.plain = joined (spec.executable :: spec.args) := by
  have h : ∀ (ws : List PyStr) (w : PyStr), Text.join [' '] (w :: ws) = joined (w :: ws) := by
    intro ws
    induction ws with
    | nil => exact fun w => List.append_nil w
    | cons v ws ih =>
        intro w
        rw [joined, ← ih v]
        rfl
  exact h spec.args spec.executable

def EndsPlain (s : List Char) : Prop := ∀ c ∈ s.getLast?, Shlex.isBlank c = false

theorem EndsPlain.append {x s : List Char} (hne : s ≠ []) (h : EndsPlain s) : EndsPlain (x ++ s) := by
  intro c hc
  rw [List.getLast?_append_of_ne_nil x hne] at hc
  exact h c hc

/-- The words of a text without quotes, and the text as their plain
spelling with the blanks widened: for the rest of a word, and between
words. -/
theorem tokens_unquoted {s : List Char} (hs : ∀ c ∈ s, Shlex.isQuote c = false) :
    (∀ token words, Shlex.tokens .word token s = some words →
      ∃ w more core trail, words = (token ++ w) :: more ∧ s = core ++ trail ∧
        Widened Shlex.isBlank [] (joined (w :: more)) core ∧ EndsPlain core ∧
        ∀ c ∈ trail, Shlex.isBlank c = true) ∧
    (∀ words, Shlex.split s = some words →
      (words = [] ∧ ∀ c ∈ s, Shlex.isBlank c = true) ∨
      ∃ w more lead core trail, words = w :: more ∧ s = lead ++ core ++ trail ∧ core ≠ [] ∧
        Widened Shlex.isBlank [] (joined (w :: more)) core ∧
        (∀ c ∈ core.head?, Shlex.isBlank c = false) ∧ EndsPlain core ∧
        (∀ c ∈ lead, Shlex.isBlank c = true) ∧ ∀ c ∈ trail, Shlex.isBlank c = true) := by
  induction s with
  | nil =>
      refine ⟨fun token words h => ?_, fun words h => ?_⟩
      · cases h
        exact ⟨[], [], [], [], by simp, rfl, .nil, by simp [EndsPlain], by simp⟩
      · cases h
        exact Or.inl ⟨rfl, by simp⟩
  | cons c s ih =>
      obtain ⟨ihWord, ihSplit⟩ := ih fun d hd => hs d (List.mem_cons_of_mem c hd)
      have hquote : Shlex.isQuote c = false := hs c (List.mem_cons_self ..)
      by_cases hc : Shlex.isBlank c = true
      · refine ⟨fun token words h => ?_, fun words h => ?_⟩
        · rw [Shlex.tokens, if_pos hc, Option.map_eq_some_iff] at h
          obtain ⟨words, hsplit, rfl⟩ := h
          rcases ihSplit words hsplit with ⟨rfl, hblank⟩ |
            ⟨w, more, lead, core, trail, rfl, rfl, hne, hwide, hhead, hends, hlead, htrail⟩
          · exact ⟨[], [], [], c :: s, by simp, rfl, .nil, by simp [EndsPlain],
              fun d hd => (List.mem_cons.mp hd).elim (fun h => h ▸ hc) (hblank d)⟩
          · refine ⟨[], w :: more, (c :: lead) ++ core, trail, by simp, by simp, ?_,
              hends.append hne, htrail⟩
            exact .gap (by simp)
              (fun d hd => (List.mem_cons.mp hd).elim (fun h => h ▸ hc) (hlead d)) hwide
        · rw [Shlex.split_blank hc] at h
          rcases ihSplit words h with ⟨rfl, hblank⟩ |
            ⟨w, more, lead, core, trail, rfl, rfl, hne, hwide, hhead, hends, hlead, htrail⟩
          · exact Or.inl ⟨rfl, fun d hd => (List.mem_cons.mp hd).elim (fun h => h ▸ hc) (hblank d)⟩
          · exact Or.inr ⟨w, more, c :: lead, core, trail, rfl, rfl, hne, hwide, hhead, hends,
              fun d hd => (List.mem_cons.mp hd).elim (fun h => h ▸ hc) (hlead d), htrail⟩
      · have hkept : c ≠ ' ' ∧ c ≠ '\n' := by
          constructor <;> (intro heq; rw [heq] at hc; exact hc rfl)
        -- a character of a word: the rest of that word begins behind it
        have hword : ∀ token words, Shlex.tokens .word (token ++ [c]) s = some words →
            ∃ w more core trail, words = (token ++ c :: w) :: more ∧ c :: s = core ++ trail ∧
              core ≠ [] ∧ Widened Shlex.isBlank [] (joined ((c :: w) :: more)) core ∧
              (∀ d ∈ core.head?, Shlex.isBlank d = false) ∧ EndsPlain core ∧
              ∀ d ∈ trail, Shlex.isBlank d = true := by
          intro token words h
          obtain ⟨w, more, core, trail, rfl, rfl, hwide, hends, htrail⟩ := ihWord _ words h
          refine ⟨w, more, c :: core, trail, by simp, rfl, by simp, ?_, by simpa using hc, ?_, htrail⟩
          · have hjoined : joined ((c :: w) :: more) = c :: joined (w :: more) :=
              joined_append [c] w more
            rw [hjoined]
            exact .char hkept hwide
          · cases core with
            | nil => simpa [EndsPlain] using hc
            | cons d core => exact hends.append (x := [c]) (by simp)
        refine ⟨fun token words h => ?_, fun words h => ?_⟩
        · rw [Shlex.tokens, if_neg hc, hquote] at h
          obtain ⟨w, more, core, trail, hwords, hs, -, hwide, -, hends, htrail⟩ :=
            hword token words (by simpa using h)
          exact ⟨c :: w, more, core, trail, hwords, hs, hwide, hends, htrail⟩
        · rw [Shlex.split, Shlex.tokens, if_neg hc, hquote] at h
          obtain ⟨w, more, core, trail, hwords, hs, hne, hwide, hhead, hends, htrail⟩ :=
            hword [] words (by simpa using h)
          exact Or.inr ⟨c :: w, more, [], core, trail, hwords, by simpa using hs, hne, hwide, hhead,
            hends, by simp, htrail⟩

def trailing (cmd : PyStr) : PyStr := (cmd.reverse.takeWhile Shlex.isBlank).reverse

/-- The text of a command begins with an entry of the read-only list. -/
def listed (cmd : PyStr) : Bool := safePrefixes.any (beginsWith (lower (normalize (Text.strip cmd))))

/-- A command in one line without quotes, its last word a dot only with
nothing behind it, that names its program by name, or by a path that
begins with no entry of the read-only list and ends with the name. -/
structure PlainlySpelled (cmd : PyStr) : Prop where
  unquoted : ∀ c ∈ cmd, Shlex.isQuote c = false
  oneLine : '\n' ∉ Text.trim Shlex.isBlank cmd
  ending : trailing cmd = [] ∨ trailing cmd = ['\n'] ∨
    (Text.trim Shlex.isBlank cmd).getLast? ≠ some '.'
  program : ∃ dir name args, Shlex.split cmd = some ((dir ++ name) :: args) ∧
    name ≠ [] ∧ '/' ∉ name ∧ name ≠ ['.'] ∧
    (dir = [] ∨ (dir.getLast? = some '/' ∧ listed cmd = false))

def separators : List Char := [' ', '\t', '\r']

theorem isIn_separators {c : Char} (h : Shlex.isBlank c = true) (hc : c ≠ '\n') :
    isIn separators c = true := by
  simp only [Shlex.isBlank, Bool.or_eq_true, beq_iff_eq, hc, or_false] at h
  rcases h with (rfl | rfl) | rfl <;> rfl

theorem isBlank_space {c : Char} (h : Shlex.isBlank c = true) : Text.isSpace c = true := by
  simp only [Shlex.isBlank, Bool.or_eq_true, beq_iff_eq] at h
  rcases h with ((rfl | rfl) | rfl) | rfl <;> rfl

theorem isWord_space (u : Unicode) {c : Char} (h : Text.isSpace c = true) : u.isWord c = false := by
  unfold Unicode.isWord
  split
  next =>
    have hnat : (9 ≤ c.toNat ∧ c.toNat ≤ 13 ∨ 28 ≤ c.toNat ∧ c.toNat ≤ 32) ∨ 128 ≤ c.toNat := by
      simp only [Text.isSpace, Bool.or_eq_true, Bool.and_eq_true, decide_eq_true_eq, beq_iff_eq] at h
      omega
    by_contra hword
    simp only [Text.isAlnum, Text.isLower, Text.isUpper, Text.isDigit, Bool.not_eq_false,
      Bool.or_eq_true, Bool.and_eq_true, decide_eq_true_eq, beq_iff_eq, Char.le_def,
      UInt32.le_iff_toNat_le] at hword
    have hrange : (((97 ≤ c.toNat ∧ c.toNat ≤ 122) ∨ (65 ≤ c.toNat ∧ c.toNat ≤ 90)) ∨
        (48 ≤ c.toNat ∧ c.toNat ≤ 57)) ∨ c = '_' := hword
    have hascii : c.toNat < 128 := by simpa [isAscii] using ‹isAscii c = true›
    rcases hrange with hrange | rfl
    · omega
    · cases h
  next => exact u.word_space c h

theorem name_of_path {dir name : PyStr} (hdir : dir = [] ∨ dir.getLast? = some '/')
    (hne : name ≠ []) (hslash : '/' ∉ name) (hdot : name ≠ ['.']) :
    (PurePath.parse (dir ++ name)).name = name := by
  rcases hdir with rfl | hlast
  · exact name_of_bare hslash hne hdot
  · obtain ⟨dir, rfl⟩ := List.getLast?_eq_some_iff.mp hlast
    have hpart : PurePath.isPart name = true := by simp [PurePath.isPart, hne, hdot]
    have hparts : (dir ++ '/' :: name).splitOn '/' = dir.splitOn '/' ++ [name] := by
      rw [List.splitOn_append_cons_self, List.splitOn_eq_singleton hslash]
    rw [List.append_assoc, List.singleton_append]
    simp [PurePath.parse, PurePath.name, hparts, hpart, List.getLastD_eq_getLast?]

/-- A plainly spelled command: something that ends no word, and the plain
spelling with its blanks widened. -/
structure Spelled (u : Unicode) (cmd t before wide : PyStr) : Prop where
  text : cmd = before ++ wide
  widened : Widened (isIn separators) (trailing cmd) t wide
  edge : SameEdge u.isWord none (lastOf none before)
  front : (∀ c ∈ before, Shlex.isBlank c = true) ∨ listed cmd = false
  behind : ∀ c ∈ trailing cmd, Shlex.isBlank c = true
  ending : trailing cmd = [] ∨ trailing cmd = ['\n'] ∨ t.getLast? ≠ some '.'

theorem separators_space : ∀ c ∈ separators, Text.isSpace c = true := Text.all_mem (by decide)

theorem trailing_append {x core trail : PyStr} (hcore : core ≠ []) (hends : EndsPlain core)
    (htrail : ∀ c ∈ trail, Shlex.isBlank c = true) : trailing (x ++ core ++ trail) = trail := by
  obtain ⟨m, c, rfl⟩ := (List.eq_nil_or_concat' core).resolve_left hcore
  have hc : Shlex.isBlank c = false := hends c (by simp)
  have hrev : ∀ d ∈ trail.reverse, Shlex.isBlank d = true := fun d hd =>
    htrail d (List.mem_reverse.mp hd)
  rw [trailing, List.reverse_append, List.takeWhile_append_of_pos hrev]
  simp [hc]

theorem joined_ne_nil {w : PyStr} (hw : w ≠ []) (ws : List PyStr) : joined (w :: ws) ≠ [] := by
  cases ws with
  | nil => exact hw
  | cons v ws => simp [joined]

theorem edge_of_space (u : Unicode) {before : PyStr}
    (h : ∀ c ∈ before, Text.isSpace c = true) : SameEdge u.isWord none (lastOf none before) := by
  unfold SameEdge lastOf
  cases hlast : before.getLast? with
  | none => rfl
  | some c => simp [isWord_space u (h c (List.mem_of_getLast? hlast))]

theorem PlainlySpelled.spelled (u : Unicode) {cmd : PyStr} {spec : CommandSpec}
    (h : PlainlySpelled cmd) (hspec : fromString cmd = .ok spec) :
    ∃ before wide, Spelled u cmd spec.plain before wide := by
  obtain ⟨dir, name, args, hsplit, hne, hslash, hdot, hdir⟩ := h.program
  obtain ⟨first, args', hsplit', rfl⟩ := fromString_ok hspec
  rw [hsplit] at hsplit'
  obtain ⟨rfl, rfl⟩ := List.cons.inj (Option.some.inj hsplit')
  rw [plain_eq_joined, name_of_path (hdir.imp_right And.left) hne hslash hdot]
  rcases (tokens_unquoted h.unquoted).2 _ hsplit with ⟨hnil, -⟩ |
    ⟨w, more, lead, core, trail, hwords, hcmd, hcore, hwide, hhead, hends, hlead, htrail⟩
  · cases hnil
  obtain ⟨rfl, rfl⟩ := List.cons.inj hwords
  have htrim : Text.trim Shlex.isBlank cmd = core := by
    rw [hcmd, Text.trim_append_eq hcore hhead hends htrail,
      List.dropWhile_eq_nil_iff.mpr hlead, List.nil_append]
  have htrailing : trailing cmd = trail := by rw [hcmd, trailing_append hcore hends htrail]
  have hline : ∀ c ∈ core, Shlex.isBlank c = true → isIn separators c = true := fun c hc hb =>
    isIn_separators hb fun heq => h.oneLine (by rw [htrim, ← heq]; exact hc)
  have hmono : Widened (isIn separators) trail (dir ++ joined (name :: args)) (core ++ trail) := by
    rw [← joined_append]
    exact hwide.mono hline
  have hblank : ∀ c, isIn separators c = true → u.isWord c = false := fun c hc =>
    isWord_space u (separators_space c (List.contains_iff_mem.mp hc))
  obtain ⟨front, wide, hfront, hdirWide, hwidened, hedge⟩ :=
    hmono.append hblank (isWord_space u rfl)
  have hlead' := edge_of_space u fun c hc => isBlank_space (hlead c hc)
  refine ⟨lead ++ front, wide, ?_, by rwa [htrailing], ?_, ?_, by rwa [htrailing], ?_⟩
  · rw [hcmd, List.append_assoc, hfront, List.append_assoc]
  · rw [lastOf_append]
    refine Eq.trans ?_ (hedge none (lastOf none lead) hlead')
    rcases hdir with rfl | ⟨hdir, -⟩
    · rfl
    · rw [lastOf, hdir]
      rfl
  · rcases hdir with rfl | ⟨-, hlisted⟩
    · rw [hdirWide.eq_nil, List.append_nil]
      exact Or.inl hlead
    · exact Or.inr hlisted
  · have hlast : (joined ((dir ++ name) :: args)).getLast? = core.getLast? := hwide.getLast? (Or.inr hends)
    rw [joined_append, List.getLast?_append_of_ne_nil dir (joined_ne_nil hne args)] at hlast
    have hending := h.ending
    rwa [htrim, ← hlast] at hending

-- ===== the patterns

section

variable {u : Unicode} {cmd t before wide : PyStr}

theorem Spelled.widening (h : Spelled u cmd t before wide) (atEnd : Bool)
    (hend : atEnd = true → trailing cmd = [] ∨ trailing cmd = ['\n']) :
    Widening u.isWord separators (trailing cmd) atEnd where
  space_edge := isWord_space u rfl
  blanks_edge c hc := isWord_space u (separators_space c hc)
  trail_edge c hc := isWord_space u (isBlank_space (h.behind c hc))
  ends := hend

/-- The patterns of dangerous commands survive widening, and none occurs
in the empty text. -/
theorem dangerousPatterns_survive (u : Unicode) :
    (dangerousPatterns u).all (fun p => survives separators false false p.re) = true := by rfl

theorem dangerousPatterns_nonempty (u : Unicode) :
    (dangerousPatterns u).all (fun p => !search u.isWord p.re []) = true := by rfl

/-- The pattern of commands that discard local edits, up to what it looks
for behind the command. -/
def discards : List Re := [edge, lit "git", spaces, words ["checkout", "restore"], edge, anything]

def pathBehind : Re := Re.cat [space, lit "--", spaces, lit "."]

def dotAtEnd : Re := Re.cat [space, lit ".", .textEnd]

/-- The patterns of high risk survive widening, but for one that is tied
to the end of the text. -/
theorem highRiskPatterns_survive (u : Unicode) : ∀ p ∈ highRiskPatterns u,
    survives separators true false p.1.re = true ∧
      (survives separators false false p.1.re = true ∨
        p.1.re = Re.cat (discards ++ [Re.oneOf [pathBehind, dotAtEnd, lit "--source"]])) := by
  simp only [highRiskPatterns, List.forall_mem_cons]
  refine ⟨⟨rfl, Or.inl rfl⟩, ⟨rfl, Or.inl rfl⟩, ⟨rfl, Or.inl rfl⟩, ⟨rfl, Or.inr rfl⟩,
    ⟨rfl, Or.inl rfl⟩, ⟨rfl, Or.inl rfl⟩, ⟨rfl, Or.inl rfl⟩, ⟨rfl, Or.inl rfl⟩, ⟨rfl, Or.inl rfl⟩,
    ⟨rfl, Or.inl rfl⟩, ⟨rfl, Or.inl rfl⟩, ⟨rfl, Or.inl rfl⟩, ⟨rfl, Or.inl rfl⟩, ⟨rfl, Or.inl rfl⟩,
    ⟨rfl, Or.inl rfl⟩, ⟨rfl, Or.inl rfl⟩, ⟨rfl, Or.inl rfl⟩, ⟨rfl, Or.inl rfl⟩, by simp⟩

theorem eq_of_foldCase {c d : Char} (hd : Text.isLower d = false) (h : foldCase c = d) : c = d := by
  unfold foldCase at h
  split at h
  next hupper =>
    rw [← h, isLower_of_isUpper hupper] at hd
    cases hd
  split at h
  · rw [← h] at hd
    cases hd
  split at h
  · rw [← h] at hd
    cases hd
  split at h
  · rw [← h] at hd
    cases hd
  · exact h

/-- A text in one line where the end comes behind a dot ends with it. -/
theorem getLast?_of_dotAtEnd {q : Option Char} {t₁ t : PyStr} {g : Groups} {q' : Option Char}
    {t' : PyStr} {g' : Groups} (hline : '\n' ∉ t) (hsuffix : t₁ <:+ t)
    (h : Takes u.isWord dotAtEnd q t₁ g q' t' g') : t.getLast? = some '.' := by
  obtain ⟨_, _, _, ⟨c, -, rfl, rfl, rfl⟩, _, _, _, ⟨d, hd, rfl, rfl, rfl⟩, hend, rfl, rfl, rfl⟩ := h
  obtain ⟨x, rfl⟩ := hsuffix
  rcases hend with rfl | rfl
  · have hdot : foldCase d = '.' := beq_iff_eq.mp hd
    rw [eq_of_foldCase rfl hdot, List.getLast?_append_of_ne_nil x (by simp)]
    rfl
  · exact absurd (by simp) hline

theorem search_highRisk (h : Spelled u cmd t before wide) {p : Pattern × String}
    (hp : p ∈ highRiskPatterns u) (hfound : search u.isWord p.1.re t = true) :
    search u.isWord p.1.re cmd = true := by
  obtain ⟨hloose, htied⟩ := highRiskPatterns_survive u p hp
  by_cases hend : trailing cmd = [] ∨ trailing cmd = ['\n']
  · rw [h.text]
    exact search_widened (h.widening true fun _ => hend) hloose h.widened h.edge hfound
  have hw := h.widening false fun hfalse => by cases hfalse
  rcases htied with hfree | hdiscards
  · rw [h.text]
    exact search_widened hw hfree h.widened h.edge hfound
  -- with blanks behind the last word, the plain spelling does not end with a dot
  · have hdot : t.getLast? ≠ some '.' := by
      rcases h.ending with hnil | hnewline | hdot
      · exact absurd (Or.inl hnil) hend
      · exact absurd (Or.inr hnewline) hend
      · exact hdot
    rw [hdiscards] at hfound ⊢
    have hother : search u.isWord
        (Re.cat (discards ++ [Re.oneOf [pathBehind, lit "--source"]])) t = true := by
      obtain ⟨x, t₁, rfl, q', t', g', hway⟩ := search_iff.mp hfound
      refine search_iff.mpr ⟨x, t₁, rfl, q', t', g', ?_⟩
      refine takes_cat_last (fun hsuffix hlast => ?_) (List.suffix_append x t₁) hway
      rcases hlast with hpath | hend | hsource
      · exact Or.inl hpath
      · exact absurd (getLast?_of_dotAtEnd h.widened.not_mem_newline hsuffix hend) hdot
      · exact Or.inr hsource
    have hcmd := search_widened hw (r := Re.cat (discards ++ [Re.oneOf [pathBehind, lit "--source"]]))
      rfl h.widened h.edge hother
    rw [← h.text] at hcmd
    obtain ⟨x, t₁, hx, q', t', g', hway⟩ := search_iff.mp hcmd
    refine search_iff.mpr ⟨x, t₁, hx, q', t', g', ?_⟩
    refine takes_cat_last (fun _ hlast => ?_) List.suffix_rfl hway
    rcases hlast with hpath | hsource
    · exact Or.inl hpath
    · exact Or.inr (Or.inr hsource)

-- ===== stripping

/-- A widened text stripped is the stripped text widened, behind what of
the front is left. -/
theorem Spelled.strip (h : Spelled u cmd t before wide) :
    ∃ front wide', Text.strip cmd = front ++ wide' ∧
      Widened (isIn separators) [] (Text.strip t) wide' ∧
      (Text.strip t = [] ∨ SameEdge u.isWord none (lastOf none front)) ∧
      (listed cmd = false ∨ front = []) := by
  have hw := h.widening false fun hfalse => by cases hfalse
  have hblank : ∀ c, isIn separators c = true → u.isWord c = false := fun c hc =>
    hw.blanks_edge c (List.contains_iff_mem.mp hc)
  have hspace : TakesBlanks (isIn separators) Text.isSpace := fun _ c hc =>
    separators_space c (List.contains_iff_mem.mp hc)
  obtain ⟨a, z, ht, ha, hz⟩ := Text.exists_trim Text.isSpace t
  have hwide := h.widened
  rw [ht, List.append_assoc] at hwide
  -- the spaces in front, the stripped text, and the spaces behind
  obtain ⟨a', rest, hwideText, hfront, hrest, hedge⟩ := hwide.append hblank hw.space_edge
  obtain ⟨core, z', hrestText, hcore, hbehind, -⟩ := hrest.append hblank hw.space_edge
  have ha' := hfront.all hspace (by simp) ha
  have hz' := hbehind.all hspace (fun c hc => isBlank_space (h.behind c hc)) hz
  have hcmd : cmd = (before ++ a') ++ core ++ z' := by
    rw [h.text, hwideText, hrestText, List.append_assoc, List.append_assoc]
  have hedge' : SameEdge u.isWord none (lastOf none (before ++ a')) := by
    rw [lastOf_append]
    exact (edge_of_space u ha).trans (hedge none (lastOf none before) h.edge)
  have hspaces : (∀ c ∈ before, Shlex.isBlank c = true) →
      ∀ c ∈ before ++ a', Text.isSpace c = true := fun hbefore c hc =>
    (List.mem_append.mp hc).elim (fun hc => isBlank_space (hbefore c hc)) (ha' c)
  by_cases hnil : Text.strip t = []
  · have hcoreNil : core = [] := by
      have hnone : Text.trim Text.isSpace t = [] := hnil
      rw [hnone] at hcore
      exact hcore.eq_nil
    refine ⟨Text.strip cmd, [], (List.append_nil _).symm, ?_, Or.inl hnil, ?_⟩
    · rw [hnil]
      exact .nil
    · refine h.front.symm.imp_right fun hbefore => ?_
      have hall : ∀ c ∈ cmd, Text.isSpace c = true := by
        rw [hcmd, hcoreNil, List.append_nil]
        exact fun c hc => (List.mem_append.mp hc).elim (hspaces hbefore c) (hz' c)
      rw [Text.strip, Text.trim, List.dropWhile_eq_nil_iff.mpr hall]
      rfl
  · obtain ⟨hhead, hlast⟩ := Text.trim_ends Text.isSpace t
    have hne : core ≠ [] := fun hc => hnil (hcore.nil_of_wide hc)
    have hlast' : ∀ c ∈ core.getLast?, Text.isSpace c = false := by
      rw [← hcore.getLast? (Or.inl fun hsome => by
        have := hlast ' ' hsome
        cases this)]
      exact hlast
    have hhead' : ∀ c ∈ core.head?, Text.isSpace c = false := by
      rw [← hcore.head? fun hsome => by
        have := hhead ' ' hsome
        cases this]
      exact hhead
    have hstrip : Text.strip cmd = (before ++ a').dropWhile Text.isSpace ++ core := by
      rw [hcmd]
      exact Text.trim_append_eq hne hhead' hlast' hz'
    refine ⟨_, core, hstrip, hcore, Or.inr ?_, h.front.symm.imp_right fun hbefore => ?_⟩
    · exact hedge'.dropWhile Text.isSpace
    · exact List.dropWhile_eq_nil_iff.mpr (hspaces hbefore)

theorem search_dangerous (h : Spelled u cmd t before wide) {p : Pattern}
    (hp : p ∈ dangerousPatterns u) (hfound : search u.isWord p.re (Text.strip t) = true) :
    search u.isWord p.re (Text.strip cmd) = true := by
  have hsurvives := List.all_eq_true.mp (dangerousPatterns_survive u) p hp
  have hnonempty := List.all_eq_true.mp (dangerousPatterns_nonempty u) p hp
  have hw := h.widening false fun hfalse => by cases hfalse
  obtain ⟨front, wide', hstrip, hwide, hedge, -⟩ := h.strip
  rcases hedge with hnil | hedge
  · rw [hnil] at hfound
    rw [hfound] at hnonempty
    cases hnonempty
  · rw [hstrip]
    exact search_widened { hw with trail_edge := by simp, ends := by simp } hsurvives hwide hedge
      hfound

end

-- ===== the read-only list

section

variable {t s : PyStr}

theorem not_separator_of_plain {c : Char} (h : Shlex.isPlain c = true) :
    isIn separators c = false := by
  by_contra hno
  have hmem : c ∈ separators := List.contains_iff_mem.mp (by simpa [isIn] using hno)
  simp only [separators, List.mem_cons, List.not_mem_nil, or_false] at hmem
  rcases hmem with rfl | rfl | rfl <;> cases h

theorem plain_head {w b s : PyStr} (hw : IsEntryWord w) (h : lower s = w ++ b) :
    ∃ c s', s = c :: s' ∧ Shlex.isPlain c = true := by
  obtain ⟨d, w, rfl⟩ := List.exists_cons_of_ne_nil hw.1
  cases s with
  | nil => cases h
  | cons c s =>
      refine ⟨c, s, rfl, ?_⟩
      by_contra hplain
      have hlower : lower (c :: s) = lowerChar c ++ lower s := rfl
      rw [hlower, lowerChar_of_not_plain hplain] at h
      obtain ⟨rfl, -⟩ := List.cons.inj h
      exact hplain (isEntryChar_plain (hw.2 c (List.mem_cons_self ..)))

theorem space_of_word {w b x after : PyStr} (hw : IsEntryWord w) (hx : lower x = w ++ b)
    (h : Widened (isIn separators) [] t (' ' :: (x ++ after))) :
    ∃ t', t = ' ' :: t' ∧ Widened (isIn separators) [] t' (x ++ after) := by
  obtain ⟨c, x, rfl, hc⟩ := plain_head hw hx
  obtain ⟨t', u, x', rfl, hrest, hu, hwide⟩ := h.space
  cases u with
  | nil => exact ⟨t', rfl, by rwa [hrest]⟩
  | cons d u =>
      obtain ⟨rfl, -⟩ := List.cons.inj hrest
      have hblank := hu c (List.mem_cons_self ..)
      rw [not_separator_of_plain hc] at hblank
      cases hblank

theorem joined_head (w : PyStr) (ws : List PyStr) : ∃ b, joined (w :: ws) = w ++ b := by
  cases ws with
  | nil => exact ⟨[], (List.append_nil w).symm⟩
  | cons v ws => exact ⟨_, rfl⟩

/-- Where words of an entry are spelled in the wide text with single
spaces between, so are they in the narrow one. -/
theorem widened_joined {us : List PyStr} (hus : ∀ w ∈ us, IsEntryWord w) :
    ∀ {front after t : PyStr}, lower front = joined us →
      Widened (isIn separators) [] t (front ++ after) →
      ∃ after', t = front ++ after' := by
  induction us with
  | nil =>
      intro front after t hfront _
      obtain rfl : front = [] := lower_eq_nil hfront
      exact ⟨t, rfl⟩
  | cons w us ih =>
      intro front after t hfront h
      cases us with
      | nil =>
          have hplain := plain_of_lower (f := front) fun c hc =>
            (hus w (by simp)).2 c (by rw [hfront] at hc; exact hc)
          obtain ⟨t', rfl, -⟩ := h.plain fun c hc => not_separator_of_plain (hplain c hc)
          exact ⟨t', rfl⟩
      | cons v us =>
          obtain ⟨f, rest, rfl, -, hrest, -, hplain⟩ :=
            lower_eq_word (hus w (by simp)) (cutsClean_space w _) hfront
          obtain ⟨rest, rfl, htail⟩ := lower_eq_space hrest
          rw [List.append_assoc, List.cons_append] at h
          obtain ⟨t₁, rfl, h₁⟩ := h.plain fun c hc => not_separator_of_plain (hplain c hc)
          obtain ⟨b, hb⟩ := joined_head v us
          obtain ⟨t₂, rfl, h₂⟩ := space_of_word (hus v (by simp)) (htail.trans hb) h₁
          obtain ⟨t₃, rfl⟩ := ih (fun x hx => hus x (List.mem_cons_of_mem w hx)) htail h₂
          exact ⟨t₃, by simp⟩

/-- What begins with letters begins with them normalized, if none is a
dot. -/
theorem begins_normalize {g x : PyStr} (hg : ∀ c ∈ g, Shlex.isPlain c = true) (hdot : '.' ∉ g) :
    ∃ y, normalize (g ++ x) = g ++ y := by
  have hspace := ne_space_of_plain hg
  rw [normalize, List.takeWhile_append_of_pos hspace, List.dropWhile_append_of_pos hspace]
  rcases dropExe_eq (g ++ x.takeWhile (· != ' ')) with hkept | ⟨z, hz, hexe⟩
  · rw [hkept, List.append_assoc]
    exact ⟨_, rfl⟩
  · -- what is dropped begins with a dot, behind the letters
    rcases List.append_eq_append_iff.mp hz with ⟨y, hdrop, -⟩ | ⟨y, hfront, hbehind⟩
    · rw [hdrop, List.append_assoc]
      exact ⟨_, rfl⟩
    · cases y with
      | nil =>
          rw [List.append_nil] at hfront
          rw [← hfront]
          exact ⟨_, rfl⟩
      | cons c y =>
          have hlower : lower (c :: (y ++ x.takeWhile (· != ' '))) = ".exe".toList := by
            rw [← hexe, hbehind]
            rfl
          have hc : lowerChar c = ['.'] := by
            rcases lowerChar_cases c with hc | ⟨d, hc⟩
            · rw [lower, List.flatMap_cons, hc] at hlower
              cases hlower
            · rw [lower, List.flatMap_cons, hc] at hlower
              obtain rfl : d = '.' := (List.cons.inj hlower).1
              exact hc
          refine absurd ?_ hdot
          rw [hfront, eq_of_lowerChar rfl hc]
          simp

/-- The entries have no blank behind them, but for programs with one. -/
theorem entries_trailing : ∀ e ∈ safePrefixes,
    e = rstrip e ∨ (argsOf e = [] ∧ e = rstrip e ++ [' ']) := by
  decide +kernel

theorem plain_of_normalize {w : PyStr} (hw : IsEntryWord w) (h : lower (normalize s) = w) :
    ∀ c ∈ s, Shlex.isPlain c = true := by
  have hnormal := plain_of_lower (f := normalize s) (by rw [h]; exact hw.2)
  have htake : normalize s = dropExe (s.takeWhile (· != ' ')) := by
    rw [← takeWhile_normalize, List.takeWhile_eq_self_iff.mpr (ne_space_of_plain hnormal)]
  have hdrop : s.dropWhile (· != ' ') = [] := by
    have hcut : dropExe (s.takeWhile (· != ' ')) ++ s.dropWhile (· != ' ')
        = dropExe (s.takeWhile (· != ' ')) := htake
    exact List.append_right_eq_self.mp hcut
  have hwhole : s = s.takeWhile (· != ' ') := by
    conv => lhs; rw [← List.takeWhile_append_dropWhile (p := (· != ' ')) (l := s), hdrop]
    exact List.append_nil _
  rw [htake] at hnormal
  rw [hwhole]
  rcases dropExe_eq (s.takeWhile (· != ' ')) with hkept | ⟨x, hx, hexe⟩
  · rwa [hkept] at hnormal
  · rw [hx]
    intro c hc
    rcases List.mem_append.mp hc with hc | hc
    · exact hnormal c hc
    · exact plain_of_lower (by rw [hexe]; exact exe_plain) c hc

/-- What begins with a program's name begins with it in the plain
spelling. -/
theorem begins_program (h : Widened (isIn separators) [] t s) {w b : PyStr} (hw : IsProgram w)
    (hbegins : lower (normalize s) = w ++ b) : w <+: lower (normalize t) := by
  obtain ⟨g, after, hnormal, -, hplain, hg⟩ := lower_eq_program hw.1 hbegins
  obtain ⟨after, rfl⟩ := front_of_normalize hnormal hplain
  obtain ⟨t', rfl, -⟩ := h.plain fun c hc => not_separator_of_plain (hplain c hc)
  have hdot : '.' ∉ g := fun hmem => by
    have hlower := mem_of_mem_lower (by decide) hmem
    rcases hg with hg | hg
    · exact hw.2.2 (hg ▸ hlower)
    · rw [hg, List.mem_append] at hlower
      exact hlower.elim hw.2.2 (by decide)
  obtain ⟨y, hy⟩ := begins_normalize (x := t') hplain hdot
  rw [hy, lower_append]
  rcases hg with hg | hg
  · exact ⟨lower y, by rw [hg]⟩
  · exact ⟨'\u0307' :: lower y, by rw [hg]; simp⟩

/-- What begins with a program's name and a space, and goes on with what
the list spells, does so in the plain spelling. -/
theorem begins_space (h : Widened (isIn separators) [] t s) {w b : PyStr} {us : List PyStr}
    (hw : IsEntryWord w) (hus : ∀ v ∈ us, IsEntryWord v) (hcut : CutsClean (joined us) b)
    (hbegins : lower (normalize s) = w ++ ' ' :: (joined us ++ b)) :
    w ++ ' ' :: joined us <+: lower (normalize t) := by
  obtain ⟨chunk, after, rfl, -, hplain, hchunk, hafter⟩ := chunk_of_space hw hbegins
  obtain ⟨front, rest, rfl, hfront, -⟩ := lower_eq_append hcut hafter
  obtain ⟨t₁, rfl, h₁⟩ := h.plain fun c hc => not_separator_of_plain (hplain c hc)
  have hnext : ∃ t₂, t₁ = ' ' :: (front ++ t₂) := by
    cases us with
    | nil =>
        obtain rfl : front = [] := lower_eq_nil hfront
        obtain ⟨t₂, -, -, rfl, -⟩ := h₁.space
        exact ⟨t₂, rfl⟩
    | cons v us =>
        obtain ⟨b', hb'⟩ := joined_head v us
        obtain ⟨t₂, rfl, h₂⟩ := space_of_word (hus v (by simp)) (hfront.trans hb') h₁
        obtain ⟨t₃, rfl⟩ := widened_joined hus hfront h₂
        exact ⟨t₃, rfl⟩
  obtain ⟨t₂, rfl⟩ := hnext
  refine ⟨lower t₂, ?_⟩
  have hspace : lower (' ' :: (front ++ t₂)) = ' ' :: (joined us ++ lower t₂) := by
    rw [← hfront, ← lower_append]
    rfl
  rw [normalize_append_space hplain, lower_append, hchunk, hspace]
  simp

theorem listed_widened (h : Widened (isIn separators) [] t s) {e : PyStr} (he : e ∈ safePrefixes)
    (hbegins : beginsWith (lower (normalize s)) e = true) :
    beginsWith (lower (normalize t)) e = true := by
  obtain ⟨program, us, hE⟩ := entry_of_mem he
  simp only [beginsWith, Bool.or_eq_true, beq_iff_eq, List.isPrefixOf_iff_prefix] at hbegins ⊢
  rcases entries_trailing e he with htext | ⟨hnone, htext⟩
  · obtain ⟨b, hb⟩ : ∃ b, lower (normalize s) = joined (program :: us) ++ b := by
      rw [← hE.text]
      rcases hbegins with hwhole | ⟨b, hb⟩
      · exact ⟨[], by rw [hwhole, List.append_nil]⟩
      · exact ⟨b, by rw [← hb, ← htext]⟩
    refine Or.inr ?_
    rw [htext, hE.text]
    cases us with
    | nil => exact begins_program h hE.program_ok hb
    | cons v us =>
        have hlast := entries_cut e he (by rw [hE.argsOf]; simp)
        rw [hE.text, joined, List.getLast?_append_of_ne_nil program (by simp),
          ← List.singleton_append, List.getLast?_append_of_ne_nil [' '] ?_] at hlast
        · exact begins_space h hE.program_ok.1 hE.args_ok (Or.inl hlast)
            (by rw [hb, joined, List.append_assoc, List.cons_append])
        · exact joined_ne_nil (hE.args_ok v (by simp)).1 us
  · obtain rfl : us = [] := by rw [← hE.argsOf, hnone]
    have hprogram : rstrip e = program := hE.text
    rcases hbegins with hwhole | ⟨b, hb⟩
    · have hplain := plain_of_normalize hE.program_ok.1 (hwhole.trans hprogram)
      have h' : Widened (isIn separators) [] t (s ++ []) := by rwa [List.append_nil]
      obtain ⟨t', rfl, htail⟩ := h'.plain fun c hc => not_separator_of_plain (hplain c hc)
      rw [htail.nil_of_wide rfl, List.append_nil]
      exact Or.inl hwhole
    · have hspace : lower (normalize s) = program ++ ' ' :: (joined [] ++ b) := by
        rw [← hb, htext, hprogram, List.append_assoc]
        rfl
      refine Or.inr ?_
      rw [htext, hprogram]
      exact begins_space h hE.program_ok.1 (by simp) (Or.inl (by simp [joined])) hspace

end

-- ===== the classes

def CommandClass.rank : CommandClass → Nat
  | .readOnly => 0
  | .mutating => 1
  | .highRisk => 2
  | .blocked => 3

theorem CommandClass.rank_le (c : CommandClass) : c.rank ≤ CommandClass.blocked.rank := by
  cases c <;> decide

section

variable {u : Unicode} {cmd : PyStr} {spec : CommandSpec}

def dangerous (u : Unicode) (cmd : PyStr) : Bool :=
  (dangerousPatterns u).any fun p => search u.isWord p.re (Text.strip cmd)

def risky (u : Unicode) (cmd : PyStr) : Bool :=
  (highRiskPatterns u).any fun p => search u.isWord p.1.re cmd

theorem mode_eq (u : Unicode) (cmd : PyStr) : (classifyCommand u cmd).mode =
    if dangerous u cmd then .block else if listed cmd then .safe else .ask := by
  rw [dangerous, ← List.isSome_find?, classifyCommand, listed]
  cases (dangerousPatterns u).find? fun p => search u.isWord p.re (Text.strip cmd) with
  | some p => rfl
  | none => exact apply_ite SafetyVerdict.mode ..

theorem class_eq (u : Unicode) (cmd : PyStr) : (classify u cmd).1 =
    if dangerous u cmd then .blocked else if risky u cmd then .highRisk
    else if listed cmd then .readOnly else .mutating := by
  have hmode := mode_eq u cmd
  simp only [classify, risky, ← List.isSome_find?, hmode]
  by_cases hdangerous : dangerous u cmd = true
  · simp [hdangerous]
  · cases (highRiskPatterns u).find? fun p => search u.isWord p.1.re cmd with
    | some p => cases hlisted : listed cmd <;> simp [hdangerous]
    | none => cases hlisted : listed cmd <;> simp [hdangerous]

theorem PlainlySpelled.found (h : PlainlySpelled cmd) (hspec : fromString cmd = .ok spec) :
    (dangerous u spec.plain = true → dangerous u cmd = true) ∧
      (risky u spec.plain = true → risky u cmd = true) ∧
      (listed cmd = true → listed spec.plain = true) := by
  obtain ⟨before, wide, hspelled⟩ := h.spelled u hspec
  refine ⟨fun hfound => ?_, fun hfound => ?_, fun hfound => ?_⟩
  · obtain ⟨p, hp, hfound⟩ := List.any_eq_true.mp hfound
    exact List.any_eq_true.mpr ⟨p, hp, search_dangerous hspelled hp hfound⟩
  · obtain ⟨p, hp, hfound⟩ := List.any_eq_true.mp hfound
    exact List.any_eq_true.mpr ⟨p, hp, search_highRisk hspelled hp hfound⟩
  · obtain ⟨front, wide', hstrip, hwide, -, hfront⟩ := hspelled.strip
    obtain rfl : front = [] := hfront.resolve_left (by simp [hfound])
    obtain ⟨e, he, hbegins⟩ := List.any_eq_true.mp hfound
    rw [hstrip] at hbegins
    exact List.any_eq_true.mpr ⟨e, he, listed_widened hwide he hbegins⟩

end

end Velune.Commands
