/-
What a command reported as reading runs.

The test is made on the text: it begins with an entry of the read-only
list. It says nothing about where the entry ends, nor about what follows.
Where the entry ends with a word of the command line (`EndsWord`) the
program and its leading arguments are the entry's (`leads_of_endsWord`);
for a program named without a directory this is also the only way they
can be (`endsWord_of_leads`), because no entry's word is the beginning of
another's.
-/
import Velune.Commands.Safety

namespace Velune.Commands

open Lib

-- ===== calls

def entryWords (entry : PyStr) : List PyStr := (entry.splitOn ' ').filter (· ≠ [])

def isStem (entry : PyStr) : Bool := entry.getLast? == some '-' || entry.getLast? == some '/'

def leads (stem : Bool) : List PyStr → List PyStr → Bool
  | [], _ => true
  | _ :: _, [] => false
  | w :: ws, v :: vs =>
      (if stem && ws.isEmpty then w.isPrefixOf v else w == v) && leads stem ws vs

/-- The program, in lower case and without `.exe`. -/
def CommandSpec.program (spec : CommandSpec) : PyStr := lower (dropExe spec.executable)

def CommandSpec.shown (spec : CommandSpec) : List PyStr := spec.program :: spec.args.map lower

/-- The actions of `find` that change files or start programs. -/
def isFindAction (arg : PyStr) : Bool :=
  ["-delete", "-exec", "-execdir", "-ok", "-okdir"].any (fun a => arg == a.toList) ||
    "-fprint".toList.isPrefixOf arg

/-- The options of `git branch` and `git tag` that change refs. -/
def refOptions : List PyStr :=
  ["-d", "-D", "--delete", "-m", "-M", "--move", "-c", "-C", "--copy", "-f", "--force", "-t",
    "--track", "--no-track", "-u", "--set-upstream-to", "--unset-upstream", "--edit-description",
    "--create-reflog", "-a", "--annotate", "-s", "--sign", "--local-user", "--message", "-F",
    "--file", "-e", "--edit"].map String.toList

def isOption (option arg : PyStr) : Bool := arg == option || (option ++ ['=']).isPrefixOf arg

def changesRefs (arg : PyStr) : Bool :=
  arg.head? != some '-' || refOptions.any fun option => isOption option arg

/-- The calls that change files or refs or start other programs, among
those of programs on the list. -/
def CommandSpec.modifies (spec : CommandSpec) : Bool :=
  if spec.program = "find".toList then spec.args.any isFindAction
  else if spec.program = "git".toList then
    match spec.args with
    | [] => false
    | sub :: rest =>
        if ["branch".toList, "tag".toList, "remote".toList].contains sub then rest.any changesRefs
        else if ["log".toList, "diff".toList, "show".toList].contains sub then
          rest.any (isOption "--output".toList)
        else false
  else false

/-- A call of an entry of the read-only list, and none that modifies. -/
def ReadsOnly (spec : CommandSpec) : Prop :=
  (∃ entry ∈ safePrefixes, leads (isStem entry) (entryWords entry) spec.shown = true) ∧
    spec.modifies = false

-- ===== text

/-- A text as the list spells it, its words with single blanks between. -/
def joined : List PyStr → PyStr
  | [] => []
  | [w] => w
  | w :: v :: ws => w ++ ' ' :: joined (v :: ws)

/-- The spellings of an entry: with `.exe` behind the program, or without. -/
def spellings (entry : PyStr) : List (List PyStr) :=
  match entryWords entry with
  | [] => []
  | program :: args => [program :: args, (program ++ ".exe".toList) :: args]

/-- A command line begins with an entry that ends where a word does, or
stands for every option. -/
def EndsWord (cmd entry : PyStr) : Prop :=
  ∃ front after, cmd.dropWhile Shlex.isBlank = front ++ after ∧
    (∃ words ∈ spellings entry, lower front = joined words) ∧
    (isStem entry = true ∨ ∃ more, Shlex.rest after = some ([] :: more))

-- ===== lower case

def isEntryChar (c : Char) : Bool := isAscii c && Shlex.isPlain c && !Text.isSpace c

theorem lowerChar_cases (c : Char) :
    lowerChar c = ['i', '\u0307'] ∨ ∃ d, lowerChar c = [d] := by
  unfold lowerChar
  split
  · exact Or.inr ⟨_, rfl⟩
  split
  · exact Or.inl rfl
  split
  · exact Or.inr ⟨_, rfl⟩
  · exact Or.inr ⟨_, rfl⟩

theorem lower_append (s t : PyStr) : lower (s ++ t) = lower s ++ lower t := List.flatMap_append

theorem lower_eq_nil {s : PyStr} (h : lower s = []) : s = [] := by
  cases s with
  | nil => rfl
  | cons c s =>
      rcases lowerChar_cases c with hc | ⟨d, hc⟩ <;> simp [lower, hc] at h

/-- A cut in a lowered text is not inside the lower case of a character. -/
def CutsClean (a b : PyStr) : Prop := a.getLast? ≠ some 'i' ∨ b.head? ≠ some '\u0307'

theorem cutsClean_nil (a : PyStr) : CutsClean a [] := Or.inr (by simp)

theorem cutsClean_space (a b : PyStr) : CutsClean a (' ' :: b) := Or.inr (by simp)

theorem CutsClean.tail {x : Char} {a b : PyStr} (h : CutsClean (x :: a) b) : CutsClean a b :=
  h.imp_left fun hlast => by
    cases a with
    | nil => simp
    | cons y a => rwa [List.getLast?_cons_cons] at hlast

theorem lower_eq_append : ∀ {s a b : PyStr}, CutsClean a b → lower s = a ++ b →
    ∃ front after, s = front ++ after ∧ lower front = a ∧ lower after = b
  | s, [], b, _, h => ⟨[], s, rfl, rfl, h⟩
  | [], _ :: _, _, _, h => by cases h
  | c :: s, x :: a, b, hcut, h => by
      have hlower : ∀ t, lower (c :: t) = lowerChar c ++ lower t := fun _ => rfl
      rcases lowerChar_cases c with hc | ⟨d, hc⟩
      · rw [hlower, hc] at h
        injection h with hx h
        subst hx
        cases a with
        | nil =>
            obtain rfl : '\u0307' :: lower s = b := h
            exact absurd hcut (by simp [CutsClean])
        | cons y a =>
            injection h with hy h
            obtain ⟨front, after, rfl, hfront, hafter⟩ := lower_eq_append hcut.tail.tail h
            exact ⟨c :: front, after, rfl, by rw [hlower, hc, hfront, ← hy]; rfl, hafter⟩
      · rw [hlower, hc] at h
        injection h with hx h
        obtain ⟨front, after, rfl, hfront, hafter⟩ := lower_eq_append hcut.tail h
        exact ⟨c :: front, after, rfl, by rw [hlower, hc, hfront, ← hx]; rfl, hafter⟩

theorem length_lower {s : PyStr} (h : ∀ c ∈ lower s, isAscii c = true) :
    (lower s).length = s.length := by
  induction s with
  | nil => rfl
  | cons c s ih =>
      have hlower : lower (c :: s) = lowerChar c ++ lower s := rfl
      rw [hlower] at h ⊢
      rcases lowerChar_cases c with hc | ⟨d, hc⟩
      · exact absurd (h '\u0307' (by simp [hc])) (by decide)
      · have ih := ih fun e he => h e (by simp [he])
        simp [hc, ih]

theorem lowerChar_of_not_plain {c : Char} (h : Shlex.isPlain c ≠ true) : lowerChar c = [c] := by
  simp only [Shlex.isPlain, Shlex.isBlank, Shlex.isQuote, Bool.and_eq_true, Bool.not_eq_true',
    Bool.or_eq_false_iff, beq_eq_false_iff_ne, ne_eq, not_and_or, not_not] at h
  rcases h with (((rfl | rfl) | rfl) | rfl) | rfl | rfl <;> rfl

theorem isPlain_of_lowerChar {c d : Char} (h : lowerChar c = [d]) (hd : Shlex.isPlain d = true) :
    Shlex.isPlain c = true := by
  by_contra hc
  rw [lowerChar_of_not_plain hc] at h
  injection h with h
  exact hc (h ▸ hd)

theorem isLower_of_isUpper {c : Char} (h : Text.isUpper c = true) :
    Text.isLower (Char.ofNat (c.toNat + 32)) = true := by
  simp only [Text.isUpper, Bool.and_eq_true, decide_eq_true_eq, Char.le_def,
    UInt32.le_iff_toNat_le] at h
  have hrange : 65 ≤ c.toNat ∧ c.toNat ≤ 90 := h
  have hletters : ∀ n < 26, Text.isLower (Char.ofNat (65 + n + 32)) = true := by decide
  have hletter := hletters (c.toNat - 65) (by omega)
  rwa [Nat.add_sub_cancel' hrange.1] at hletter

theorem eq_of_lowerChar {c d : Char} (hd : Text.isLower d = false) (h : lowerChar c = [d]) :
    c = d := by
  unfold lowerChar at h
  split at h
  next hupper =>
    rw [← List.singleton_inj.mp h, isLower_of_isUpper hupper] at hd
    cases hd
  split at h
  · cases h
  split at h
  · rw [← List.singleton_inj.mp h] at hd
    cases hd
  · exact List.singleton_inj.mp h

-- ===== the entries

theorem exe_plain : ∀ c ∈ ".exe".toList, isEntryChar c = true := Text.all_mem (by decide)

/-- A word of an entry, as far as reading a text that spells it goes. -/
def IsEntryWord (w : PyStr) : Prop := w ≠ [] ∧ ∀ c ∈ w, isEntryChar c = true

instance (w : PyStr) : Decidable (IsEntryWord w) :=
  decidable_of_iff (w ≠ [] ∧ w.all isEntryChar = true) (and_congr_right' List.all_eq_true)

def IsProgram (w : PyStr) : Prop := IsEntryWord w ∧ '/' ∉ w ∧ '.' ∉ w

instance (w : PyStr) : Decidable (IsProgram w) :=
  inferInstanceAs (Decidable (IsEntryWord w ∧ '/' ∉ w ∧ '.' ∉ w))

/-- An entry: a program's name and words, single blanks between, at most
one behind them; it stands for options only behind a word. -/
structure Entry (entry program : PyStr) (args : List PyStr) : Prop where
  words : entryWords entry = program :: args
  program_ok : IsProgram program
  args_ok : ∀ w ∈ args, IsEntryWord w
  text : rstrip entry = joined (program :: args)
  stem : isStem entry = true → args ≠ []

def isEntry (entry : PyStr) : Bool :=
  match entryWords entry with
  | [] => false
  | program :: args =>
      decide (IsProgram program) && decide (∀ w ∈ args, IsEntryWord w) &&
        decide (rstrip entry = joined (program :: args)) && (!isStem entry || decide (args ≠ []))

theorem entry_of_isEntry {entry : PyStr} (h : isEntry entry = true) :
    ∃ program args, Entry entry program args := by
  unfold isEntry at h
  split at h
  · cases h
  next program args hwords =>
    simp only [Bool.and_eq_true, decide_eq_true_eq, Bool.or_eq_true, Bool.not_eq_true'] at h
    obtain ⟨⟨⟨hprogram, hargs⟩, htext⟩, hstem⟩ := h
    refine ⟨program, args, hwords, hprogram, hargs, htext, fun hs => ?_⟩
    exact hstem.resolve_left (by simp [hs])

def programOf (entry : PyStr) : PyStr := (entryWords entry).headD []

def argsOf (entry : PyStr) : List PyStr := (entryWords entry).tail

/-- Two lists of words differ at some place, where neither word begins
the other. -/
def apart : List PyStr → List PyStr → Bool
  | u :: us, v :: vs => if u = v then apart us vs else !u.isPrefixOf v && !v.isPrefixOf u
  | _, _ => false

def standsAlone (program : PyStr) : Bool :=
  safePrefixes.any fun entry => entryWords entry == [program]

theorem safePrefixes_checked :
    (∀ e ∈ safePrefixes, isEntry e = true ∧ (argsOf e ≠ [] → (rstrip e).getLast? ≠ some 'i')) ∧
      ∀ e ∈ safePrefixes, ∀ f ∈ safePrefixes,
        (argsOf e = [] → (programOf e).isPrefixOf (programOf f) = true →
          programOf e = programOf f) ∧
        (programOf e = programOf f → standsAlone (programOf e) = true ∨ isStem e = true ∨
          (isStem f = false ∧ (argsOf e = argsOf f ∨ apart (argsOf e) (argsOf f) = true))) := by
  simp only [standsAlone, safePrefixes, List.map, String.reduceToList]
  decide +kernel

theorem entry_of_mem {entry : PyStr} (h : entry ∈ safePrefixes) :
    ∃ program args, Entry entry program args :=
  entry_of_isEntry (safePrefixes_checked.1 entry h).1

-- ===== reading

theorem isEntryChar_plain {c : Char} (h : isEntryChar c = true) : Shlex.isPlain c = true := by
  simp only [isEntryChar, Bool.and_eq_true] at h
  exact h.1.2

theorem isEntryChar_space {c : Char} (h : isEntryChar c = true) : Text.isSpace c = false := by
  simp only [isEntryChar, Bool.and_eq_true, Bool.not_eq_true'] at h
  exact h.2

theorem isEntryChar_ascii {c : Char} (h : isEntryChar c = true) : isAscii c = true := by
  simp only [isEntryChar, Bool.and_eq_true] at h
  exact h.1.1

theorem plain_of_lower {f : PyStr} (h : ∀ c ∈ lower f, isEntryChar c = true) :
    ∀ c ∈ f, Shlex.isPlain c = true := by
  intro c hc
  rcases lowerChar_cases c with hlower | ⟨d, hlower⟩
  · have hmem : '\u0307' ∈ lower f := List.mem_flatMap.mpr ⟨c, hc, by simp [hlower]⟩
    exact absurd (h _ hmem) (by decide)
  · have hmem : d ∈ lower f := List.mem_flatMap.mpr ⟨c, hc, by simp [hlower]⟩
    exact isPlain_of_lowerChar hlower (isEntryChar_plain (h d hmem))

theorem lower_eq_word {w b s : PyStr} (hw : IsEntryWord w) (hcut : CutsClean w b)
    (h : lower s = w ++ b) :
    ∃ f after, s = f ++ after ∧ lower f = w ∧ lower after = b ∧ f ≠ [] ∧
      ∀ c ∈ f, Shlex.isPlain c = true := by
  obtain ⟨hne, hchars⟩ := hw
  obtain ⟨f, after, hs, hf, hafter⟩ :=
    lower_eq_append hcut h
  refine ⟨f, after, hs, hf, hafter, fun hnil => hne ?_, ?_⟩
  · rw [← hf, hnil]
    rfl
  · exact plain_of_lower (by rw [hf]; exact hchars)

theorem lower_eq_space {b s : PyStr} (h : lower s = ' ' :: b) :
    ∃ after, s = ' ' :: after ∧ lower after = b := by
  cases s with
  | nil => cases h
  | cons c s =>
      have hlower : lower (c :: s) = lowerChar c ++ lower s := rfl
      rw [hlower] at h
      rcases lowerChar_cases c with hc | ⟨d, hc⟩
      · rw [hc] at h
        injection h with h _
        exact absurd h (by decide)
      · rw [hc] at h
        injection h with hd h
        subst hd
        exact ⟨s, by rw [eq_of_lowerChar rfl hc], h⟩

/-- The words of a text that begins as the list spells some words: those
words, the last of them going on with what follows. -/
theorem split_joined {us : List PyStr} (hne : us ≠ []) (hus : ∀ w ∈ us, IsEntryWord w)
    (after : PyStr) : ∀ {front : PyStr}, lower front = joined us →
      ∃ fs f, Shlex.split (front ++ after)
          = (Shlex.rest after).map (fun ws => fs ++ Shlex.prepend f ws) ∧
        fs.map lower ++ [lower f] = us := by
  induction us with
  | nil => exact absurd rfl hne
  | cons w us ih =>
      intro front h
      cases us with
      | nil =>
          obtain ⟨f, rest, hfront, hf, hrest, hnil, hplain⟩ :=
            lower_eq_word (b := []) (hus w (by simp)) (cutsClean_nil w) (by simpa [joined] using h)
          obtain rfl : rest = [] := lower_eq_nil hrest
          refine ⟨[], f, ?_, by simp [hf]⟩
          rw [hfront, List.append_nil, Shlex.split_plain hnil hplain]
          rfl
      | cons v us =>
          obtain ⟨f, rest, hfront, hf, hrest, hnil, hplain⟩ :=
            lower_eq_word (hus w (by simp)) (cutsClean_space w _) h
          obtain ⟨rest', hrest', htail⟩ := lower_eq_space hrest
          obtain ⟨fs, g, hsplit, hwords⟩ :=
            ih (by simp) (fun x hx => hus x (List.mem_cons_of_mem w hx)) htail
          refine ⟨f :: fs, g, ?_, by simp [hf, ← hwords]⟩
          rw [hfront, hrest', List.append_assoc, Shlex.split_plain hnil hplain,
            List.cons_append, Shlex.rest_blank rfl, hsplit]
          cases Shlex.rest after with
          | none => rfl
          | some ws => simp [Shlex.prepend]

-- ===== programs

theorem fromString_ok {cmd : PyStr} {spec : CommandSpec} (h : fromString cmd = .ok spec) :
    ∃ first args, Shlex.split cmd = some (first :: args) ∧
      spec = ⟨(PurePath.parse first).name, args⟩ := by
  unfold fromString at h
  split at h
  · cases h
  · cases h
  next first args hsplit =>
    split at h
    · cases h
    · injection h with h
      exact ⟨first, args, hsplit, h.symm⟩

theorem name_of_bare {w : PyStr} (hslash : '/' ∉ w) (hne : w ≠ []) (hdot : w ≠ ['.']) :
    (PurePath.parse w).name = w := by
  have hparts : w.splitOn '/' = [w] := List.splitOn_eq_singleton hslash
  have hpart : PurePath.isPart w = true := by simp [PurePath.isPart, hne, hdot]
  simp [PurePath.parse, PurePath.name, hparts, hpart]

/-- A character that is neither a letter nor `k` is its own lower case
only. -/
theorem mem_of_mem_lower {c : Char} {w : PyStr} (hc : lowerChar c = [c]) (h : c ∈ w) :
    c ∈ lower w := List.mem_flatMap.mpr ⟨c, h, by simp [hc]⟩

theorem dropExe_of_not {w : PyStr} (h : '.' ∉ lower w) : dropExe w = w := by
  refine if_neg fun hsuffix => h ?_
  exact (List.isSuffixOf_iff_suffix.mp hsuffix).subset (by decide)

/-- A program's name with `.exe` behind it is cut down to the name. -/
theorem dropExe_append {f x : PyStr} (hx : lower x = ".exe".toList) : dropExe (f ++ x) = f := by
  have hlength : x.length = 4 := by
    rw [← length_lower (by rw [hx]; exact Text.all_mem (by decide)), hx]
    rfl
  have hsuffix : ".exe".toList.isSuffixOf (lower (f ++ x)) = true := by
    rw [List.isSuffixOf_iff_suffix, lower_append, hx]
    exact List.suffix_append _ _
  rw [dropExe, if_pos hsuffix, List.length_append, hlength, Nat.add_sub_cancel, List.take_left]

/-- The program of a word that spells a program's name, with or without
`.exe`. -/
theorem program_of_spelled {program first : PyStr} {args : List PyStr} (hp : IsProgram program)
    (h : lower first = program ∨ lower first = program ++ ".exe".toList) :
    (CommandSpec.mk (PurePath.parse first).name args).program = program := by
  obtain ⟨⟨hne, hchars⟩, hslash, hdot⟩ := hp
  have hbare : (PurePath.parse first).name = first := by
    refine name_of_bare (fun hmem => ?_) (fun hnil => ?_) fun hone => ?_
    · have hmem := mem_of_mem_lower (by decide) hmem
      rcases h with h | h
      · exact hslash (h ▸ hmem)
      · rw [h, List.mem_append] at hmem
        exact hmem.elim hslash (by decide)
    · subst hnil
      rcases h with h | h
      · exact hne h.symm
      · exact hne (List.append_eq_nil_iff.mp h.symm).1
    · subst hone
      have hlower : lower ['.'] = ['.'] := rfl
      rw [hlower] at h
      rcases h with h | h
      · exact hdot (by rw [← h]; simp)
      · have hlength := congrArg List.length h
        simp at hlength
  show lower (dropExe (PurePath.parse first).name) = program
  rw [hbare]
  rcases h with h | h
  · rw [dropExe_of_not (by rw [h]; exact hdot), h]
  · obtain ⟨f, x, hfirst, hf, hx⟩ :=
      lower_eq_append (Or.inr (by simp)) h
    rw [hfirst, dropExe_append hx, hf]

-- ===== sufficiency

theorem leads_concat {stem : Bool} {w v : PyStr} (more : List PyStr)
    (h : w = v ∨ (stem = true ∧ w <+: v)) (us : List PyStr) :
    leads stem (us ++ [w]) (us ++ v :: more) = true := by
  induction us with
  | nil =>
      rcases h with rfl | ⟨rfl, hpre⟩
      · cases stem <;> simp [leads]
      · simpa [leads] using hpre
  | cons u us ih => simp [leads, ih]

theorem leads_cons {stem : Bool} {w : PyStr} {ws vs : List PyStr} (hne : ws ≠ []) :
    leads stem (w :: ws) (w :: vs) = leads stem ws vs := by
  simp [leads, hne]

theorem split_dropWhile (s : List Char) : Shlex.split (s.dropWhile Shlex.isBlank) = Shlex.split s := by
  induction s with
  | nil => rfl
  | cons c s ih =>
      rw [List.dropWhile_cons]
      split
      next h => rw [ih, Shlex.split_blank h]
      next => rfl

/-- Where an entry ends with a word, the call is one of the entry's. -/
theorem leads_of_endsWord {cmd entry : PyStr} {spec : CommandSpec} (hentry : entry ∈ safePrefixes)
    (h : EndsWord cmd entry) (hspec : fromString cmd = .ok spec) :
    leads (isStem entry) (entryWords entry) spec.shown = true := by
  obtain ⟨program, args, he⟩ := entry_of_mem hentry
  obtain ⟨front, after, hcmd, ⟨words, hwords, hfront⟩, hend⟩ := h
  obtain ⟨first, given, hsplit, rfl⟩ := fromString_ok hspec
  -- the entry's words, with or without `.exe` behind the first
  obtain ⟨head, rfl, hhead⟩ : ∃ head, words = head :: args ∧
      (head = program ∨ head = program ++ ".exe".toList) := by
    rw [spellings, he.words] at hwords
    rcases List.mem_pair.mp hwords with rfl | rfl
    · exact ⟨program, rfl, Or.inl rfl⟩
    · exact ⟨_, rfl, Or.inr rfl⟩
  have hheadword : IsEntryWord head := by
    obtain ⟨hne, hchars⟩ := he.program_ok.1
    rcases hhead with rfl | rfl
    · exact ⟨hne, hchars⟩
    · refine ⟨by simp, fun c hc => ?_⟩
      rcases List.mem_append.mp hc with hc | hc
      · exact hchars c hc
      · exact exe_plain c hc
  obtain ⟨fs, f, hread, hlower⟩ := split_joined (List.cons_ne_nil head args)
    (fun w hw => (List.mem_cons.mp hw).elim (fun h => h ▸ hheadword) (he.args_ok w)) after hfront
  rw [← split_dropWhile, hcmd, hread, Option.map_eq_some_iff] at hsplit
  obtain ⟨ws, hrest, hws⟩ := hsplit
  obtain ⟨tail, more, rfl⟩ := Shlex.exists_of_rest hrest
  have htail : isStem entry = true ∨ tail = [] := hend.imp_right fun ⟨more', hmore⟩ => by
    rw [hrest] at hmore
    injection hmore with hmore
    exact (List.cons.inj hmore).1
  rw [he.words]
  cases fs with
  | nil =>
      injection hlower with hf hargs
      subst hargs
      injection hws with hfirst hgiven
      have htail : tail = [] := htail.resolve_left fun hs => he.stem hs rfl
      subst htail
      rw [List.append_nil] at hfirst
      have hprogram := @program_of_spelled program first given he.program_ok
        (by rw [← hfirst, hf]; exact hhead)
      simp [leads, CommandSpec.shown, hprogram]
  | cons g fs =>
      injection hlower with hg hargs
      injection hws with hfirst hgiven
      have hprogram := @program_of_spelled program first given he.program_ok
        (by rw [← hfirst, hg]; exact hhead)
      have hlast : lower f = lower (f ++ tail) ∨ (isStem entry = true ∧ lower f <+: lower (f ++ tail)) := by
        rcases htail with hs | rfl
        · exact Or.inr ⟨hs, by rw [lower_append]; exact List.prefix_append _ _⟩
        · exact Or.inl (by rw [List.append_nil])
      have hleads := leads_concat (more.map lower) hlast (fs.map lower)
      have hshown : given.map lower = fs.map lower ++ lower (f ++ tail) :: more.map lower := by
        rw [← hgiven]
        exact List.map_append
      have hargs : fs.map lower ++ [lower f] = args := hargs
      rw [CommandSpec.shown, hprogram, leads_cons (by rw [← hargs]; simp), hshown, ← hargs]
      exact hleads

-- ===== exactness

theorem programs_apart (e : PyStr) (he : e ∈ safePrefixes) (hargs : argsOf e = []) (f : PyStr)
    (hf : f ∈ safePrefixes) :
    (programOf e).isPrefixOf (programOf f) = true → programOf e = programOf f :=
  (safePrefixes_checked.2 e he f hf).1 hargs

/-- Entries of one program that does not stand alone are for options, the
same or apart. -/
theorem entries_apart (e : PyStr) (he : e ∈ safePrefixes) (f : PyStr) (hf : f ∈ safePrefixes) :
    programOf e = programOf f → standsAlone (programOf e) = true ∨ isStem e = true ∨
      (isStem f = false ∧ (argsOf e = argsOf f ∨ apart (argsOf e) (argsOf f) = true)) :=
  (safePrefixes_checked.2 e he f hf).2

/-- Words apart from an entry's do not become the entry's when the last
goes on. -/
theorem not_leads_of_apart {l t : PyStr} {more : List PyStr} :
    ∀ {us vs : List PyStr}, apart (us ++ [l]) vs = true →
      leads false vs (us ++ (l ++ t) :: more) = false
  | _, [], h => by
      cases ‹List PyStr› <;> cases h
  | [], v :: vs, h => by
      simp only [List.nil_append, apart] at h
      split at h
      · cases h
      · simp only [Bool.and_eq_true, Bool.not_eq_true', List.isPrefixOf_iff_prefix,
          ← Bool.not_eq_true] at h
        have hne : v ≠ l ++ t := fun heq => h.1 (heq ▸ List.prefix_append l t)
        simp [leads, hne]
  | u :: us, v :: vs, h => by
      simp only [List.cons_append, apart] at h
      split at h
      next heq =>
        subst heq
        simp [leads, not_leads_of_apart h]
      next hne =>
        simp [leads, Ne.symm hne]

theorem begins_of_readOnly {u : Unicode} {cmd : PyStr} (h : (classify u cmd).1 = .readOnly) :
    ∃ entry ∈ safePrefixes, ∃ b, lower (normalize (Text.strip cmd)) = rstrip entry ++ b := by
  have hsafe : (classifyCommand u cmd).mode = .safe := by
    by_contra hno
    simp only [classify] at h
    split at h
    · cases h
    split at h
    · cases h
    · cases h
  have hany : safePrefixes.any (beginsWith (lower (normalize (Text.strip cmd)))) = true := by
    by_contra hno
    simp only [classifyCommand, if_neg hno] at hsafe
    split at hsafe
    · cases hsafe
    · cases hsafe
  obtain ⟨entry, hentry, hbegins⟩ := List.any_eq_true.mp hany
  refine ⟨entry, hentry, ?_⟩
  simp only [beginsWith, Bool.or_eq_true, beq_iff_eq, List.isPrefixOf_iff_prefix] at hbegins
  rcases hbegins with hwhole | ⟨b, hpre⟩
  · exact ⟨[], by rw [hwhole, List.append_nil]⟩
  · have hrstrip : entry = rstrip entry ++ (entry.reverse.takeWhile Text.isSpace).reverse := by
      rw [rstrip, ← List.reverse_append, List.takeWhile_append_dropWhile, List.reverse_reverse]
    refine ⟨(entry.reverse.takeWhile Text.isSpace).reverse ++ b, ?_⟩
    rw [← List.append_assoc, ← hrstrip, hpre]

/-- The first word of a program on the list, named without a directory and
without `.exe`, is the program's name. -/
theorem lower_first {first : PyStr} {args : List PyStr} {stem : Bool} {program : PyStr}
    {us : List PyStr} (hprogram : IsProgram program) (hslash : '/' ∉ first)
    (hexe : dropExe first = first) (hstem : stem = true → us ≠ [])
    (h : leads stem (program :: us)
      (CommandSpec.mk (PurePath.parse first).name args).shown = true) :
    lower first = program ∧ leads stem us (args.map lower) = true := by
  have hhead : program = lower (dropExe (PurePath.parse first).name) ∧
      leads stem us (args.map lower) = true := by
    have hsingle : (stem && us.isEmpty) = false := by
      cases stem with
      | false => rfl
      | true => simpa using hstem rfl
    simpa [leads, CommandSpec.shown, CommandSpec.program, hsingle] using h
  refine ⟨?_, hhead.2⟩
  have hnamed : (PurePath.parse first).name ≠ [] := fun hnil => hprogram.1.1 (by
    rw [hhead.1, hnil]
    rfl)
  have hbare : (PurePath.parse first).name = first := by
    refine name_of_bare hslash (fun hnil => hnamed ?_) fun hdot => hnamed ?_
    · rw [hnil]
      rfl
    · rw [hdot]
      rfl
  rw [hhead.1, hbare, hexe]

theorem lowerChar_of_space {c : Char} (h : Text.isSpace c = true) : lowerChar c = [c] := by
  have hupper : Text.isUpper c = false := by
    by_contra hno
    simp only [Text.isUpper, Bool.not_eq_false, Bool.and_eq_true, decide_eq_true_eq, Char.le_def,
      UInt32.le_iff_toNat_le] at hno
    have hrange : 65 ≤ c.toNat ∧ c.toNat ≤ 90 := hno
    simp only [Text.isSpace, Bool.or_eq_true, Bool.and_eq_true, decide_eq_true_eq, beq_iff_eq] at h
    omega
  have hdotted : c ≠ '\u0130' := fun hc => by
    rw [hc] at h
    cases h
  have hkelvin : c ≠ '\u212A' := fun hc => by
    rw [hc] at h
    cases h
  simp [lowerChar, hupper, hdotted, hkelvin]

/-- A command line whose first word is all letters begins where its
stripped text does. -/
theorem dropWhile_eq_strip {cmd first : PyStr} {args : List PyStr}
    (hsplit : Shlex.split cmd = some (first :: args))
    (hfirst : ∀ c ∈ lower first, isEntryChar c = true) :
    ∃ trail, cmd.dropWhile Shlex.isBlank = Text.strip cmd ++ trail := by
  obtain ⟨trail, htrail, -⟩ := Text.trim_append Text.isSpace cmd
  refine ⟨trail, ?_⟩
  rw [Text.strip, ← htrail]
  clear htrail
  have hblank : ∀ c, Shlex.isBlank c = true → Text.isSpace c = true := by
    intro c hc
    simp only [Shlex.isBlank, Bool.or_eq_true, beq_iff_eq] at hc
    rcases hc with ((rfl | rfl) | rfl) | rfl <;> rfl
  induction cmd with
  | nil => rfl
  | cons c s ih =>
      by_cases hc : Shlex.isBlank c = true
      · rw [List.dropWhile_cons_of_pos hc, List.dropWhile_cons_of_pos (hblank c hc)]
        exact ih (by rwa [Shlex.split_blank hc] at hsplit)
      · rw [List.dropWhile_cons_of_neg hc, List.dropWhile_cons_of_neg]
        -- other white space would be a part of the first word
        intro hspace
        have hplain : Shlex.isPlain c = true := by
          have hquote : Shlex.isQuote c = false := by
            by_contra hno
            simp only [Shlex.isQuote, Bool.not_eq_false, Bool.or_eq_true, beq_iff_eq] at hno
            rcases hno with rfl | rfl <;> cases hspace
          simp [Shlex.isPlain, hc, hquote]
        have hread : Shlex.split (c :: s) = (Shlex.rest s).map (Shlex.prepend [c]) :=
          Shlex.split_plain (w := [c]) (by simp) (by simpa using hplain)
        rw [hread, Option.map_eq_some_iff] at hsplit
        obtain ⟨ws, hrest, hws⟩ := hsplit
        obtain ⟨tail, more, rfl⟩ := Shlex.exists_of_rest hrest
        obtain rfl : c :: tail = first := (List.cons.inj hws).1
        have hmem : c ∈ lower (c :: tail) := mem_of_mem_lower (lowerChar_of_space hspace) (by simp)
        rw [isEntryChar_space (hfirst c hmem)] at hspace
        cases hspace

theorem takeWhile_normalize (s : PyStr) :
    (normalize s).takeWhile (· != ' ') = dropExe (s.takeWhile (· != ' ')) := by
  have hkept : ∀ c ∈ dropExe (s.takeWhile (· != ' ')), (c != ' ') = true := fun c hc => by
    have hmem : c ∈ s.takeWhile (· != ' ') := by
      unfold dropExe at hc
      split at hc
      · exact List.mem_of_mem_take hc
      · exact hc
    exact List.mem_takeWhile_imp (p := (· != ' ')) hmem
  rw [normalize, List.takeWhile_append_of_pos hkept]
  have hrest : (s.dropWhile (· != ' ')).takeWhile (· != ' ') = [] := by
    cases hdrop : s.dropWhile (· != ' ') with
    | nil => rfl
    | cons c t =>
        have hhead := List.head_dropWhile_not (· != ' ') (l := s) (by rw [hdrop]; simp)
        simp only [hdrop, List.head_cons] at hhead
        rw [List.takeWhile_cons_of_neg (by simpa using hhead)]
  rw [hrest, List.append_nil]

/-- What `.exe` is dropped from. -/
theorem dropExe_eq (w : PyStr) :
    dropExe w = w ∨ ∃ x, w = dropExe w ++ x ∧ lower x = ".exe".toList := by
  by_cases hsuffix : ".exe".toList.isSuffixOf (lower w) = true
  · obtain ⟨p, hp⟩ := List.isSuffixOf_iff_suffix.mp hsuffix
    obtain ⟨f, x, rfl, -, hx⟩ := lower_eq_append (Or.inr (by simp)) hp.symm
    exact Or.inr ⟨x, by rw [dropExe_append hx], hx⟩
  · exact Or.inl (if_neg hsuffix)

/-- No entry of several words ends in a letter that the lower case of
another character begins with. -/
theorem entries_cut (e : PyStr) (he : e ∈ safePrefixes) :
    argsOf e ≠ [] → (rstrip e).getLast? ≠ some 'i' :=
  (safePrefixes_checked.1 e he).2

theorem eq_of_leads_concat {w v : PyStr} {more : List PyStr} : ∀ {us : List PyStr},
    leads false (us ++ [w]) (us ++ v :: more) = true → w = v
  | [], h => by simpa [leads] using h
  | u :: us, h => @eq_of_leads_concat w v more us (by simpa [leads] using h)

/-- A text that begins with a program's name, or with the first half of a
character's lower case at its end. -/
theorem lower_eq_program {w b s : PyStr} (hw : IsEntryWord w) (h : lower s = w ++ b) :
    ∃ g after, s = g ++ after ∧ g ≠ [] ∧ (∀ c ∈ g, Shlex.isPlain c = true) ∧
      (lower g = w ∨ lower g = w ++ ['\u0307']) := by
  by_cases hcut : CutsClean w b
  · obtain ⟨g, after, hs, hg, -, hne, hplain⟩ := lower_eq_word hw hcut h
    exact ⟨g, after, hs, hne, hplain, Or.inl hg⟩
  · simp only [CutsClean, not_or, not_not] at hcut
    obtain ⟨hlast, hhead⟩ := hcut
    obtain ⟨w', rfl⟩ := List.getLast?_eq_some_iff.mp hlast
    rw [List.append_assoc] at h
    obtain ⟨f, after, rfl, hf, hafter⟩ := lower_eq_append (Or.inr (by simp)) h
    have hplain := plain_of_lower (f := f) fun c hc => hw.2 c (by rw [hf] at hc; simp [hc])
    cases after with
    | nil => cases hafter
    | cons c after =>
        have hlower : lower (c :: after) = lowerChar c ++ lower after := rfl
        rw [hlower] at hafter
        have hc : Shlex.isPlain c = true := by
          rcases lowerChar_cases c with hc | ⟨d, hc⟩
          · by_contra hno
            rw [lowerChar_of_not_plain hno] at hc
            cases hc
          · rw [hc] at hafter
            injection hafter with hd
            exact isPlain_of_lowerChar hc (by rw [hd]; decide)
        refine ⟨f ++ [c], after, by simp, by simp, ?_, ?_⟩
        · intro x hx
          rcases List.mem_append.mp hx with hx | hx
          · exact hplain x hx
          · rw [List.mem_singleton.mp hx]
            exact hc
        · rw [lower_append, hf]
          rcases lowerChar_cases c with hc | ⟨d, hc⟩
          · exact Or.inr (by simp [lower, hc])
          · rw [hc] at hafter
            injection hafter with hd
            exact Or.inl (by simp [lower, hc, hd])

theorem ne_space_of_plain {g : PyStr} (hg : ∀ c ∈ g, Shlex.isPlain c = true) :
    ∀ c ∈ g, (c != ' ') = true := by
  intro c hc
  by_contra hno
  simp only [bne_iff_ne, ne_eq, not_not] at hno
  have hplain := hg c hc
  rw [hno] at hplain
  cases hplain

/-- A text that begins with letters when normalized begins with them. -/
theorem front_of_normalize {s g after : PyStr} (h : normalize s = g ++ after)
    (hg : ∀ c ∈ g, Shlex.isPlain c = true) : ∃ after', s = g ++ after' := by
  have hspace := ne_space_of_plain hg
  have htake : dropExe (s.takeWhile (· != ' ')) = g ++ after.takeWhile (· != ' ') := by
    rw [← takeWhile_normalize, h, List.takeWhile_append_of_pos hspace]
  have hchunk : ∃ t, s.takeWhile (· != ' ') = g ++ t := by
    rcases dropExe_eq (s.takeWhile (· != ' ')) with hkept | ⟨x, hx, -⟩
    · exact ⟨_, hkept ▸ htake⟩
    · rw [htake, List.append_assoc] at hx
      exact ⟨_, hx⟩
  obtain ⟨t, ht⟩ := hchunk
  refine ⟨t ++ s.dropWhile (· != ' '), ?_⟩
  rw [← List.append_assoc, ← ht, List.takeWhile_append_dropWhile]

theorem normalize_append_space {chunk y : PyStr} (h : ∀ c ∈ chunk, Shlex.isPlain c = true) :
    normalize (chunk ++ ' ' :: y) = dropExe chunk ++ ' ' :: y := by
  have hspace := ne_space_of_plain h
  rw [normalize, List.takeWhile_append_of_pos hspace, List.dropWhile_append_of_pos hspace]
  simp

/-- What stands before the first space of a text that begins, normalized,
with a word and a space. -/
theorem chunk_of_space {s w b : PyStr} (hw : IsEntryWord w)
    (h : lower (normalize s) = w ++ ' ' :: b) :
    ∃ chunk after, s = chunk ++ ' ' :: after ∧ chunk ≠ [] ∧
      (∀ c ∈ chunk, Shlex.isPlain c = true) ∧ lower (dropExe chunk) = w ∧ lower after = b := by
  obtain ⟨g, blank, hnormal, hg, hblank, hne, hplain⟩ := lower_eq_word hw (cutsClean_space w b) h
  obtain ⟨after, rfl, hafter⟩ := lower_eq_space hblank
  have hchunk : dropExe (s.takeWhile (· != ' ')) = g := by
    rw [← takeWhile_normalize, hnormal, List.takeWhile_append_of_pos (ne_space_of_plain hplain),
      List.takeWhile_cons_of_neg (by simp), List.append_nil]
  have hrest : s.dropWhile (· != ' ') = ' ' :: after := by
    rw [normalize, hchunk] at hnormal
    exact List.append_cancel_left hnormal
  have hwhole : s = s.takeWhile (· != ' ') ++ ' ' :: after := by
    rw [← hrest, List.takeWhile_append_dropWhile]
  refine ⟨_, after, hwhole, ?_, ?_, by rw [hchunk, hg], hafter⟩
  · intro hnil
    rw [hnil] at hchunk
    exact hne (hchunk.symm.trans rfl)
  · rcases dropExe_eq (s.takeWhile (· != ' ')) with hkept | ⟨x, hx, hexe⟩
    · rw [hkept] at hchunk
      rwa [hchunk]
    · rw [hx, hchunk]
      intro c hc
      rcases List.mem_append.mp hc with hc | hc
      · exact hplain c hc
      · exact plain_of_lower (by rw [hexe]; exact exe_plain) c hc

theorem first_of_front {g after first : PyStr} {args : List PyStr} (hne : g ≠ [])
    (hg : ∀ c ∈ g, Shlex.isPlain c = true)
    (h : Shlex.split (g ++ after) = some (first :: args)) :
    ∃ tail, first = g ++ tail ∧ Shlex.rest after = some (tail :: args) := by
  rw [Shlex.split_plain hne hg, Option.map_eq_some_iff] at h
  obtain ⟨ws, hrest, hws⟩ := h
  obtain ⟨tail, more, rfl⟩ := Shlex.exists_of_rest hrest
  obtain ⟨hfirst, hargs⟩ := List.cons.inj hws
  subst hargs
  exact ⟨tail, hfirst.symm, hrest⟩

-- ------------------------------------------------------ the two cases

section

variable {cmd first b : PyStr} {args us : List PyStr} {entry program : PyStr}

/-- The text begins with an entry that is a program's name: the first word
of the command line is the name, as it is a name on the list. -/
theorem endsWord_of_single (he : Entry entry program [])
    (hsplit : Shlex.split cmd = some (first :: args))
    (hascii : '\u0307' ∉ lower first)
    (hlisted : program.isPrefixOf (lower first) = true → program = lower first)
    {trail : PyStr} (htext : cmd.dropWhile Shlex.isBlank = Text.strip cmd ++ trail)
    (hbegins : lower (normalize (Text.strip cmd)) = program ++ b) :
    EndsWord cmd entry := by
  obtain ⟨g, after, hnormal, hne, hplain, hg⟩ := lower_eq_program he.program_ok.1 hbegins
  obtain ⟨after', hstripped⟩ := front_of_normalize hnormal hplain
  have hcmd : cmd.dropWhile Shlex.isBlank = g ++ (after' ++ trail) := by
    rw [htext, hstripped, List.append_assoc]
  rw [← split_dropWhile, hcmd] at hsplit
  obtain ⟨tail, rfl, hrest⟩ := first_of_front hne hplain hsplit
  rw [lower_append] at hascii hlisted
  have hg : lower g = program := hg.resolve_right fun hcut => hascii (by simp [hcut])
  have hsame : program = program ++ lower tail := by
    rw [hg] at hlisted
    exact hlisted (List.isPrefixOf_iff_prefix.mpr (List.prefix_append _ _))
  have htail : tail = [] := lower_eq_nil (List.self_eq_append_right.mp hsame)
  subst htail
  refine ⟨g, after' ++ trail, hcmd, ⟨[program], ?_, hg⟩, Or.inr ⟨args, hrest⟩⟩
  simp [spellings, he.words]

/-- The text begins with a program's name and a blank: nothing was dropped
from it, unless from the first word. -/
theorem stripped_of_blank (hp : IsProgram program)
    (hsplit : Shlex.split cmd = some (first :: args)) (hdot : '.' ∉ lower first)
    {trail : PyStr} (htext : cmd.dropWhile Shlex.isBlank = Text.strip cmd ++ trail)
    (hbegins : lower (normalize (Text.strip cmd)) = program ++ ' ' :: b) :
    normalize (Text.strip cmd) = Text.strip cmd ∧ lower first = program ∧
      ∃ after, cmd.dropWhile Shlex.isBlank = first ++ after ∧
        Shlex.rest after = some ([] :: args) := by
  obtain ⟨chunk, after, hstripped, hne, hplain, hchunk, -⟩ := chunk_of_space hp.1 hbegins
  have hcmd : cmd.dropWhile Shlex.isBlank = chunk ++ ' ' :: (after ++ trail) := by
    rw [htext, hstripped, List.append_assoc, List.cons_append]
  rw [← split_dropWhile, hcmd] at hsplit
  obtain ⟨tail, rfl, hrest⟩ := first_of_front hne hplain hsplit
  have htail : tail = [] := by
    rw [Shlex.rest_blank rfl, Option.map_eq_some_iff] at hrest
    obtain ⟨ws, -, hws⟩ := hrest
    exact (List.cons.inj hws).1.symm
  subst htail
  rw [List.append_nil] at hdot ⊢
  have hkept : dropExe chunk = chunk := dropExe_of_not hdot
  rw [hkept] at hchunk
  refine ⟨?_, hchunk, _, hcmd, hrest⟩
  rw [hstripped, normalize_append_space hplain, hkept]

/-- The text begins with an entry of several words: they end where a word
of the command line does, or the call is of no entry with that program. -/
theorem endsWord_of_words (he : Entry entry program us) (hus : us ≠ [])
    (hcut : CutsClean (joined (program :: us)) b)
    (hsplit : Shlex.split cmd = some (first :: args))
    {trail : PyStr} (htext : cmd.dropWhile Shlex.isBlank = Text.strip cmd ++ trail)
    (hbegins : lower (Text.strip cmd) = joined (program :: us) ++ b)
    (hend : isStem entry = true ∨ ∀ l t more pre, us = pre ++ [l] →
      args.map lower = pre ++ (l ++ t) :: more → t = []) :
    EndsWord cmd entry := by
  obtain ⟨front, after, hstripped, hfront, -⟩ := lower_eq_append hcut hbegins
  have hcmd : cmd.dropWhile Shlex.isBlank = front ++ (after ++ trail) := by
    rw [htext, hstripped, List.append_assoc]
  have hwords : ∃ words ∈ spellings entry, lower front = joined words :=
    ⟨program :: us, by simp [spellings, he.words], hfront⟩
  rcases hend with hstem | hend
  · exact ⟨front, after ++ trail, hcmd, hwords, Or.inl hstem⟩
  obtain ⟨fs, f, hread, hlower⟩ := split_joined (List.cons_ne_nil program us)
    (fun w hw => (List.mem_cons.mp hw).elim (fun h => h ▸ he.program_ok.1) (he.args_ok w))
    (after ++ trail) hfront
  rw [← split_dropWhile, hcmd, hread, Option.map_eq_some_iff] at hsplit
  obtain ⟨ws, hrest, hws⟩ := hsplit
  obtain ⟨tail, more, rfl⟩ := Shlex.exists_of_rest hrest
  obtain ⟨g, fs, rfl⟩ : ∃ g gs, fs = g :: gs := by
    cases fs with
    | nil => exact absurd (List.cons.inj hlower).2.symm hus
    | cons g gs => exact ⟨g, gs, rfl⟩
  have hus : us = fs.map lower ++ [lower f] := (List.cons.inj hlower).2.symm
  have hargs : args = fs ++ (f ++ tail) :: more := (List.cons.inj hws).2.symm
  have htail : lower tail = [] := hend (lower f) (lower tail) (more.map lower) (fs.map lower) hus (by
    rw [hargs, List.map_append, List.map_cons, lower_append])
  obtain rfl : tail = [] := lower_eq_nil htail
  exact ⟨front, after ++ trail, hcmd, hwords, Or.inr ⟨more, hrest⟩⟩

end

theorem Entry.programOf {entry program : PyStr} {us : List PyStr} (h : Entry entry program us) :
    programOf entry = program := by
  rw [Commands.programOf, h.words, List.headD_cons]

theorem Entry.argsOf {entry program : PyStr} {us : List PyStr} (h : Entry entry program us) :
    argsOf entry = us := by
  rw [Commands.argsOf, h.words, List.tail_cons]

/-- A read-only command of a program named without a directory is one of
an entry's only where an entry ends with a word. -/
theorem endsWord_of_leads {u : Unicode} {cmd first : PyStr} {args : List PyStr}
    (hread : (classify u cmd).1 = .readOnly) (hsplit : Shlex.split cmd = some (first :: args))
    (hslash : '/' ∉ first) (hexe : dropExe first = first)
    (hleads : ∃ entry ∈ safePrefixes, leads (isStem entry) (entryWords entry)
      (CommandSpec.mk (PurePath.parse first).name args).shown = true) :
    ∃ entry ∈ safePrefixes, EndsWord cmd entry := by
  obtain ⟨e, he, b, hbegins⟩ := begins_of_readOnly hread
  obtain ⟨f, hf, hcall⟩ := hleads
  obtain ⟨program, us, hE⟩ := entry_of_mem he
  obtain ⟨program', vs, hF⟩ := entry_of_mem hf
  rw [hF.words] at hcall
  obtain ⟨hfirst, hargs⟩ := lower_first hF.program_ok hslash hexe hF.stem hcall
  obtain ⟨trail, htext⟩ := dropWhile_eq_strip hsplit (by rw [hfirst]; exact hF.program_ok.1.2)
  rw [hE.text] at hbegins
  cases us with
  | nil =>
      refine ⟨e, he, endsWord_of_single hE hsplit ?_ (fun hpre => ?_) htext hbegins⟩
      · rw [hfirst]
        intro hmem
        exact absurd (isEntryChar_ascii (hF.program_ok.1.2 _ hmem)) (by decide)
      · have hlisted := programs_apart e he hE.argsOf f hf
        rw [hE.programOf, hF.programOf, ← hfirst] at hlisted
        exact hlisted hpre
  | cons u us =>
      have hblank : lower (normalize (Text.strip cmd))
          = program ++ ' ' :: (joined (u :: us) ++ b) := by
        rw [hbegins, joined, List.append_assoc, List.cons_append]
      obtain ⟨hsame, hname, after, hcmd, hrest⟩ := stripped_of_blank hE.program_ok hsplit
        (by rw [hfirst]; exact hF.program_ok.2.2) htext hblank
      have hprogram : programOf e = programOf f := by
        rw [hE.programOf, hF.programOf, ← hname, hfirst]
      rcases entries_apart e he f hf hprogram with halone | hkind
      · -- the program is an entry itself
        obtain ⟨g, hg, hwords⟩ := List.any_eq_true.mp halone
        have hwords : entryWords g = [programOf e] := by simpa using hwords
        refine ⟨g, hg, first, after, hcmd, ⟨[programOf e], ?_, ?_⟩, Or.inr ⟨args, hrest⟩⟩
        · simp [spellings, hwords]
        · rw [hE.programOf, hname]
          rfl
      · refine ⟨e, he, endsWord_of_words hE (List.cons_ne_nil u us) (Or.inl ?_) hsplit htext
          (hsame ▸ hbegins) (hkind.imp_right fun ⟨hstem, happart⟩ l t more pre hus hmap => ?_)⟩
        · rw [← hE.text]
          exact entries_cut e he (by rw [hE.argsOf]; simp)
        · rw [hstem, hmap] at hargs
          rw [hE.argsOf, hF.argsOf, hus] at happart
          rcases happart with rfl | happart
          · exact List.self_eq_append_right.mp (eq_of_leads_concat hargs)
          · rw [not_leads_of_apart happart] at hargs
            cases hargs

-- ===== reading

/-- What `describe_actions` reports as reading was classified read-only. -/
theorem readOnly_of_read {u : Unicode} {cmd : PyStr} {directory : Option PyStr} {outside : Bool}
    (h : ∃ a ∈ describeActions u cmd directory outside, a.actionType = .read) :
    (classify u cmd).1 = .readOnly := by
  obtain ⟨a, ha, hread⟩ := h
  by_contra hno
  simp only [describeActions, if_neg hno, List.mem_singleton] at ha
  rw [ha] at hread
  cases hread

def asciiOnly : Unicode := ⟨fun _ => false, fun _ => false, fun _ _ => rfl⟩

end Velune.Commands
