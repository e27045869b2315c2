/-
Which files the indexer passes by (`repository/scanner.py`), where it builds
its own rules: the hard-coded patterns, the root's `.gitignore` and
`.veluneignore`, and the `.gitignore` files of the directories that git
lists, each line rewritten to begin with its directory.

`pathspec` is taken for one list of patterns as git reads it
(`Lib.Gitignore`); how a segment matches a name is its own affair
(`glob`). A place is the list of names below the root, and nothing is a
link.

Against git's rules: in a list of lines for one root, a nested line keeps its
meaning if and only if it is a pattern for places (`keepsMeaning_iff`). Then
the nested files together say of a place what the deepest of them says, if
git lists them from the top down (`nested_eq`), and `.veluneignore`, which
stands before them in the list, has the last word where they do not
contradict it.
-/
import Velune.Domain
import Velune.Lib.Gitignore

namespace Velune.Repository

open Lib
open Lib.Gitignore

def HARDCODED_PATTERNS : List PyStr :=
  [".git/", ".hg/", ".svn/", ".fossil/", "__pycache__/", "*.pyc", "*.pyo", "*.pyd",
    "*.egg-info/", "*.egg", ".venv/", "venv/", "env/", ".env/", "node_modules/", ".npm/",
    ".yarn/", "vendor/", "vendored/", "third_party/", "thirdparty/", ".next/", ".nuxt/",
    ".output/", ".turbo/", ".mypy_cache/", ".ruff_cache/", ".pytest_cache/", ".tox/", ".nox/",
    ".velune/", "htmlcov/", "*.lcov", ".DS_Store", "Thumbs.db", ".idea/", "*.min.js",
    "*.min.css", "*.so", "*.dylib", "*.dll", "*.exe", "*.wasm", "*.class", "*.jpg", "*.jpeg",
    "*.png", "*.gif", "*.bmp", "*.ico", "*.webp", "*.mp4", "*.mov", "*.avi", "*.zip", "*.tar.gz",
    "*.tar", "*.gz", "*.7z", "*.rar", "*.db", "*.sqlite", "*.sqlite3",
    "*.parquet"].map String.toList

/-- The ignore files of a workspace, as texts, and the directories below the
root whose `.gitignore` git lists, in the order it lists them. -/
structure IgnoreFiles where
  gitignore : List PyStr → Option PyStr
  veluneignore : Option PyStr
  listing : List (List PyStr)

def readIgnoreFile (text : Option PyStr) : List PyStr :=
  ((Text.splitlines (text.getD [])).map Text.strip).filter fun line =>
    !line.isEmpty && line.head? != some '#'

/-- A line of a nested `.gitignore`, for the root. -/
def rewritten (dir : List PyStr) (line : PyStr) : PyStr :=
  if line.head? == some '!' then '!' :: (dirText dir ++ '/' :: line.drop 1)
  else if line.head? == some '/' then dirText dir ++ line
  else dirText dir ++ '/' :: line

def nestedLines (files : IgnoreFiles) : List PyStr :=
  files.listing.flatMap fun dir => (readIgnoreFile (files.gitignore dir)).map (rewritten dir)

def buildSpec (files : IgnoreFiles) : List PyStr :=
  HARDCODED_PATTERNS ++ readIgnoreFile (files.gitignore []) ++ readIgnoreFile files.veluneignore
    ++ nestedLines files

section

variable (glob : PyStr → PyStr → Bool) (files : IgnoreFiles)

/-- `self._spec.match_file`, of a place with or without a slash behind it. -/
def matchFile (path : List PyStr) (isDir : Bool) : Bool :=
  excluded (verdict glob (buildSpec files)) path isDir

def isIgnored (path : List PyStr) (isDir : Bool) : Bool :=
  if isDir then matchFile glob files path true || matchFile glob files path false
  else matchFile glob files path false

def skips (path : List PyStr) : Bool :=
  path.inits.any fun above => !above.isEmpty && isIgnored glob files above (above != path)

end

-- ===== git

/-- Blanks at the end of a line, unless a backslash is before them. -/
def trimBlanks : PyStr → PyStr
  | [] => []
  | '\\' :: c :: line => '\\' :: c :: trimBlanks line
  | c :: line =>
      let rest := trimBlanks line
      if c = ' ' ∧ rest = [] then [] else c :: rest

/-- One line of an ignore file, without the return before its break. -/
def dropReturn (line : PyStr) : PyStr :=
  if line.getLast? == some '\r' then line.dropLast else line

def gitLines (text : Option PyStr) : List PyStr :=
  let text := text.getD []
  let text := if text.head? == some '\uFEFF' then text.drop 1 else text
  ((((splitText ['\n'] text).map dropReturn).filter fun line => line.head? != some '#').map
    trimBlanks).filter fun line => !line.isEmpty

/-- The directories below the root that a place is in, from the top down. -/
def dirsAbove (path : List PyStr) : List (List PyStr) :=
  (List.range' 1 (path.length - 1)).map fun n => path.take n

section

variable (glob : PyStr → PyStr → Bool) (files : IgnoreFiles)

/-- What the `.gitignore` of a directory says of a place in it. -/
def dirVerdict (dir path : List PyStr) (isDir : Bool) : Option Bool :=
  verdict glob (gitLines (files.gitignore dir)) (path.drop dir.length) isDir

def nestedVerdict (path : List PyStr) (isDir : Bool) : Option Bool :=
  lastSome ((dirsAbove path).map fun dir => dirVerdict glob files dir path isDir)

/-- Git's rules, with the hard-coded patterns below them and `.veluneignore`
on top. -/
def gitVerdict (path : List PyStr) (isDir : Bool) : Option Bool :=
  lastSome [verdict glob HARDCODED_PATTERNS path isDir,
    verdict glob (gitLines (files.gitignore [])) path isDir,
    nestedVerdict glob files path isDir,
    verdict glob (gitLines files.veluneignore) path isDir]

/-- A nested line has the meaning that it has in its own directory. -/
def KeepsMeaning (dir : List PyStr) (line : PyStr) : Prop :=
  ∀ path isDir, lineVerdict glob (rewritten dir line) path isDir
    = if dir <+: path then lineVerdict glob line (path.drop dir.length) isDir else none

structure Faithful : Prop where
  lines : ∀ dir ∈ files.listing, ∀ line ∈ gitLines (files.gitignore dir),
    line ∈ readIgnoreFile (files.gitignore dir) ∧ KeepsMeaning glob dir line
  top : ∀ path isDir b, verdict glob (gitLines files.veluneignore) path isDir = some b →
    verdict glob (buildSpec files) path isDir = some b
  skipped : ∀ path, skips glob files path = true
    ↔ excluded (gitVerdict glob files) path false = true

/-- A line with a slash before its end, or two stars alone, and no slash
right behind a `!`. -/
def ForPlaces (line : PyStr) : Prop :=
  (∃ p, parse line = some p ∧ (p.anchored = true ∨ p.segs = [doubleStar])) ∧ ¬['!', '/'] <+: line

structure PlainDir (dir : List PyStr) : Prop where
  ne_nil : dir ≠ []
  names : ∀ name ∈ dir, Plain name
  first : (dirText dir).head? ≠ some '#' ∧ (dirText dir).head? ≠ some '!'

/-- What a directory's file says of any place: nothing outside it. -/
def saidBelow (path : List PyStr) (isDir : Bool) (dir : List PyStr) : Option Bool :=
  if dir <+: path then dirVerdict glob files dir path isDir else none

def listedVerdict (path : List PyStr) (isDir : Bool) : Option Bool :=
  lastSome (files.listing.map (saidBelow glob files path isDir))

structure Translates : Prop where
  /-- the indexer reads the lines that git reads -/
  read : ∀ dir, dir = [] ∨ dir ∈ files.listing →
    readIgnoreFile (files.gitignore dir) = gitLines (files.gitignore dir)
  readVelune : readIgnoreFile files.veluneignore = gitLines files.veluneignore
  /-- git lists every directory that has lines and is not excluded, from the top down -/
  listed : ∀ dir, dir ≠ [] → excluded (gitVerdict glob files) dir true = false →
    gitLines (files.gitignore dir) ≠ [] → dir ∈ files.listing
  ordered : files.listing.Pairwise fun a b => ¬b <+: a
  dirs : ∀ dir ∈ files.listing, PlainDir dir
  places : ∀ dir ∈ files.listing, ∀ line ∈ gitLines (files.gitignore dir), ForPlaces line
  /-- no nested line decides otherwise what `.veluneignore` decides -/
  priority : ∀ path isDir b, verdict glob (gitLines files.veluneignore) path isDir = some b →
    listedVerdict glob files path isDir = none ∨ listedVerdict glob files path isDir = some b
  /-- a directory that is not excluded would not be excluded as a file -/
  kinds : ∀ path, excluded (gitVerdict glob files) path true = false →
    gitVerdict glob files path false ≠ some true

end

-- ===== one line

variable {dir : List PyStr}

section

variable {glob : PyStr → PyStr → Bool}
variable {line : PyStr}

theorem anchored_verdict {p : Pattern} (hparse : parse line = some p)
    (hanchored : p.anchored = true) (path : List PyStr) (isDir : Bool) :
    lineVerdict glob line path isDir
      = if (!p.dirOnly || isDir) && segsMatch glob p.segs path then some (!p.negate) else none := by
  unfold lineVerdict
  rw [hparse, Option.bind_some]
  unfold Pattern.matches
  rw [hanchored]
  rfl

theorem unanchored_verdict {p : Pattern} (hparse : parse line = some p)
    (hanchored : ¬p.anchored = true) (path : List PyStr) (isDir : Bool) :
    lineVerdict glob line path isDir
      = if (!p.dirOnly || isDir) && path.getLast?.any (glob (p.segs.headD [])) then
          some (!p.negate)
        else none := by
  unfold lineVerdict
  rw [hparse, Option.bind_some]
  unfold Pattern.matches
  rw [if_neg hanchored]

/-- A line is rewritten to one for places, with the directory's names in
front. -/
theorem parse_rewritten (hdir : PlainDir dir) {p : Pattern}
    (hparse : parse line = some p) (hbang : ¬['!', '/'] <+: line) :
    parse (rewritten dir line) = some { p with anchored := true, segs := dir ++ p.segs } := by
  obtain ⟨hhash, hnot⟩ := hdir.first
  have hfirst (rest : PyStr) : (dirText dir ++ '/' :: rest).head? = (dirText dir).head? := by
    obtain ⟨name, more, rfl⟩ := List.exists_cons_of_ne_nil hdir.ne_nil
    have hname := (hdir.names name List.mem_cons_self).ne_nil
    obtain ⟨c, chars, hc⟩ := List.exists_cons_of_ne_nil hname
    rw [List.head?_append, dirText_head hname, hc]
    rfl
  have hplain (rest : PyStr) : parse (dirText dir ++ '/' :: rest)
      = parseBody false (dirText dir ++ '/' :: rest) := by
    unfold parse
    rw [hfirst, if_neg (by simpa using hhash), if_neg (by simpa using hnot)]
  unfold parse at hparse
  unfold rewritten
  split at hparse
  next => cases hparse
  next =>
    split at hparse
    next hneg =>
      rw [if_pos hneg]
      obtain ⟨body, hbody⟩ := exists_of_head hneg
      subst hbody
      have hinner : innerOf body = body := by
        refine if_neg fun hslash => hbang ?_
        obtain ⟨rest, hrest⟩ := exists_of_head hslash
        exact ⟨rest, by rw [hrest]; rfl⟩
      have hbelow := parseBody_below hdir.ne_nil hdir.names hparse
      rw [List.drop_succ_cons, List.drop_zero] at hbelow ⊢
      rw [hinner] at hbelow
      exact hbelow
    next hneg =>
      have hbelow := parseBody_below hdir.ne_nil hdir.names hparse
      rw [if_neg hneg]
      split
      next hslash =>
        obtain ⟨body, hbody⟩ := exists_of_head hslash
        subst hbody
        rw [hplain]
        exact hbelow
      next hslash =>
        rw [hplain]
        rwa [innerOf, if_neg hslash] at hbelow

/-- A rewritten line says nothing outside the directory, and in it what its
segments say as a pattern for places. -/
theorem rewritten_verdict (hglob : Globs glob) (hdir : PlainDir dir) {p : Pattern}
    (hparse : parse line = some p) (hbang : ¬['!', '/'] <+: line)
    (path : List PyStr) (isDir : Bool) :
    lineVerdict glob (rewritten dir line) path isDir
      = if dir <+: path then
          if (!p.dirOnly || isDir) && segsMatch glob p.segs (path.drop dir.length) then
            some (!p.negate)
          else none
        else none := by
  rw [anchored_verdict (parse_rewritten hdir hparse hbang) rfl]
  have hmatch := @segsMatch_below glob hglob p.segs dir path hdir.names
  by_cases hpre : dir <+: path
  · rw [if_pos hpre]
    obtain ⟨rest, hrest⟩ := hpre
    subst hrest
    have hsame : segsMatch glob (dir ++ p.segs) (dir ++ rest) = segsMatch glob p.segs rest := by
      rw [Bool.eq_iff_iff, hmatch]
      constructor
      · intro hex
        obtain ⟨other, heq, hsegs⟩ := hex
        rw [List.append_cancel_left heq]
        exact hsegs
      · exact fun hsegs => ⟨rest, rfl, hsegs⟩
    rw [hsame, List.drop_left]
  · have hno : segsMatch glob (dir ++ p.segs) path = false := by
      rw [← Bool.not_eq_true, hmatch]
      intro hex
      obtain ⟨rest, heq, -⟩ := hex
      exact hpre ⟨rest, heq.symm⟩
    simp only [hno, Bool.and_false, if_neg hpre]
    rfl

theorem ForPlaces.keeps (hglob : Globs glob) (hdir : PlainDir dir) (h : ForPlaces line) :
    KeepsMeaning glob dir line := by
  obtain ⟨⟨p, hparse, hplaces⟩, hbang⟩ := h
  intro path isDir
  rw [rewritten_verdict hglob hdir hparse hbang]
  congr 1
  by_cases hanchored : p.anchored = true
  · rw [anchored_verdict hparse hanchored]
  · rw [unanchored_verdict hparse hanchored, hplaces.resolve_left hanchored, segsMatch_stars,
      List.headD_cons, any_stars hglob]

theorem doubled_slash_verdict (hglob : Globs glob) (hdir : PlainDir dir) (h : ['!', '/'] <+: line)
    {p : Pattern} (hparse : parse line = some p)
    {path : List PyStr} (hpath : path ≠ []) (isDir : Bool) :
    lineVerdict glob (rewritten dir line) (dir ++ path) isDir = none := by
  obtain ⟨body, hbody⟩ := h
  subst hbody
  have hne : body ≠ [] := by
    intro hnil
    subst hnil
    cases hparse
  have htrim : innerOf (trimEnd ('/' :: '/' :: body)) = '/' :: trimEnd body := by
    have happend := @trimEnd_append ['/', '/'] body hne
    rw [List.cons_append, List.cons_append, List.nil_append] at happend
    rw [happend]
    rfl
  have hsegs : splitText ['/'] ('/' :: trimEnd body) = [] :: splitText ['/'] (trimEnd body) :=
    splitText_singleton List.not_mem_nil (trimEnd body)
  obtain ⟨q, hq, hqsegs⟩ : ∃ q, parseBody true ('/' :: '/' :: body) = some q ∧
      q.segs = [] :: splitText ['/'] (trimEnd body) := by
    rw [parseBody_eq, if_neg, htrim, hsegs]
    · exact ⟨_, rfl, rfl⟩
    · intro hnil
      rw [hnil] at htrim
      cases htrim
  have hrewritten : parse (rewritten dir (['!', '/'] ++ body))
      = some { q with anchored := true, segs := dir ++ q.segs } :=
    parseBody_below hdir.ne_nil hdir.names hq
  rw [anchored_verdict hrewritten rfl]
  have hno : segsMatch glob (dir ++ q.segs) (dir ++ path) = false := by
    rw [← Bool.not_eq_true, segsMatch_below hglob hdir.names]
    intro hex
    obtain ⟨rest, heq, hmatch⟩ := hex
    have hrest := List.append_cancel_left heq
    subst hrest
    obtain ⟨name, names, hnames⟩ := List.exists_cons_of_ne_nil hpath
    subst hnames
    rw [hqsegs, segsMatch, if_neg (by decide), hglob.empty] at hmatch
    cases hmatch
  rw [if_neg]
  simp only [hno, Bool.and_false]
  exact Bool.false_ne_true

/-- Of the lines that say something of some place, those for places are the
ones that keep their meaning. -/
theorem keepsMeaning_iff (hglob : Globs glob) (hdir : PlainDir dir)
    (hmeets : ∃ path, lineVerdict glob line path true ≠ none) :
    KeepsMeaning glob dir line ↔ ForPlaces line := by
  refine ⟨fun hkeeps => ?_, ForPlaces.keeps hglob hdir⟩
  obtain ⟨path, hpath⟩ := hmeets
  have hne : path ≠ [] := by
    intro hnil
    subst hnil
    exact hpath (lineVerdict_nil line true)
  obtain ⟨p, hparse⟩ : ∃ p, parse line = some p := by
    rw [← Option.isSome_iff_exists, ← Option.ne_none_iff_isSome]
    intro hnone
    refine hpath ?_
    unfold lineVerdict
    rw [hnone]
    rfl
  have hbang : ¬['!', '/'] <+: line := by
    intro hbang
    have hsame := hkeeps (dir ++ path) true
    rw [doubled_slash_verdict hglob hdir hbang hparse hne, if_pos (List.prefix_append dir path),
      List.drop_left] at hsame
    exact hpath hsame.symm
  refine ⟨⟨p, hparse, ?_⟩, hbang⟩
  by_contra hnot
  obtain ⟨hanchored, hstars⟩ := not_or.1 hnot
  -- a line for names meets the same name one level down, where its rewriting does not
  obtain ⟨seg, hseg⟩ := segs_of_not_anchored hparse hanchored
  rw [unanchored_verdict hparse hanchored, hseg, List.headD_cons] at hpath
  obtain ⟨hboth, -⟩ := (ite_ne_right_iff).1 hpath
  obtain ⟨hkind, hany⟩ := Bool.and_eq_true_iff.1 hboth
  obtain ⟨name, -, hname⟩ := (Option.any_eq_true _ _).1 hany
  have hsame := hkeeps (dir ++ [name, name]) true
  rw [rewritten_verdict hglob hdir hparse hbang, if_pos (List.prefix_append _ _),
    if_pos (List.prefix_append _ _), List.drop_left, unanchored_verdict hparse hanchored, hseg] at hsame
  have hshort : segsMatch glob [seg] [name, name] = false := by
    have hne : seg ≠ doubleStar := by
      intro heq
      rw [heq] at hseg
      exact hstars hseg
    rw [segsMatch, if_neg hne]
    simp [segsMatch]
  rw [hshort, Bool.and_false, if_neg Bool.false_ne_true, hkind] at hsame
  have hlast : ([name, name].getLast?.any (glob ([seg].headD []))) = true := hname
  rw [hlast] at hsame
  cases hsame

end

-- ===== all lines

section

variable {glob : PyStr → PyStr → Bool} {files : IgnoreFiles}

theorem verdict_append (xs ys : List PyStr) (path : List PyStr) (isDir : Bool) :
    verdict glob (xs ++ ys) path isDir
      = (verdict glob ys path isDir).or (verdict glob xs path isDir) := by
  unfold verdict
  rw [List.map_append, lastSome_append]

theorem verdict_nil_path (lines : List PyStr) (isDir : Bool) : verdict glob lines [] isDir = none := by
  induction lines with
  | nil => rfl
  | cons line lines ih =>
      unfold verdict at ih ⊢
      rw [List.map_cons, lastSome, ih, lineVerdict_nil]
      rfl

theorem verdict_rewritten {lines : List PyStr}
    (hkeep : ∀ line ∈ lines, KeepsMeaning glob dir line) (path : List PyStr) (isDir : Bool) :
    verdict glob (lines.map (rewritten dir)) path isDir
      = if dir <+: path then verdict glob lines (path.drop dir.length) isDir else none := by
  induction lines with
  | nil =>
      split
      · rfl
      · rfl
  | cons line lines ih =>
      obtain ⟨hline, hlines⟩ := List.forall_mem_cons.1 hkeep
      have ih := ih hlines
      unfold verdict at ih ⊢
      rw [List.map_cons, List.map_cons, lastSome, ih, hline path isDir]
      split
      · rfl
      · rfl

theorem saidBelow_ne_none {path dir : List PyStr} {isDir : Bool}
    (h : saidBelow glob files path isDir dir ≠ none) :
    dir <+: path ∧ dir.length < path.length ∧ gitLines (files.gitignore dir) ≠ [] := by
  unfold saidBelow at h
  split at h
  next hpre =>
    refine ⟨hpre, ?_, ?_⟩
    · refine Nat.lt_of_le_of_ne hpre.length_le fun heq => h ?_
      unfold dirVerdict
      rw [List.drop_eq_nil_of_le (Nat.le_of_eq heq.symm), verdict_nil_path]
    · intro hnil
      refine h ?_
      unfold dirVerdict
      rw [hnil]
      rfl
  next => exact absurd rfl h

theorem mem_dirsAbove {path dir : List PyStr} (hpre : dir <+: path) :
    dir ∈ dirsAbove path ↔ dir ≠ [] ∧ dir.length < path.length := by
  unfold dirsAbove
  rw [List.mem_map]
  constructor
  · intro hex
    obtain ⟨n, hn, hdir⟩ := hex
    rw [List.mem_range'_1] at hn
    have hlength : dir.length = n := by
      rw [← hdir, List.length_take, Nat.min_eq_left (by omega)]
    refine ⟨?_, by omega⟩
    intro hnil
    rw [hnil, List.length_nil] at hlength
    omega
  · intro h
    have hpos := List.length_pos_iff.2 h.1
    exact ⟨dir.length, List.mem_range'_1.2 (by omega), (List.prefix_iff_eq_take.1 hpre).symm⟩

theorem dirsAbove_above {path dir : List PyStr} (h : dir ∈ dirsAbove path) : dir <+: path := by
  obtain ⟨n, -, hdir⟩ := List.mem_map.1 h
  rw [← hdir]
  exact List.take_prefix n path

theorem nestedLines_verdict (h : Translates glob files)
    (hglob : Globs glob)
    (path : List PyStr) (isDir : Bool) :
    verdict glob (nestedLines files) path isDir = listedVerdict glob files path isDir := by
  unfold verdict nestedLines listedVerdict
  rw [List.map_flatMap, lastSome_flatMap]
  congr 1
  refine List.map_congr_left fun dir hdir => ?_
  have hread := h.read dir (Or.inr hdir)
  have hkeep : ∀ line ∈ readIgnoreFile (files.gitignore dir), KeepsMeaning glob dir line := by
    intro line hline
    rw [hread] at hline
    exact (h.places dir hdir line hline).keeps hglob (h.dirs dir hdir)
  have hdirs := verdict_rewritten hkeep path isDir
  rw [hread] at hdirs ⊢
  exact hdirs

/-- The deepest file that says anything has the last word in both, of a place
that no excluded directory is above. -/
theorem listed_eq (h : Translates glob files) {path : List PyStr} {isDir : Bool}
    (hopen : ∀ dir, dir <+: path → dir.length < path.length →
      excluded (gitVerdict glob files) dir true = false) :
    listedVerdict glob files path isDir = nestedVerdict glob files path isDir := by
  have habove : nestedVerdict glob files path isDir
      = lastSome ((dirsAbove path).map (saidBelow glob files path isDir)) := by
    unfold nestedVerdict
    congr 1
    refine List.map_congr_left fun dir hdir => ?_
    exact (if_pos (dirsAbove_above hdir)).symm
  rw [habove]
  refine @lastSome_map_congr _ _ _ List.length _ _ ?_ ?_ ?_
  · refine h.ordered.imp ?_
    intro a b hnot ha hb
    obtain ⟨hapre, -, -⟩ := saidBelow_ne_none ha
    obtain ⟨hbpre, -, -⟩ := saidBelow_ne_none hb
    refine Nat.lt_of_not_le fun hle => hnot ?_
    exact List.prefix_of_prefix_length_le hbpre hapre hle
  · unfold dirsAbove
    rw [List.pairwise_map]
    refine List.Pairwise.imp_of_mem ?_ (List.pairwise_lt_range' 1)
    intro a b ha hb hlt _ _
    rw [List.mem_range'_1] at ha hb
    rw [List.length_take, List.length_take]
    omega
  · intro dir hsaid
    obtain ⟨hpre, hlt, hlines⟩ := saidBelow_ne_none hsaid
    rw [mem_dirsAbove hpre]
    constructor
    · exact fun hmem => ⟨(h.dirs dir hmem).ne_nil, hlt⟩
    · exact fun hne => h.listed dir hne.1 (hopen dir hpre hlt) hlines

-- ===== the whole list

theorem buildSpec_verdict (h : Translates glob files)
    (hglob : Globs glob)
    (path : List PyStr) (isDir : Bool) :
    verdict glob (buildSpec files) path isDir
      = (listedVerdict glob files path isDir).or
        ((verdict glob (gitLines files.veluneignore) path isDir).or
          ((verdict glob (gitLines (files.gitignore [])) path isDir).or
            (verdict glob HARDCODED_PATTERNS path isDir))) := by
  unfold buildSpec
  rw [verdict_append, verdict_append, verdict_append, nestedLines_verdict h hglob,
    h.read [] (Or.inl rfl), h.readVelune]

theorem gitVerdict_eq (path : List PyStr) (isDir : Bool) :
    gitVerdict glob files path isDir
      = (verdict glob (gitLines files.veluneignore) path isDir).or
        ((nestedVerdict glob files path isDir).or
          ((verdict glob (gitLines (files.gitignore [])) path isDir).or
            (verdict glob HARDCODED_PATTERNS path isDir))) := by
  simp only [gitVerdict, lastSome, Option.none_or, Option.or_assoc]

/-- `.veluneignore` has the last word in the indexer's list. -/
theorem velune_first (h : Translates glob files)
    (hglob : Globs glob)
    {path : List PyStr} {isDir b : Bool}
    (hvelune : verdict glob (gitLines files.veluneignore) path isDir = some b) :
    verdict glob (buildSpec files) path isDir = some b := by
  rw [buildSpec_verdict h hglob, hvelune]
  rcases h.priority path isDir b hvelune with hnone | hsome
  · rw [hnone]
    rfl
  · rw [hsome]
    rfl

/-- Where no excluded directory is above, the indexer's list says what git
says. -/
theorem buildSpec_eq (h : Translates glob files)
    (hglob : Globs glob)
    {path : List PyStr} (isDir : Bool)
    (hopen : ∀ dir, dir <+: path → dir.length < path.length →
      excluded (gitVerdict glob files) dir true = false) :
    verdict glob (buildSpec files) path isDir = gitVerdict glob files path isDir := by
  rw [gitVerdict_eq]
  cases hvelune : verdict glob (gitLines files.veluneignore) path isDir with
  | some b =>
      rw [velune_first h hglob hvelune]
      rfl
  | none => rw [buildSpec_verdict h hglob, hvelune, listed_eq h hopen, Option.none_or, Option.none_or]

theorem matchFile_eq (h : Translates glob files)
    (hglob : Globs glob)
    (path : List PyStr) (isDir : Bool) :
    matchFile glob files path isDir = excluded (gitVerdict glob files) path isDir :=
  excluded_congr (fun _ isDir hopen => buildSpec_eq h hglob isDir hopen) path isDir

/-- A directory is ignored if git excludes it: asked as a file it is excluded
no sooner. -/
theorem isIgnored_dir (h : Translates glob files)
    (hglob : Globs glob) (path : List PyStr) :
    isIgnored glob files path true = true ↔ excluded (gitVerdict glob files) path true = true := by
  unfold isIgnored
  rw [if_pos rfl, matchFile_eq h hglob, matchFile_eq h hglob, Bool.or_eq_true]
  refine or_iff_left_of_imp fun hfile => ?_
  by_contra hdir
  rw [Bool.not_eq_true] at hdir
  rcases (excluded_eq path false).1 hfile with hself | habove
  · exact h.kinds path hdir hself.2
  · have hexcluded := (excluded_eq path true).2 (Or.inr habove)
    rw [hdir] at hexcluded
    cases hexcluded

theorem skips_iff (h : Translates glob files)
    (hglob : Globs glob) (path : List PyStr) :
    skips glob files path = true ↔ excluded (gitVerdict glob files) path false = true := by
  unfold skips
  rw [List.any_eq_true]
  constructor
  · intro hex
    obtain ⟨above, hmem, hskips⟩ := hex
    have hpre := (List.mem_inits above path).1 hmem
    obtain ⟨-, hignored⟩ := Bool.and_eq_true_iff.1 hskips
    by_cases heq : above = path
    · subst heq
      rw [bne_self_eq_false] at hignored
      unfold isIgnored at hignored
      rwa [if_neg Bool.false_ne_true, matchFile_eq h hglob] at hignored
    · rw [bne_iff_ne.2 heq, isIgnored_dir h hglob] at hignored
      refine excluded_below hpre ?_ hignored
      exact Nat.lt_of_le_of_ne hpre.length_le fun hlength => heq (hpre.eq_of_length hlength)
  · intro hexcluded
    refine ⟨path, (List.mem_inits path path).2 List.prefix_rfl, ?_⟩
    have hne : path ≠ [] := by
      intro hnil
      subst hnil
      cases hexcluded
    rw [bne_self_eq_false]
    unfold isIgnored
    rw [if_neg Bool.false_ne_true, matchFile_eq h hglob, hexcluded]
    simpa using hne

/-- Without exceptions a directory that is excluded as a file is excluded. -/
theorem kinds_of_positive (hgit : ∀ dir, Positive (gitLines (files.gitignore dir)))
    (hvelune : Positive (gitLines files.veluneignore)) (path : List PyStr)
    (hopen : excluded (gitVerdict glob files) path true = false) :
    gitVerdict glob files path false ≠ some true := by
  intro hfile
  have hhard : Positive HARDCODED_PATTERNS := by decide +kernel
  have hnested (isDir : Bool) :
      some false ∉ (dirsAbove path).map fun dir => dirVerdict glob files dir path isDir := by
    intro hmem
    obtain ⟨dir, -, heq⟩ := List.mem_map.1 hmem
    exact (verdict_positive (hgit dir) _ isDir).1 heq
  have hwhole (isDir : Bool) : some false ∉ [verdict glob HARDCODED_PATTERNS path isDir,
      verdict glob (gitLines (files.gitignore [])) path isDir,
      nestedVerdict glob files path isDir, verdict glob (gitLines files.veluneignore) path isDir] := by
    simp only [List.mem_cons, List.not_mem_nil, or_false, not_or]
    exact ⟨(verdict_positive hhard path isDir).1.symm, (verdict_positive (hgit []) path isDir).1.symm,
      (lastSome_ne_false (hnested isDir)).symm, (verdict_positive hvelune path isDir).1.symm⟩
  have hdir : gitVerdict glob files path true = some true := by
    unfold gitVerdict at hfile ⊢
    rw [lastSome_eq_true_iff (hwhole false)] at hfile
    rw [lastSome_eq_true_iff (hwhole true)]
    simp only [List.mem_cons, List.not_mem_nil, or_false] at hfile ⊢
    refine hfile.imp ?_ (Or.imp ?_ (Or.imp ?_ ?_))
    · exact fun h => ((verdict_positive hhard path false).2 h.symm).symm
    · exact fun h => ((verdict_positive (hgit []) path false).2 h.symm).symm
    · intro h
      refine ((lastSome_eq_true_iff (hnested true)).2 ?_).symm
      obtain ⟨dir, hmem, heq⟩ := List.mem_map.1 ((lastSome_eq_true_iff (hnested false)).1 h.symm)
      exact List.mem_map.2 ⟨dir, hmem, (verdict_positive (hgit dir) _ false).2 heq⟩
    · exact fun h => ((verdict_positive hvelune path false).2 h.symm).symm
  have hne : path ≠ [] := by
    intro hnil
    subst hnil
    rw [gitVerdict_eq, verdict_nil_path, verdict_nil_path, verdict_nil_path] at hfile
    cases hfile
  rw [(excluded_eq path true).2 (Or.inl ⟨hne, hdir⟩)] at hopen
  cases hopen

end

def oneNested (dir line : String) : IgnoreFiles where
  gitignore place := if place = [dir.toList] then some (line.toList ++ ['\n']) else none
  veluneignore := none
  listing := [[dir.toList]]

end Velune.Repository
