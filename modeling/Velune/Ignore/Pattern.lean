/-
Ignore patterns (`tools/filesystem/ignore.py`, first half): how one line
of an ignore file becomes a rule, and the regular expressions a rule
stands for.

A translated segment is the list of its fixed-width pieces between the
stars. The expression it stands for depends on their number: with more
than two stars every middle piece is matched at its first place and
committed to. Which characters `re` takes for one another when case is
ignored is Unicode's, the parameter `CaseTable`.
-/
import Velune.Domain
import Velune.Lib.Dict
import Velune.Lib.Regex

namespace Velune.Ignore

open Lib Lib.Regex

-- ===== case

structure CaseTable where
  /-- `str.lower`. -/
  lower : PyStr → PyStr
  /-- The characters `re` takes for one when case is ignored. -/
  variants : Char → List Char

structure Flags where
  table : CaseTable
  caseSensitive : Bool

def Flags.variants (flags : Flags) (c : Char) : List Char :=
  if flags.caseSensitive then [c] else flags.table.variants c

def Flags.fold (flags : Flags) (s : PyStr) : PyStr :=
  if flags.caseSensitive then s else flags.table.lower s

-- ===== characters

inductive CharPat
  | lit (c : Char)
  | notSlash
  | set (negate : Bool) (ranges : List (Char × Char))
  deriving DecidableEq, Repr

def notSlash (c : Char) : Bool := c != '/'

def inRange (c : Char) (range : Char × Char) : Bool := range.1 ≤ c && c ≤ range.2

def CharPat.holds (flags : Flags) : CharPat → Char → Bool
  | lit d, c => (flags.variants c).contains d
  | notSlash, c => Ignore.notSlash c
  | set negate ranges, c =>
      Ignore.notSlash c && ((flags.variants c).any (fun d => ranges.any (inRange d)) != negate)

def singles (s : String) : List (Char × Char) := s.toList.map fun c => (c, c)

/-- `_POSIX_CLASSES`. -/
def posixClass (name : PyStr) : Option (List (Char × Char)) :=
  match String.ofList name with
  | "alpha" => some [('a', 'z'), ('A', 'Z')]
  | "digit" => some [('0', '9')]
  | "alnum" => some [('a', 'z'), ('A', 'Z'), ('0', '9')]
  | "upper" => some [('A', 'Z')]
  | "lower" => some [('a', 'z')]
  | "space" => some ((' ', ' ') :: ('\t', '\r') :: [])
  | "blank" => some (singles " \t")
  | "punct" => some [('!', '/'), (':', '@'), ('[', Char.ofNat 96), ('\x7b', '~')]
  | "xdigit" => some [('0', '9'), ('A', 'F'), ('a', 'f')]
  | "cntrl" => some [('\x00', '\x1f'), ('\x7f', '\x7f')]
  | "print" => some [(' ', '~')]
  | "graph" => some [('!', '~')]
  | _ => none

-- ===== segments

/-- The message of a `_PatternError`. -/
abbrev PatternError := PyStr

/-- The name of a `[:name:]`, `s` being the text after `[:`, and the text
after it. -/
def posixName (s : PyStr) : Option (PyStr × PyStr) :=
  (Text.find ":]".toList s).map fun i => (s.take i, s.drop (i + 2))

/-- The items of a bracket expression up to its end, and the text after
it; `fuel` is the length of the text. -/
def classItems (first : Bool) : Nat → PyStr → Except PatternError (List (Char × Char) × PyStr)
  | 0, _ => .error "unterminated '[' bracket expression".toList
  | _ + 1, [] => .error "unterminated '[' bracket expression".toList
  | fuel + 1, c :: s =>
      let continueWith (range : Char × Char) (rest : PyStr) :=
        (classItems false fuel rest).map fun r => (range :: r.1, r.2)
      /- one character, or a range that begins with it -/
      let item (c : Char) (s : PyStr) :=
        match s with
        | '-' :: hi :: rest =>
            if hi = ']' then continueWith (c, c) s
            else if hi = '\\' then
              match rest with
              | [] => .error "a backslash ends the pattern inside a bracket range".toList
              | hi :: rest =>
                  if hi < c then
                    .error ("reversed range ".toList ++ [c, '-', hi]
                      ++ " in a bracket expression".toList)
                  else continueWith (c, hi) rest
            else if hi < c then
              .error ("reversed range ".toList ++ [c, '-', hi] ++ " in a bracket expression".toList)
            else continueWith (c, hi) rest
        | _ => continueWith (c, c) s
      if c = ']' ∧ first = false then .ok ([], s)
      else
        match (if c = '[' ∧ s.head? = some ':' then posixName s.tail else none) with
        | some (name, rest) =>
            match posixClass name with
            | none => .error ("unknown character class [:".toList ++ name ++ ":]".toList)
            | some ranges => (classItems false fuel rest).map fun r => (ranges ++ r.1, r.2)
        | none =>
            if c = '\\' then
              match s with
              | [] => .error "a backslash ends the pattern inside a bracket expression".toList
              | c :: s => item c s
            else item c s

/-- `_translate_class`, `s` being the text after the bracket. -/
def translateClass (s : PyStr) : Except PatternError (CharPat × PyStr) :=
  match s with
  | '!' :: rest | '^' :: rest =>
      (classItems true (rest.length + 1) rest).map fun r => (.set true r.1, r.2)
  | _ => (classItems true (s.length + 1) s).map fun r => (.set false r.1, r.2)

abbrev Seg := List (List CharPat)

def Seg.push (p : CharPat) : Seg → Seg
  | [] => [[p]]
  | piece :: pieces => (p :: piece) :: pieces

/-- `_translate_segment`, its loop; `fuel` is the length of the text. A
run of stars is one. -/
def translateLoop : Nat → PyStr → Except PatternError Seg
  | 0, _ => .ok [[]]
  | _ + 1, [] => .ok [[]]
  | fuel + 1, c :: s =>
      if c = '\\' then
        match s with
        | [] => .error "the pattern ends with a backslash".toList
        | d :: s => (translateLoop fuel s).map (Seg.push (.lit d))
      else if c = '*' then (translateLoop fuel (s.dropWhile (· == '*'))).map ([] :: ·)
      else if c = '?' then (translateLoop fuel s).map (Seg.push .notSlash)
      else if c = '[' then
        match translateClass s with
        | .error e => .error e
        | .ok (p, rest) => (translateLoop fuel rest).map (Seg.push p)
      else (translateLoop fuel s).map (Seg.push (.lit c))

def translateSegment (seg : PyStr) : Except PatternError Seg := translateLoop (seg.length + 1) seg

variable (flags : Flags)

def pieceRe (piece : List CharPat) : Re := .cat (piece.map fun p => .cls (p.holds flags))

/-- `[^/]*`. -/
def anyInSegment : Re := .many false notSlash

def segRe (seg : Seg) : Re :=
  if seg.length ≤ 3 then .cat ((seg.map (pieceRe flags)).intersperse anyInSegment)
  else
    match seg with
    | [] => .eps
    | first :: rest =>
        .cat (pieceRe flags first
          :: (rest.dropLast.map fun piece => .firstAt notSlash (piece.map (·.holds flags)))
          ++ [anyInSegment, pieceRe flags (rest.getLastD [])])

-- ===== rules

inductive Kind
  | regex
  | name (key : PyStr)
  | path (key : PyStr)
  | suffix (key : PyStr)
  | multi
  deriving DecidableEq, Repr

/-- What one segment must be: not empty, or what a pattern says. -/
inductive Item
  | anySegment
  | glob (seg : Seg)
  deriving DecidableEq, Repr

/-- `_Rule`. The expression is given by whether it is anchored and its
segments, `none` standing for two stars. -/
structure Rule where
  anchored : Bool
  body : List (Option Seg)
  negate : Bool
  dirOnly : Bool
  kind : Kind
  /-- For `multi`: the segments, `none` for any number of them. -/
  segs : List (Option Item)
  deriving DecidableEq, Repr

def slash : Re := .cls (· == '/')

def anyChar (_ : Char) : Bool := true

def bodyRe : List (Option Seg) → List Re
  | [] => []
  | [none] => [.plus anyChar]
  | [some seg] => [segRe flags seg]
  | none :: rest => .star (.seq (.plus notSlash) slash) :: bodyRe rest
  | some seg :: rest => segRe flags seg :: slash :: bodyRe rest

def Rule.regex (rule : Rule) : Re :=
  .cat (.textStart :: (if rule.anchored then [] else [.opt (.seq (.many false anyChar) slash)])
    ++ bodyRe flags rule.body ++ [.textEnd])

-- ===== compiling a line

def MAX_PATTERN_CHARS : Nat := 4096

/-- `_SPECIAL`. -/
def isSpecial (c : Char) : Bool := c == '*' || c == '?' || c == '[' || c == '\\'

/-- Trailing blanks off, unless escaped; the text is given backwards. -/
def dropBlanks : PyStr → PyStr
  | ' ' :: s => if (s.takeWhile (· == '\\')).length % 2 = 1 then ' ' :: s else dropBlanks s
  | s => s

/-- The items of a rule with two or more double stars; `items` are those
before, the last first. -/
def multiItems (items : List (Option Item)) : List (Option Seg) → List (Option Item)
  | [] => items.reverse
  | [none] => (none :: some .anySegment :: items).reverse
  | none :: rest =>
      multiItems (if items.head? = some none then items else none :: items) rest
  | some seg :: rest => multiItems (some (.glob seg) :: items) rest

def doubleStar : PyStr := "**".toList

def translateAll : List PyStr → Except PatternError (List (Option Seg))
  | [] => .ok []
  | seg :: rest =>
      if seg = doubleStar then (translateAll rest).map (none :: ·)
      else
        match translateSegment seg with
        | .error e => .error e
        | .ok s => (translateAll rest).map (some s :: ·)

def kindOf (anchored : Bool) (line : PyStr) : Kind :=
  if line.any isSpecial = false then if anchored then .path line else .name line
  else if !anchored && line.head? = some '*' && line.tail.any isSpecial = false then
    .suffix line.tail
  else .regex

/-- The rule of a pattern from which the signs at its two ends have been
taken. -/
def compilePattern (negate dirOnly : Bool) (line : PyStr) : Except PatternError (Option Rule) :=
  let anchored := line.contains '/'
  let line := if line.head? = some '/' then line.tail else line
  if line = [] then .ok none
  else
    match translateAll (line.splitOn '/') with
    | .error e => .error e
    | .ok translated =>
        if 2 ≤ translated.count none then
          .ok (some
            { anchored := anchored, body := [], negate := negate, dirOnly := dirOnly
              kind := .multi
              segs := multiItems (if anchored then [] else [none]) translated })
        else
          .ok (some
            { anchored := anchored, body := translated, negate := negate, dirOnly := dirOnly
              kind := kindOf anchored line, segs := [] })

def compileLine (line : PyStr) : Except PatternError (Option Rule) :=
  if line = [] ∨ line.head? = some '#' then .ok none
  else
    let line := (dropBlanks line.reverse).reverse
    if MAX_PATTERN_CHARS < line.length then
      .error ("pattern is longer than 4096 characters".toList)
    else
      let negate := line.head? = some '!'
      let line := if negate then line.tail else line
      let dirOnly := line.getLast? = some '/'
      compilePattern negate dirOnly (if dirOnly then line.dropLast else line)

/-- A rule that could not be applied: the number of its line, the
pattern, and why. -/
structure Problem where
  line : Nat
  pattern : PyStr
  why : PyStr
  deriving DecidableEq, Repr

def ignoreLines (text : PyStr) : List PyStr :=
  ((text.dropWhile (· == Char.ofNat 0xFEFF)).splitOn '\n').map fun raw =>
    if raw.getLast? = some '\r' then raw.dropLast else raw

def parseIgnoreTextChecked (text : PyStr) : List Rule × List Problem :=
  let compiled := (ignoreLines text).zipIdx.map fun l => (l.1, l.2 + 1, compileLine l.1)
  (compiled.filterMap fun l => l.2.2.toOption.join,
    compiled.filterMap fun l =>
      match l.2.2 with
      | .error e => some ⟨l.2.1, (Text.strip l.1).take 200, e ++ "; it matches nothing".toList⟩
      | .ok _ => none)

end Velune.Ignore
