/-
Rule lists compiled for lookup (`tools/filesystem/ignore.py`, the views):
plain names, plain paths and plain suffixes are looked up in tables, the
other expressions are tried as one alternation, the newest first, and
the patterns with several double stars one by one.

A relative path is the list of its segments; `none` stands for the index
-1.
-/
import Velune.Ignore.Pattern

namespace Velune.Ignore

open Lib Lib.Regex

-- ===== segment patterns

variable (flags : Flags)

abbrev noWords : Char → Bool := fun _ => false

/-- `item.fullmatch(part)`. -/
def Item.accepts (item : Item) (part : PyStr) : Bool :=
  let re := match item with
    | .anySegment => Re.plus notSlash
    | .glob seg => segRe flags seg
  (run noWords re none part [] fun _ rest _ => if rest = [] then some () else none).isSome

/-- Where the segment matcher stands: at an item and a segment, with the
last free item passed and the segment it is retried from. -/
structure Cursor where
  item : Nat
  part : Nat
  star : Option Nat
  mark : Nat
  deriving DecidableEq, Repr

def Cursor.retry (c : Cursor) : Option Cursor :=
  c.star.map fun star => { c with item := star + 1, part := c.mark + 1, mark := c.mark + 1 }

/-- The loop of `_match_segments`, over a text of segments. -/
def matchLoop (items : List (Option Item)) (parts : List PyStr) : Nat → Cursor → Option Nat
  | 0, _ => none
  | fuel + 1, c =>
      match parts.drop c.part with
      | [] => some c.item
      | part :: _ =>
          match items[c.item]? with
          | some none =>
              matchLoop items parts fuel
                { c with star := some c.item, mark := c.part, item := c.item + 1 }
          | some (some item) =>
              if item.accepts flags part then
                matchLoop items parts fuel { c with item := c.item + 1, part := c.part + 1 }
              else
                match c.retry with
                | some c => matchLoop items parts fuel c
                | none => none
          | none =>
              match c.retry with
              | some c => matchLoop items parts fuel c
              | none => none

/-- `_match_segments`: what is left of the items must be free. Each retry
moves the mark on by one, and between two retries every round passes an
item. -/
def matchSegments (items : List (Option Item)) (parts : List PyStr) : Bool :=
  match matchLoop flags items parts ((items.length + 1) * (parts.length + 1) + 1) ⟨0, 0, none, 0⟩ with
  | some i => (items.drop i).all (· == none)
  | none => false

-- ===== views

def relText (rel : List PyStr) : PyStr := Text.join ['/'] rel

/-- `rel.rpartition("/")[2]`. -/
def relName (rel : List PyStr) : PyStr := rel.getLastD []

/-- `_View`: the tables hold indices into the whole rule list. -/
structure View where
  names : Dict PyStr Nat
  paths : Dict PyStr Nat
  suffixes : Dict PyStr Nat
  longestSuffix : Nat
  /-- The other expressions, the newest first. -/
  globs : List (Nat × Re)
  /-- The segment patterns, the newest first. -/
  multis : List (Nat × List (Option Item))

def View.empty : View := ⟨.empty, .empty, .empty, 0, [], []⟩

def View.add (view : View) (index : Nat) (rule : Rule) : View :=
  match rule.kind with
  | .name key => { view with names := view.names.insert (flags.fold key) index }
  | .path key => { view with paths := view.paths.insert (flags.fold key) index }
  | .suffix key =>
      { view with
        suffixes := view.suffixes.insert (flags.fold key) index
        longestSuffix := max view.longestSuffix (flags.fold key).length }
  | .multi => { view with multis := (index, rule.segs) :: view.multis }
  | .regex => { view with globs := (index, rule.regex flags) :: view.globs }

def makeView (rules : List (Nat × Rule)) : View :=
  rules.foldl (fun view r => view.add flags r.1 r.2) .empty

def newer : Option Nat → Option Nat → Option Nat
  | none, b => b
  | some a, none => some a
  | some a, some b => some (max a b)

/-- The newest suffix of a name, of those no longer than `longest`, that
the table holds. -/
def newestSuffix (suffixes : Dict PyStr Nat) (longest : Nat) (name : PyStr) : Option Nat :=
  (List.range' (name.length - longest) (name.length + 1 - (name.length - longest))).foldl
    (fun best start => newer best (suffixes (name.drop start))) none

/-- The newest expression that matches: the group of the alternation's
first alternative to do so. -/
def newestGlob (globs : List (Nat × Re)) (rel : PyStr) : Option Nat :=
  (matchAt noWords (.oneOf (globs.map fun g => .group g.1 g.2)) none rel).bind
    fun hit => hit.groups.head?.map (·.1)

/-- The newest segment pattern to match, unless what is known is newer. -/
def newestMulti (parts : List PyStr) (best : Option Nat) :
    List (Nat × List (Option Item)) → Option Nat
  | [] => best
  | (index, items) :: older =>
      if best.any (index ≤ ·) then best
      else if matchSegments flags items parts then some index
      else newestMulti parts best older

def View.lastMatch (view : View) (rel : List PyStr) : Option Nat :=
  let name := flags.fold (relName rel)
  let best := newer (view.names name) (view.paths (flags.fold (relText rel)))
  let best := newer best (newestSuffix view.suffixes view.longestSuffix name)
  let best := newer best (newestGlob view.globs (relText rel))
  newestMulti flags rel best view.multis

-- ===== rule sets

structure RuleSet where
  dirs : View
  files : View
  negates : List Bool

def indexed (rules : List Rule) : List (Nat × Rule) := rules.zipIdx.map fun r => (r.2, r.1)

def makeRuleset (rules : List Rule) : Option RuleSet :=
  if rules = [] then none
  else some
    { dirs := makeView flags (indexed rules)
      files := makeView flags ((indexed rules).filter fun r => !r.2.dirOnly)
      negates := rules.map (·.negate) }

/-- `_matches`: the verdict of the last matching rule, `true` being
ignored. -/
def ruleVerdict (rules : Option RuleSet) (rel : List PyStr) (isDir : Bool) : Option Bool :=
  rules.bind fun rules =>
    ((if isDir then rules.dirs else rules.files).lastMatch flags rel).map fun index =>
      !(rules.negates.getD index false)

end Velune.Ignore
