/-
The segment matcher (`tools/filesystem/ignore.py`, `_match_segments`), for
items of any kind: a predicate on one segment, or `none` for a run of
them. It keeps the last free item only, and retries from there.

Where the matcher stands carries what its loop ends by: a retry moves the
mark on, and between two retries every round passes an item.

And the expression of a segment with stars (`_translate_segment`), as its
text is written: up to two stars are runs of characters, and with more each
middle piece is looked for ahead and then taken by a reference to what was
found.
-/
import Velune.Ignore.Rules
import Velune.Lib.Wildcard

namespace Velune.Ignore

open Lib Lib.Regex

-- ===== the segments of a path

/-- The place of the loop: its item and segment, the last free item passed,
and the segment that one is retried from. -/
structure Place where
  item : Nat
  part : Nat
  star : Option Nat
  mark : Nat
  mark_le : mark ≤ part

def Place.start : Place := ⟨0, 0, none, 0, Nat.le_refl 0⟩

def Place.free (c : Place) : Place := ⟨c.item + 1, c.part, some c.item, c.part, Nat.le_refl _⟩

def Place.accept (c : Place) : Place :=
  ⟨c.item + 1, c.part + 1, c.star, c.mark, Nat.le_succ_of_le c.mark_le⟩

def Place.back (c : Place) (star : Nat) : Place :=
  ⟨star + 1, c.mark + 1, some star, c.mark + 1, Nat.le_refl _⟩

/-- The loop of `_match_segments`; `none` for the way out that is no
match. -/
def segmentLoop (items : List (Option (PyStr → Bool))) (parts : List PyStr) (c : Place) :
    Option Nat :=
  if hpart : c.part < parts.length then
    if hitem : c.item < items.length then
      match items[c.item] with
      | none => segmentLoop items parts c.free
      | some accepts =>
          if accepts parts[c.part] then segmentLoop items parts c.accept
          else
            match c.star with
            | some star => segmentLoop items parts (c.back star)
            | none => none
    else
      match c.star with
      | some star => segmentLoop items parts (c.back star)
      | none => none
  else some c.item
termination_by (parts.length - c.mark, items.length - c.item)
decreasing_by
  · have := c.mark_le
    simp only [Prod.lex_def, Place.free]
    omega
  · exact Prod.Lex.right _ (Nat.sub_lt_sub_left hitem (Nat.lt_succ_self c.item))
  · have := c.mark_le
    simp only [Prod.lex_def, Place.back]
    omega
  · have := c.mark_le
    simp only [Prod.lex_def, Place.back]
    omega

def finished (items : List (Option (PyStr → Bool))) : Option Nat → Bool
  | some item => (items.drop item).all (·.isNone)
  | none => false

/-- `_match_segments`. -/
def segmentsMatch (items : List (Option (PyStr → Bool))) (parts : List PyStr) : Bool :=
  finished items (segmentLoop items parts Place.start)

-- ===== the stars of a segment

section Stars

variable (flags : Flags) {β : Type}

/-- `"[^/]*".join(joined)`. -/
def plainRe (seg : Seg) : Re := .cat ((seg.map (pieceRe flags)).intersperse anyInSegment)

/-- `(?=(?P<name>[^/]*?middle))(?P=name)`. -/
def committed (name : Nat) (middle : List CharPat) (prev : Option Char) (s : PyStr) (g : Groups)
    (k : Option Char → PyStr → Groups → Option β) : Option β :=
  lookahead noWords (.group name (.seq (.many true notSlash) (pieceRe flags middle))) prev s g
    fun g' => backref name prev s g' k

/-- The middle pieces, under the names from `name` on. -/
def middles : Nat → List (List CharPat) → Option Char → PyStr → Groups →
    (Option Char → PyStr → Groups → Option β) → Option β
  | _, [], prev, s, g, k => k prev s g
  | name, middle :: rest, prev, s, g, k =>
      committed flags name middle prev s g fun prev s g => middles (name + 1) rest prev s g k

/-- What the expression of `_translate_segment` does in front of `k`, the
first unused name being `name`. -/
def runSegment (name : Nat) (seg : Seg) (prev : Option Char) (s : PyStr) (g : Groups)
    (k : Option Char → PyStr → Groups → Option β) : Option β :=
  if seg.length ≤ 3 then run noWords (plainRe flags seg) prev s g k
  else
    match seg with
    | [] => k prev s g
    | first :: rest =>
        run noWords (pieceRe flags first) prev s g fun prev s g =>
          middles flags name rest.dropLast prev s g fun prev s g =>
            run noWords (.seq anyInSegment (pieceRe flags (rest.getLastD []))) prev s g k

/-- `re.fullmatch`. -/
def matchesWhole (runs : Option Char → PyStr → Groups →
    (Option Char → PyStr → Groups → Option Unit) → Option Unit) (name : PyStr) : Bool :=
  (runs none name [] fun _ rest _ => if rest = [] then some () else none).isSome

end Stars

end Velune.Ignore
