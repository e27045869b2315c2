/-
Flowcharts as trees (`cli/rendering/mermaid.py`): the statements of a Mermaid
source, its nodes and edges, and the lines that are drawn.

A node is expanded where it is met first, so what is drawn is each edge of
the nodes that a root leads to, once, under its source. A statement is left
out by how it begins, be it the id of a node. So the tree shows the whole
diagram exactly when no edge stands in such a statement and the roots lead to
every source of an edge (`render_shows_iff`); the drawing ends always.

Lines are drawn without the cut at the width.
-/
import Mathlib.Data.List.Nodup
import Mathlib.Data.List.Perm.Basic
import Velune.Domain
import Velune.Lib.Assoc
import Velune.Lib.Regex

namespace Velune.Cli

open Lib Lib.Regex Lib.Text

-- ===== parsing

def ARROWS : List PyStr := ["-->", "---", "-.->", "==>", "--o", "--x"].map String.toList

def MAX_NODES : Nat := 60

/-- `[opening.*?closing]`, its text as a group. -/
def bracketed (opening : Re) (i : Nat) (closing : Re) : Re :=
  .cat [opening, .group i (.many true (· != '\n')), closing]

def NODE : Re :=
  .cat [.textStart, .many false isSpace, .group 1 (.plus fun c => isAlnum c || c == '_'),
    .many false isSpace,
    .opt (.oneOf [bracketed (.seq (.text ['[']) (.opt (.text ['[']))) 2
        (.seq (.opt (.text [']'])) (.text [']'])),
      bracketed (.text ['(', '(']) 3 (.text [')', ')']), bracketed (.text ['(']) 4 (.text [')']),
      bracketed (.text ['\x7b']) 5 (.text ['\x7d']), bracketed (.text ['>']) 6 (.text [']'])]),
    .many false isSpace, .textEnd]

/-- What stands before and behind the first operator; no two match at one
place. -/
def splitArrow : PyStr → Option (PyStr × PyStr)
  | [] => none
  | c :: s =>
      match ARROWS.find? (·.isPrefixOf (c :: s)) with
      | some arrow => some ([], (c :: s).drop arrow.length)
      | none => (splitArrow s).map fun (before, after) => (c :: before, after)

def takeLabel (rest : PyStr) : PyStr × PyStr :=
  match rest.dropWhile isSpace with
  | '|' :: more =>
      if '|' ∈ more then (more.takeWhile (· ≠ '|'), (more.dropWhile (· ≠ '|')).tail)
      else ([], '|' :: more)
  | rest => ([], rest)

/-- `_split_chain`: the first node, and each further one with the label before
it. Every operator takes some of the text. -/
def splitChain : Nat → PyStr → PyStr × List (PyStr × PyStr)
  | 0, rest => (rest, [])
  | n + 1, rest =>
      match splitArrow rest with
      | none => (rest, [])
      | some (node, after) =>
          let (label, rest) := takeLabel after
          let (next, more) := splitChain n rest
          (node, (label, next) :: more)

structure Edge where
  src : PyStr
  dst : PyStr
  text : PyStr
  deriving DecidableEq

def parseNode (token : PyStr) : Option (PyStr × Option PyStr) :=
  (matchAt (fun _ => false) NODE none token).map fun m =>
    (m.groups.get 1, ([2, 3, 4, 5, 6].map m.groups.get).find? (· ≠ []))

def chainEdges (first : PyStr) : List (PyStr × PyStr) → List Edge
  | [] => []
  | (text, next) :: rest => ⟨first, next, strip text⟩ :: chainEdges next rest

def parseStatement (stmt : PyStr) : Option (List (PyStr × Option PyStr) × List Edge) :=
  let (first, rest) := splitChain stmt.length stmt
  (parseNode first).bind fun node =>
    (rest.mapM fun link : PyStr × PyStr => (parseNode link.2).map fun node => (link.1, node)).map
      fun more => (node :: more.map (·.2), chainEdges node.1 (more.map fun link => (link.1, link.2.1)))

def statements (source : PyStr) : List PyStr :=
  ((source.splitOnP fun c => c == ';' || c == '\n').map strip).filter (· ≠ [])

def SKIPPED : List PyStr :=
  ["subgraph", "end", "style", "classdef", "class ", "click"].map String.toList

/-- What `node` does to the labels. -/
def putLabel (labels : Assoc PyStr PyStr) (node : PyStr × Option PyStr) : Assoc PyStr PyStr :=
  match node.2 with
  | some label => labels.set node.1 (trim (['"', '[', ']', '(', ')'].contains ·) (strip label))
  | none => if node.1 ∈ labels.keys then labels else labels.set node.1 node.1

section Render

-- `\w`, and `str.lower`
variable (isWord : Char → Bool) (lower : PyStr → PyStr)

/-- `_HEADER`. -/
def isHeader (stmt : PyStr) : Bool :=
  (["graph", "flowchart"].map String.toList).any fun word =>
    (stmt.take word.length).map Char.toLower == word && !(stmt[word.length]?.any isWord)

def skipped (stmt : PyStr) : Bool := SKIPPED.any (·.isPrefixOf (lower stmt))

def parse (source : PyStr) : Option (Assoc PyStr PyStr × List Edge) :=
  match statements source with
  | [] => none
  | header :: stmts =>
      if isHeader isWord header then
        ((stmts.filter (!skipped lower ·)).mapM parseStatement).bind fun parsed =>
          let labels := (parsed.flatMap (·.1)).foldl putLabel []
          let edges := parsed.flatMap (·.2)
          if edges = [] ∨ MAX_NODES < labels.length then none else some (labels, edges)
      else none

-- ===== drawing

structure Line where
  /-- The nodes it stands under, the nearest first. -/
  path : List PyStr
  nid : PyStr
  text : PyStr
  /-- Marked as a reference back. -/
  seen : Bool
  indent : PyStr
  deriving DecidableEq

structure Item where
  nid : PyStr
  text : PyStr
  connector : PyStr

def LAST : PyStr := "└─▶ ".toList

def MORE : PyStr := "├─▶ ".toList

def kids : List Edge → List Item
  | [] => []
  | [e] => [⟨e.dst, e.text, LAST⟩]
  | e :: rest => ⟨e.dst, e.text, MORE⟩ :: kids rest

def childPrefix (before connector : PyStr) : PyStr :=
  before ++ (if connector = LAST then "    " else if connector = [] then "" else "│   ").toList

abbrev Drawn := Option (List Line × List PyStr)

/-- One after another, each from the nodes that were shown before. -/
def emitEach (f : Item → List PyStr → Drawn) : List Item → List PyStr → Drawn
  | [], shown => some ([], shown)
  | x :: rest, shown => (f x shown).bind fun (lines, shown) =>
      (emitEach f rest shown).map fun (more, shown) => (lines ++ more, shown)

/-- `emit`, to a depth. -/
def emit (edges : List Edge) : Nat → PyStr → List PyStr → Item → List PyStr → Drawn
  | 0, _, _, _, _ => none
  | n + 1, before, ancestors, x, shown =>
      let seen := x.nid ∈ ancestors ∨ x.nid ∈ shown
      let line := ⟨ancestors, x.nid, x.text, seen, before ++ x.connector⟩
      if seen then some ([line], shown)
      else
        (emitEach (emit edges n (childPrefix before x.connector) (x.nid :: ancestors))
          (kids (edges.filter (·.src = x.nid))) (x.nid :: shown)).map fun (lines, shown) =>
            (line :: lines, shown)

def roots (labels : Assoc PyStr PyStr) (edges : List Edge) : List PyStr :=
  match labels.keys.filter (· ∉ edges.map (·.dst)) with
  | [] => labels.keys.take 1
  | found => found

def ids (labels : Assoc PyStr PyStr) (edges : List Edge) : List PyStr :=
  labels.keys ++ edges.map (·.dst)

/-- `render_mermaid`, the lines. -/
def draw (labels : Assoc PyStr PyStr) (edges : List Edge) : Option (List Line) :=
  (emitEach (emit edges ((ids labels edges).length + 1) [] [])
    ((roots labels edges).map fun nid => ⟨nid, [], []⟩) []).map (·.1)

-- ===== property

/-- A statement about something else than edges begins with a keyword, not
with an id that begins with one. -/
def keyword (stmt : PyStr) : Bool :=
  SKIPPED.any fun word => word.isPrefixOf (lower stmt) &&
    !((lower stmt)[word.length]?.any fun c => word.getLast? != some ' ' && (isAlnum c || c == '_'))

def edgesOf (stmt : PyStr) : List Edge := (parseStatement stmt).elim [] (·.2)

def sourceEdges (source : PyStr) : List Edge :=
  ((statements source).tail.filter (!keyword lower ·)).flatMap edgesOf

def Line.edge (line : Line) : Option Edge := line.path.head?.map fun p => ⟨p, line.nid, line.text⟩

def expanded (lines : List Line) : List PyStr := (lines.filter (!·.seen)).map (·.nid)

/-- Lines show each of these edges once, under an expanded occurrence of its
source, and each of their nodes expanded once. -/
structure Shows (edges : List Edge) (lines : List Line) : Prop where
  drawn : (lines.filterMap Line.edge).Perm edges
  placed : ∀ l ∈ lines, ∀ p rest, l.path = p :: rest →
    ∃ q ∈ lines, q.seen = false ∧ q.nid = p ∧ q.path = rest
  named : ∀ e ∈ edges, ∀ n, n = e.src ∨ n = e.dst → (expanded lines).count n = 1
  back : ∀ l ∈ lines, l.seen = true → l.nid ∈ expanded lines

def Leads (edges : List Edge) (a b : PyStr) : Prop := ∃ e ∈ edges, e.src = a ∧ e.dst = b

/-- No edge stands in a statement that is left out for how an id begins, and
every source of an edge is reached from a root. -/
structure Whole (source : PyStr) (labels : Assoc PyStr PyStr) (edges : List Edge) : Prop where
  kept : ∀ stmt ∈ (statements source).tail, skipped lower stmt = true → keyword lower stmt = false →
    edgesOf stmt = []
  reached : ∀ e ∈ edges, ∃ root ∈ roots labels edges, Relation.ReflTransGen (Leads edges) root e.src

end Render

section Drawing

variable {edges : List Edge} {path shown after : List PyStr} {items : List Item} {lines : List Line}

/-- What is drawn of items under a path, from the nodes shown before to those
shown after. -/
structure Emitted (edges : List Edge) (path : List PyStr) (items : List Item) (shown : List PyStr)
    (lines : List Line) (after : List PyStr) : Prop where
  grown : ∀ m, m ∈ after ↔ m ∈ shown ∨ m ∈ expanded lines
  fresh : ∀ m ∈ expanded lines, m ∉ shown
  distinct : (expanded lines).Nodup
  closed : ∀ m ∈ expanded lines, ∀ e ∈ edges, e.src = m → e.dst ∈ after
  named : ∀ line ∈ lines, line.nid ∈ after
  taken : ∀ x ∈ items, x.nid ∈ after
  drawn : (lines.filterMap Line.edge).Perm
    (items.filterMap (fun x => path.head?.map fun p => ⟨p, x.nid, x.text⟩) ++
      (expanded lines).flatMap fun m => edges.filter (·.src = m))
  placed : ∀ l ∈ lines, l.path = path ∨
    ∃ q ∈ lines, q.seen = false ∧ l.path = q.nid :: q.path
  reach : ∀ m ∈ expanded lines, ∃ x ∈ items, Relation.ReflTransGen (Leads edges) x.nid m

theorem expanded_append (a b : List Line) : expanded (a ++ b) = expanded a ++ expanded b := by
  rw [expanded, List.filter_append, List.map_append]
  rfl

theorem Emitted.nil (shown : List PyStr) : Emitted edges path [] shown [] shown where
  grown _ := (or_iff_left List.not_mem_nil).symm
  fresh _ h := absurd h List.not_mem_nil
  distinct := List.nodup_nil
  closed _ h := absurd h List.not_mem_nil
  named _ h := absurd h List.not_mem_nil
  taken _ h := absurd h List.not_mem_nil
  drawn := .refl _
  placed _ h := absurd h List.not_mem_nil
  reach _ h := absurd h List.not_mem_nil

theorem Emitted.append {more : List Item} {further : List Line} {last : List PyStr}
    (h : Emitted edges path items shown lines after)
    (h' : Emitted edges path more after further last) :
    Emitted edges path (items ++ more) shown (lines ++ further) last := by
  have hle : ∀ m ∈ after, m ∈ last := fun m hm => (h'.grown m).2 (.inl hm)
  constructor
  · intro m
    rw [h'.grown, h.grown, expanded_append, List.mem_append, or_assoc]
  · intro m hm hin
    rw [expanded_append, List.mem_append] at hm
    rcases hm with hm | hm
    · exact h.fresh m hm hin
    · exact h'.fresh m hm ((h.grown m).2 (.inl hin))
  · rw [expanded_append]
    exact List.nodup_append.2 ⟨h.distinct, h'.distinct, fun a ha b hb heq =>
      h'.fresh b hb ((h.grown b).2 (.inr (heq ▸ ha)))⟩
  · intro m hm e he hsrc
    rw [expanded_append, List.mem_append] at hm
    exact hm.elim (fun hm => hle _ (h.closed m hm e he hsrc)) fun hm => h'.closed m hm e he hsrc
  · intro l hl
    exact (List.mem_append.1 hl).elim (fun hl => hle _ (h.named l hl)) (h'.named l)
  · intro x hx
    exact (List.mem_append.1 hx).elim (fun hx => hle _ (h.taken x hx)) (h'.taken x)
  · rw [List.filterMap_append, List.filterMap_append, expanded_append, List.flatMap_append]
    refine (h.drawn.append h'.drawn).trans ?_
    simp only [List.append_assoc]
    exact (List.perm_append_comm_assoc ..).append_left _
  · intro l hl
    rcases List.mem_append.1 hl with hl | hl
    · exact (h.placed l hl).imp_right fun ⟨q, hq, hqs⟩ => ⟨q, List.mem_append_left _ hq, hqs⟩
    · exact (h'.placed l hl).imp_right fun ⟨q, hq, hqs⟩ => ⟨q, List.mem_append_right _ hq, hqs⟩
  · intro m hm
    rw [expanded_append, List.mem_append] at hm
    rcases hm with hm | hm
    · obtain ⟨x, hx, hreach⟩ := h.reach m hm
      exact ⟨x, List.mem_append_left _ hx, hreach⟩
    · obtain ⟨x, hx, hreach⟩ := h'.reach m hm
      exact ⟨x, List.mem_append_right _ hx, hreach⟩

theorem kids_edges (path : List PyStr) (n : PyStr) : ∀ (found : List Edge),
    (∀ e ∈ found, e.src = n) → (∀ e ∈ found, ∃ x ∈ kids found, x.nid = e.dst) ∧
      (∀ x ∈ kids found, ∃ e ∈ found, x.nid = e.dst) ∧
        (kids found).filterMap (fun x => (n :: path).head?.map fun p => ⟨p, x.nid, x.text⟩) = found
  | [], _ => ⟨fun _ h => absurd h List.not_mem_nil, fun _ h => absurd h List.not_mem_nil, rfl⟩
  | [e], h => by
      obtain rfl := h e (List.mem_cons_self ..)
      exact ⟨List.forall_mem_singleton.2 ⟨_, List.mem_cons_self .., rfl⟩,
        List.forall_mem_singleton.2 ⟨e, List.mem_cons_self .., rfl⟩, rfl⟩
  | e :: f :: rest, h => by
      obtain ⟨hto, hof, hedges⟩ := kids_edges path n (f :: rest) fun e he =>
        h e (List.mem_cons_of_mem _ he)
      obtain rfl := h e (List.mem_cons_self ..)
      refine ⟨?_, ?_, ?_⟩
      · refine List.forall_mem_cons.2 ⟨⟨_, List.mem_cons_self .., rfl⟩, fun e he => ?_⟩
        exact (hto e he).imp fun x hx => ⟨List.mem_cons_of_mem _ hx.1, hx.2⟩
      · refine List.forall_mem_cons.2 ⟨⟨e, List.mem_cons_self .., rfl⟩, fun x hx => ?_⟩
        exact (hof x hx).imp fun e he => ⟨List.mem_cons_of_mem _ he.1, he.2⟩
      · exact congrArg (e :: ·) hedges

theorem Emitted.node {x : Item} (hx : x.nid ∉ shown) (indent : PyStr)
    (h : Emitted edges (x.nid :: path) (kids (edges.filter (·.src = x.nid))) (x.nid :: shown)
      lines after) :
    Emitted edges path [x] shown (⟨path, x.nid, x.text, false, indent⟩ :: lines) after := by
  obtain ⟨hto, hof, hedges⟩ := kids_edges path x.nid (edges.filter (·.src = x.nid))
    fun e he => of_decide_eq_true (List.mem_filter.1 he).2
  have hself : x.nid ∈ after := (h.grown _).2 (.inl (List.mem_cons_self ..))
  have hnew : x.nid ∉ expanded lines := fun hin => h.fresh _ hin (List.mem_cons_self ..)
  constructor
  · intro m
    rw [h.grown, List.mem_cons, show expanded (_ :: lines) = x.nid :: expanded lines from rfl,
      List.mem_cons, or_comm (a := m = x.nid), or_assoc]
  · exact List.forall_mem_cons.2 ⟨hx, fun m hm hin => h.fresh m hm (List.mem_cons_of_mem _ hin)⟩
  · exact List.nodup_cons.2 ⟨hnew, h.distinct⟩
  · refine List.forall_mem_cons.2 ⟨fun e he hsrc => ?_, h.closed⟩
    obtain ⟨kid, hkid, heq⟩ := hto e (List.mem_filter.2 ⟨he, decide_eq_true hsrc⟩)
    exact heq ▸ h.taken kid hkid
  · exact List.forall_mem_cons.2 ⟨hself, h.named⟩
  · exact List.forall_mem_singleton.2 hself
  · have hdrawn := h.drawn
    rw [hedges] at hdrawn
    cases path with
    | nil => exact hdrawn
    | cons p rest => exact hdrawn.cons _
  · refine List.forall_mem_cons.2 ⟨.inl rfl, fun l hl => .inr ?_⟩
    rcases h.placed l hl with heq | ⟨q, hq, hqs⟩
    · exact ⟨_, List.mem_cons_self .., rfl, heq⟩
    · exact ⟨q, List.mem_cons_of_mem _ hq, hqs⟩
  · refine List.forall_mem_cons.2 ⟨⟨x, List.mem_cons_self .., .refl⟩, fun m hm => ?_⟩
    obtain ⟨kid, hkid, hreach⟩ := h.reach m hm
    obtain ⟨e, he, hdst⟩ := hof kid hkid
    obtain ⟨hmem, hsrc⟩ := List.mem_filter.1 he
    exact ⟨x, List.mem_cons_self .., .head ⟨e, hmem, of_decide_eq_true hsrc, hdst.symm⟩ hreach⟩

theorem Emitted.seen {x : Item} (hx : x.nid ∈ shown) (indent : PyStr) :
    Emitted edges path [x] shown [⟨path, x.nid, x.text, true, indent⟩] shown where
  grown _ := (or_iff_left List.not_mem_nil).symm
  fresh _ h := absurd h List.not_mem_nil
  distinct := List.nodup_nil
  closed _ h := absurd h List.not_mem_nil
  named := List.forall_mem_singleton.2 hx
  taken := List.forall_mem_singleton.2 hx
  drawn := by cases path <;> exact .refl _
  placed := List.forall_mem_singleton.2 (.inl rfl)
  reach _ h := absurd h List.not_mem_nil

variable (edges path) in
theorem emitEach_emitted {f : Item → List PyStr → Drawn} :
    ∀ (items : List Item) (shown : List PyStr), (∀ x ∈ items, ∀ now, (∀ m ∈ shown, m ∈ now) →
      ∃ lines after, f x now = some (lines, after) ∧ Emitted edges path [x] now lines after) →
      ∃ lines after, emitEach f items shown = some (lines, after) ∧
        Emitted edges path items shown lines after
  | [], shown, _ => ⟨[], shown, rfl, .nil shown⟩
  | x :: rest, shown, h => by
      obtain ⟨lines, now, hf, hx⟩ := h x (List.mem_cons_self ..) shown fun _ hm => hm
      obtain ⟨more, after, hrest, hmore⟩ := emitEach_emitted rest now
        fun y hy later hle => h y (List.mem_cons_of_mem _ hy) later fun m hm =>
          hle m ((hx.grown m).2 (.inl hm))
      refine ⟨lines ++ more, after, ?_, hx.append hmore⟩
      rw [emitEach, hf, Option.bind_some]
      dsimp only
      rw [hrest]
      rfl

theorem emit_emitted {all : List PyStr} (hall : ∀ e ∈ edges, e.dst ∈ all) : ∀ (n : Nat)
    (before : PyStr) (path shown : List PyStr) (x : Item), (all.filter (· ∉ shown)).length < n →
    x.nid ∈ all → (∀ p ∈ path, p ∈ shown) → ∃ lines after,
      emit edges n before path x shown = some (lines, after) ∧ Emitted edges path [x] shown lines after
  | 0, _, _, _, _, h, _, _ => absurd h (Nat.not_lt_zero _)
  | n + 1, before, path, shown, x, h, hx, hpath => by
      rw [emit]
      by_cases hseen : x.nid ∈ shown
      · have hor : x.nid ∈ path ∨ x.nid ∈ shown := .inr hseen
        simp only [hor, decide_true, if_true]
        exact ⟨_, _, rfl, .seen hseen _⟩
      · have hor : ¬ (x.nid ∈ path ∨ x.nid ∈ shown) := fun h => h.elim (hseen ∘ hpath _) hseen
        simp only [hor, decide_false, Bool.false_ne_true, if_false]
        have hless : (all.filter (· ∉ x.nid :: shown)).length < n := by
          have hin : x.nid ∈ all.filter (· ∉ shown) := List.mem_filter.2 ⟨hx, decide_eq_true hseen⟩
          have hlt : ((all.filter (· ∉ shown)).filter (· ≠ x.nid)).length <
              (all.filter (· ∉ shown)).length :=
            List.length_filter_lt_length_iff_exists.2 ⟨x.nid, hin, by simp⟩
          rw [List.filter_filter] at hlt
          have hsame : (fun m => decide (m ∉ x.nid :: shown)) =
              fun m => decide (m ≠ x.nid) && decide (m ∉ shown) := by
            funext m
            rw [← Bool.decide_and]
            simp only [List.mem_cons, not_or]
          rw [hsame]
          omega
        have hkid : ∀ kid ∈ kids (edges.filter (·.src = x.nid)), kid.nid ∈ all := fun kid hkid => by
          obtain ⟨e, he, heq⟩ := (kids_edges path x.nid (edges.filter (·.src = x.nid))
            fun e he => of_decide_eq_true (List.mem_filter.1 he).2).2.1 kid hkid
          exact heq ▸ hall e (List.mem_filter.1 he).1
        obtain ⟨lines, after, hemit, hlines⟩ := emitEach_emitted edges (x.nid :: path)
          (kids (edges.filter (·.src = x.nid))) (x.nid :: shown) fun kid hin now hle =>
          emit_emitted hall n (childPrefix before x.connector) (x.nid :: path) now kid (Nat.lt_of_le_of_lt
            (List.monotone_filter_right all fun m hm => by
              simp only [decide_eq_true_eq] at hm ⊢
              exact fun hin => hm (hle m hin)).length_le hless) (hkid kid hin) fun p hp => hle p (by
                exact (List.mem_cons.1 hp).elim (fun heq => heq ▸ List.mem_cons_self ..)
                  fun hp => List.mem_cons_of_mem _ (hpath p hp))
        rw [hemit]
        exact ⟨_, _, rfl, hlines.node hseen _⟩

end Drawing

section Source

variable {isWord : Char → Bool} {lower : PyStr → PyStr} {labels : Assoc PyStr PyStr} {edges : List Edge}

theorem grouped (edges : List Edge) : ∀ {nodes : List PyStr}, nodes.Nodup →
    (nodes.flatMap fun m => edges.filter (·.src = m)).Perm (edges.filter (·.src ∈ nodes))
  | [], _ => by
      rw [List.flatMap_nil, List.filter_eq_nil_iff.2 fun e _ => by simp]
  | n :: rest, h => by
      obtain ⟨hn, hrest⟩ := List.nodup_cons.1 h
      have hsplit := List.filter_append_perm (·.src = n) (edges.filter (·.src ∈ n :: rest))
      rw [List.filter_filter, List.filter_filter] at hsplit
      have hfirst : ∀ e ∈ edges, (decide (e.src = n) && decide (e.src ∈ n :: rest)) = decide (e.src = n) :=
        fun e _ => by by_cases he : e.src = n <;> simp [he]
      have hlater : ∀ e ∈ edges, (!decide (e.src = n) && decide (e.src ∈ n :: rest)) =
          decide (e.src ∈ rest) := fun e _ => by
        by_cases he : e.src = n
        · simp [he, hn]
        · simp [he]
      rw [List.filter_congr hfirst, List.filter_congr hlater] at hsplit
      exact ((grouped edges hrest).append_left _).trans hsplit

theorem parsed_edges : ∀ {stmts : List PyStr} {parsed : List (List (PyStr × Option PyStr) × List Edge)},
    stmts.mapM parseStatement = some parsed → parsed.flatMap (·.2) = stmts.flatMap edgesOf
  | [], _, h => by
      obtain rfl := Option.some.inj h
      rfl
  | stmt :: rest, parsed, h => by
      rw [List.mapM_cons] at h
      obtain ⟨first, hfirst, hmore⟩ := Option.bind_eq_some_iff.1 h
      obtain ⟨more, hrest, heq⟩ := Option.bind_eq_some_iff.1 hmore
      obtain rfl := Option.some.inj heq
      rw [List.flatMap_cons, List.flatMap_cons, parsed_edges hrest, edgesOf, hfirst]
      rfl

theorem parse_edges {source : PyStr} (h : parse isWord lower source = some (labels, edges)) :
    edges = ((statements source).tail.filter (!skipped lower ·)).flatMap edgesOf := by
  unfold parse at h
  split at h
  next => cases h
  next header stmts hstmts =>
    rw [hstmts, List.tail_cons]
    split at h
    next =>
      obtain ⟨parsed, hparsed, hsome⟩ := Option.bind_eq_some_iff.1 h
      rw [Option.ite_none_left_eq_some] at hsome
      rw [← (Prod.mk.inj (Option.some.inj hsome.2)).2]
      exact parsed_edges hparsed
    next => cases h

theorem skipped_of_keyword {stmt : PyStr} (h : keyword lower stmt = true) :
    skipped lower stmt = true := by
  obtain ⟨word, hword, hbegins⟩ := List.any_eq_true.1 h
  exact List.any_eq_true.2 ⟨word, hword, (Bool.and_eq_true_iff.1 hbegins).1⟩

variable (lower) in
/-- Statements left out for an id are those whose edges are missing. -/
theorem kept_iff : ∀ stmts : List PyStr,
    ((stmts.filter (!skipped lower ·)).flatMap edgesOf).length ≤
        ((stmts.filter (!keyword lower ·)).flatMap edgesOf).length ∧
      (((stmts.filter (!keyword lower ·)).flatMap edgesOf).length ≤
          ((stmts.filter (!skipped lower ·)).flatMap edgesOf).length →
        ∀ stmt ∈ stmts, skipped lower stmt = true → keyword lower stmt = false → edgesOf stmt = []) ∧
      ((∀ stmt ∈ stmts, skipped lower stmt = true → keyword lower stmt = false → edgesOf stmt = []) →
        (stmts.filter (!skipped lower ·)).flatMap edgesOf =
          (stmts.filter (!keyword lower ·)).flatMap edgesOf)
  | [] => ⟨le_refl _, fun _ _ h => absurd h List.not_mem_nil, fun _ => rfl⟩
  | stmt :: rest => by
      obtain ⟨hle, hkept, hsame⟩ := kept_iff rest
      rw [List.filter_cons, List.filter_cons, List.forall_mem_cons]
      cases hskip : skipped lower stmt with
      | false =>
          have hkey : keyword lower stmt = false := Bool.eq_false_iff.2 fun h => by
            cases hskip.symm.trans (skipped_of_keyword h)
          rw [hkey, Bool.not_false, if_pos rfl, if_pos rfl, List.flatMap_cons, List.flatMap_cons,
            List.length_append, List.length_append]
          exact ⟨Nat.add_le_add_left hle _, fun h => ⟨fun h' => (by cases h'),
            hkept (Nat.le_of_add_le_add_left h)⟩, fun h => congrArg (edgesOf stmt ++ ·) (hsame h.2)⟩
      | true =>
          rw [Bool.not_true, if_neg Bool.false_ne_true]
          cases hkey : keyword lower stmt with
          | true =>
              rw [Bool.not_true, if_neg Bool.false_ne_true]
              exact ⟨hle, fun h => ⟨fun _ h' => (by cases h'), hkept h⟩, fun h => hsame h.2⟩
          | false =>
              rw [Bool.not_false, if_pos rfl, List.flatMap_cons, List.length_append]
              refine ⟨hle.trans (Nat.le_add_left ..), fun h => ⟨fun _ _ => ?_, hkept (by omega)⟩,
                fun h => ?_⟩
              · exact List.eq_nil_of_length_eq_zero (by omega)
              · rw [h.1 rfl rfl]
                exact hsame h.2

theorem roots_keys {nid : PyStr} (h : nid ∈ roots labels edges) : nid ∈ labels.keys := by
  unfold roots at h
  split at h
  next => exact List.mem_of_mem_take h
  next => exact (List.mem_filter.1 h).1

/-- The drawing ends, and shows the whole diagram exactly when no edge is in a
statement left out for an id and the roots lead to all. -/
theorem render_shows_iff {source : PyStr} (h : parse isWord lower source = some (labels, edges)) :
    ∃ lines, draw labels edges = some lines ∧
      (Shows (sourceEdges lower source) lines ↔ Whole lower source labels edges) := by
  have hedges := parse_edges h
  obtain ⟨hle, hkept, hsame⟩ := kept_iff lower (statements source).tail
  rw [← hedges] at hle hkept hsame
  obtain ⟨lines, after, hemit, hlines⟩ := emitEach_emitted edges []
    ((roots labels edges).map fun nid => ⟨nid, [], []⟩) [] fun x hx now _ =>
      emit_emitted (fun e he => List.mem_append_right _ (List.mem_map_of_mem he))
        ((ids labels edges).length + 1) [] [] now x (Nat.lt_succ_of_le (List.length_filter_le ..))
        (by
          obtain ⟨nid, hnid, rfl⟩ := List.mem_map.1 hx
          exact List.mem_append_left _ (roots_keys hnid)) fun _ hp => absurd hp List.not_mem_nil
  have hafter : ∀ m, m ∈ after ↔ m ∈ expanded lines := fun m =>
    (hlines.grown m).trans (or_iff_right List.not_mem_nil)
  have hdrawn : (lines.filterMap Line.edge).Perm (edges.filter (·.src ∈ expanded lines)) := by
    have hnone : ((roots labels edges).map fun nid => (⟨nid, [], []⟩ : Item)).filterMap
        (fun x => ([] : List PyStr).head?.map fun p => (⟨p, x.nid, x.text⟩ : Edge)) = [] :=
      List.filterMap_eq_nil_iff.2 fun _ _ => rfl
    have hall := hlines.drawn
    rw [hnone, List.nil_append] at hall
    exact hall.trans (grouped edges hlines.distinct)
  have hreached : ∀ {root m : PyStr}, root ∈ roots labels edges →
      Relation.ReflTransGen (Leads edges) root m → m ∈ expanded lines := fun hroot hleads => by
    induction hleads with
    | refl => exact (hafter _).1 (hlines.taken _ (List.mem_map_of_mem hroot))
    | tail _ hstep ih =>
        obtain ⟨e, he, hsrc, rfl⟩ := hstep
        exact (hafter _).1 (hlines.closed _ ih e he hsrc)
  refine ⟨lines, by rw [draw, hemit]; rfl, fun hshows => ?_, fun hwhole => ?_⟩
  · have hlen := hdrawn.length_eq.symm.trans hshows.drawn.length_eq
    have hcode := List.length_filter_le (fun e : Edge => e.src ∈ expanded lines) edges
    have hmissing := hkept (hlen.ge.trans hcode)
    refine ⟨hmissing, fun e he => ?_⟩
    have hin : e ∈ sourceEdges lower source := by rwa [sourceEdges, ← hsame hmissing]
    have hcount := hshows.named e hin e.src (.inl rfl)
    obtain ⟨x, hx, hreach⟩ := hlines.reach e.src (List.count_pos_iff.1 (by omega))
    obtain ⟨nid, hnid, rfl⟩ := List.mem_map.1 hx
    exact ⟨nid, hnid, hreach⟩
  · have hsource : edges = sourceEdges lower source := hsame hwhole.kept
    have hsrc : ∀ e ∈ edges, e.src ∈ expanded lines := fun e he => by
      obtain ⟨root, hroot, hleads⟩ := hwhole.reached e he
      exact hreached hroot hleads
    rw [← hsource]
    refine ⟨?_, fun l hl p rest hpath => ?_, fun e he n hn => ?_, fun l hl _ => ?_⟩
    · rwa [List.filter_eq_self.2 fun e he => decide_eq_true (hsrc e he)] at hdrawn
    · rcases hlines.placed l hl with hnil | ⟨q, hq, hseen, hcons⟩
      · cases hnil.symm.trans hpath
      · obtain ⟨hnid, hrest⟩ := List.cons.inj (hcons.symm.trans hpath)
        exact ⟨q, hq, hseen, hnid, hrest⟩
    · refine List.count_eq_one_of_mem hlines.distinct ?_
      rcases hn with rfl | rfl
      · exact hsrc e he
      · exact (hafter _).1 (hlines.closed _ (hsrc e he) e he rfl)
    · exact (hafter _).1 (hlines.named l hl)

end Source

def isWordAscii (c : Char) : Bool := isAlnum c || c == '_'

def lowerAscii (s : PyStr) : PyStr := s.map Char.toLower

def oneEdge : PyStr := "graph;A-->B".toList

theorem render_shows_oneEdge : ∃ lines, draw [(['A'], ['A']), (['B'], ['B'])] [⟨['A'], ['B'], []⟩] =
    some lines ∧ Shows (sourceEdges lowerAscii oneEdge) lines := by
  have hparse : parse isWordAscii lowerAscii oneEdge =
      some ([(['A'], ['A']), (['B'], ['B'])], [⟨['A'], ['B'], []⟩]) := by decide +kernel
  obtain ⟨lines, hdraw, hiff⟩ := render_shows_iff hparse
  refine ⟨lines, hdraw, hiff.2 ⟨by decide +kernel, ?_⟩⟩
  exact List.forall_mem_singleton.2 ⟨['A'], by decide +kernel, .refl⟩

def keywordId : PyStr := "graph;endpoint-->B;A-->B".toList

/-- The edge of a node whose id begins with a keyword is not shown. -/
theorem not_shows_keywordId : ∃ labels edges lines,
    parse isWordAscii lowerAscii keywordId = some (labels, edges) ∧ draw labels edges = some lines ∧
      ¬ Shows (sourceEdges lowerAscii keywordId) lines := by
  refine ⟨[(['A'], ['A']), (['B'], ['B'])], [⟨['A'], ['B'], []⟩], [⟨[], ['A'], [], false, []⟩,
    ⟨[['A']], ['B'], [], false, LAST⟩], by decide +kernel, by decide +kernel, fun h => ?_⟩
  exact absurd h.drawn.length_eq (by decide +kernel)

end Velune.Cli
