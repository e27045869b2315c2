/-
Symbols from a syntax tree (`_parse_tree_sitter`, `repository/parser.py`).
The text is parsed as UTF-8, so the offsets of a node count bytes; the walk
cuts the text at them by characters.

A name, the name of an import and a base class are taken from the text of
their own node exactly when, wherever a node is found to tell something, the
characters between its offsets are its text (`namesKept_iff`). In a text of
one byte for each character they are (`namesKept_ascii`).

Which characters make a word is a parameter. The edges repeat the imports;
decorators and parameter types, which no name depends on, are left out.
-/
import Velune.Intelligence.GraphPatcher
import Velune.Lib.Regex
import Velune.Lib.Utf8

namespace Velune.Repository

open Lib Lib.Regex Lib.Text Intelligence

-- ===== trees

structure Span where
  startByte : Nat
  endByte : Nat

structure NodeInfo where
  type : String
  span : Span
  /-- The lines of its points, from zero. -/
  startLine : Nat
  endLine : Nat
  /-- `child_by_field_name`. -/
  field : String → Option Span

inductive Node
  | mk (info : NodeInfo) (children : List Node)

def nodeText (code : PyStr) (place : Span) : PyStr :=
  Utf8.decodeIgnore (((Utf8.encode code).drop place.startByte).take (place.endByte - place.startByte))

/-- `code[node.start_byte : node.end_byte]`. -/
def slice (code : PyStr) (place : Span) : PyStr :=
  (code.drop place.startByte).take (place.endByte - place.startByte)

-- ===== languages

inductive Grammar
  | python
  | javascript
  | typescript
  | go
  | rust
  deriving DecidableEq

section Walk

variable (isWord : Char → Bool)

def spaces : Re := .plus isSpace

def isQuote (c : Char) : Bool := c == '\'' || c == '"'

/-- `['"]([^'"]+)['"]`. -/
def quoted : Re := .cat [.cls isQuote, .group 1 (.plus (!isQuote ·)), .cls isQuote]

/-- `match.group(1)` of `re.search`. -/
def searched (r : Re) (text : PyStr) : Option PyStr :=
  (find isWord r none text).map (·.groups.get 1)

/-- `(?:import|from)\s+([\w.]+)`. -/
def pythonImports (text : PyStr) : List PyStr :=
  (finditer isWord (.cat [.oneOf [.text "import".toList, .text "from".toList], spaces,
    .group 1 (.plus fun c => isWord c || c == '.')]) text).map (·.groups.get 1)

/-- `use\s+([^;]+);`. -/
def rustUses (text : PyStr) : Option PyStr :=
  (searched isWord (.cat [.text "use".toList, spaces, .group 1 (.plus (· != ';')), .text [';']])
    text).map strip

/-- `type\s+(\w+)\s+(?:struct|interface)`. -/
def goType (text : PyStr) : Option PyStr :=
  searched isWord (.cat [.text "type".toList, spaces, .group 1 (.plus isWord), spaces,
    .oneOf [.text "struct".toList, .text "interface".toList]]) text

def basesOf (text : PyStr) : List PyStr :=
  (((trim (fun c => c == '(' || c == ')') text).splitOn ',').map strip).filter (· != [])

inductive Role
  /-- Its name field is the name of a symbol. -/
  | named (kind : Option PyStr → SymbolKind)
  /-- Its text has the name of a class. -/
  | typed (name : PyStr → Option PyStr)
  /-- Its text has names of imports. -/
  | imports (targets : PyStr → List PyStr)
  | other

def inClass (parent : Option PyStr) : SymbolKind :=
  if parent.getD [] = [] then .function else .method

def role : Grammar → String → Role
  | .python, "class_definition" => .named fun _ => .class
  | .python, "function_definition" => .named inClass
  | .python, "import_statement" | .python, "import_from_statement" => .imports (pythonImports isWord)
  | .javascript, "class_declaration" | .typescript, "class_declaration" => .named fun _ => .class
  | .javascript, "function_declaration" | .typescript, "function_declaration" => .named inClass
  | .javascript, "method_definition" | .typescript, "method_definition" => .named inClass
  | .javascript, "import_statement" | .typescript, "import_statement" =>
      .imports fun text => (searched isWord (.cat [.text "from".toList, spaces, quoted]) text).toList
  | .go, "type_declaration" => .typed (goType isWord)
  | .go, "function_declaration" => .named fun _ => .function
  | .go, "method_declaration" => .named fun _ => .method
  | .go, "import_spec" => .imports fun text => (searched isWord quoted text).toList
  | .rust, "struct_item" | .rust, "impl_item" => .named fun _ => .class
  | .rust, "function_item" => .named inClass
  | .rust, "use_declaration" => .imports fun text => (rustUses isWord text).toList
  | _, _ => .other

-- ===== the walk

/-- A node whose text is read, and what is looked for in it. -/
structure Reading where
  place : Span
  finds : PyStr → List PyStr

structure TreeSymbol where
  name : PyStr
  kind : SymbolKind
  lineStart : Nat
  lineEnd : Nat
  parent : Option PyStr := none
  /-- `metadata["bases"]`, when there are any. -/
  bases : List PyStr := []
  /-- What the name and the bases are from. -/
  nameFrom : Reading
  basesFrom : Option Reading := none

variable (lang : Grammar) (code : PyStr)

def whole (text : PyStr) : List PyStr := if text = [] then [] else [text]

def nameReading (info : NodeInfo) : Option Reading :=
  (info.field "name").map fun place => ⟨place, whole⟩

def basesReading (info : NodeInfo) : Option Reading :=
  if lang = .python ∧ info.type = "class_definition" then
    (info.field "superclasses").map fun place => ⟨place, basesOf⟩
  else none

def Reading.found (reading : Reading) : List PyStr := reading.finds (slice code reading.place)

def tell (info : NodeInfo) (kind : SymbolKind) (parent : Option PyStr) (bases : Option Reading)
    (reading : Reading) : List TreeSymbol :=
  (reading.found code).map fun name =>
    { name, kind, parent
      lineStart := info.startLine + 1
      lineEnd := info.endLine + 1
      bases := (bases.map (·.found code)).getD []
      nameFrom := reading
      basesFrom := bases }

def visit (parent : Option PyStr) (info : NodeInfo) : List TreeSymbol × Option PyStr :=
  match role isWord lang info.type with
  | .named kind =>
      match nameReading info with
      | none => ([], parent)
      | some reading =>
          (tell code info (kind parent) parent (basesReading lang info) reading,
            if kind parent = .class then some (slice code reading.place) else parent)
  | .typed name =>
      (tell code info .class parent none ⟨info.span, fun text => (name text).toList.flatMap whole⟩,
        (name (slice code info.span)).or parent)
  | .imports targets => (tell code info .import none none ⟨info.span, targets⟩, parent)
  | .other => ([], parent)

mutual

def walk (parent : Option PyStr) : Node → List TreeSymbol
  | .mk info children =>
      (visit isWord lang code parent info).1
        ++ walkAll (visit isWord lang code parent info).2 children

def walkAll (parent : Option PyStr) : List Node → List TreeSymbol
  | [] => []
  | node :: nodes => walk parent node ++ walkAll parent nodes

end

-- ===== property

mutual

def Node.infos : Node → List NodeInfo
  | .mk info children => info :: infosAll children

def infosAll : List Node → List NodeInfo
  | [] => []
  | node :: nodes => node.infos ++ infosAll nodes

end

/-- What is read is the node's text, and all of this is found in it. -/
def Reading.Own (r : Reading) (words : List PyStr) : Prop :=
  slice code r.place = nodeText code r.place ∧ ∀ w ∈ words, w ∈ r.found code

def TreeSymbol.Right (x : TreeSymbol) : Prop :=
  x.nameFrom.Own code [x.name] ∧ (x.bases ≠ [] → ∃ r ∈ x.basesFrom, r.Own code x.bases)

def NamesKept (root : Node) : Prop := ∀ x ∈ walk isWord lang code none root, x.Right code

/-- The characters in which something is found are the text of the node. -/
def Reading.Clear (r : Reading) : Prop :=
  r.found code ≠ [] → slice code r.place = nodeText code r.place

/-- What is read of a node. The bases of a class without a name are not. -/
def readings (info : NodeInfo) : List Reading :=
  match role isWord lang info.type with
  | .named _ =>
      match nameReading info with
      | none => []
      | some reading =>
          if reading.found code = [] then [] else reading :: (basesReading lang info).toList
  | .typed name => [⟨info.span, fun text => (name text).toList.flatMap whole⟩]
  | .imports targets => [⟨info.span, targets⟩]
  | .other => []

-- ===== proofs

variable {isWord lang code}

theorem tell_right {info : NodeInfo} {kind : SymbolKind} {parent : Option PyStr}
    {bases : Option Reading} {r : Reading} : (∀ x ∈ tell code info kind parent bases r, x.Right code) ↔
      (r.found code ≠ [] → r.Clear code ∧ ∀ b ∈ bases, b.Clear code) := by
  have hbases : ∀ found, found = (bases.map (·.found code)).getD [] →
      ((found ≠ [] → ∃ b ∈ bases, b.Own code found) ↔ ∀ b ∈ bases, b.Clear code) := by
    intro found hfound
    subst hfound
    cases bases with
    | none => simp
    | some b => simp [Reading.Own, Reading.Clear]
  unfold tell
  rw [List.forall_mem_map]
  constructor
  · intro h hfinds
    obtain ⟨w, hw⟩ := List.exists_mem_of_ne_nil _ hfinds
    exact ⟨fun _ => (h w hw).1.1, (hbases _ rfl).1 (h w hw).2⟩
  · intro h w hw
    obtain ⟨hclear, hrest⟩ := h (List.ne_nil_of_mem hw)
    refine ⟨⟨hclear (List.ne_nil_of_mem hw), ?_⟩, (hbases _ rfl).2 hrest⟩
    exact fun w' hw' => List.mem_singleton.1 hw' ▸ hw

theorem visit_right {parent : Option PyStr} {info : NodeInfo} :
    (∀ x ∈ (visit isWord lang code parent info).1, x.Right code) ↔
      ∀ r ∈ readings isWord lang code info, r.Clear code := by
  have hsingle : ∀ {r : Reading} {kind : SymbolKind} {parent : Option PyStr},
      (∀ x ∈ tell code info kind parent none r, x.Right code) ↔ ∀ r' ∈ [r], r'.Clear code := by
    intro r kind parent
    rw [tell_right, List.forall_mem_singleton]
    exact ⟨fun h hfinds => (h hfinds).1 hfinds, fun h _ => ⟨h, fun _ hb => by cases hb⟩⟩
  unfold visit readings
  cases role isWord lang info.type with
  | named kind =>
      dsimp only
      cases nameReading info with
      | none => exact iff_of_true (fun x hx => by cases hx) fun r hr => by cases hr
      | some reading =>
          dsimp only
          rw [tell_right]
          by_cases hfinds : reading.found code = []
          · rw [if_pos hfinds]
            exact iff_of_true (fun hne => absurd hfinds hne) fun r hr => by cases hr
          · rw [if_neg hfinds, List.forall_mem_cons]
            simp [hfinds]
  | typed name => exact hsingle
  | imports targets => exact hsingle
  | other => exact iff_of_true (fun x hx => by cases hx) fun r hr => by cases hr

mutual

theorem walk_right : ∀ (node : Node) {parent : Option PyStr},
    (∀ x ∈ walk isWord lang code parent node, x.Right code) ↔
      ∀ info ∈ node.infos, ∀ r ∈ readings isWord lang code info, r.Clear code
  | .mk info children, parent => by
      rw [walk, Node.infos, List.forall_mem_append, List.forall_mem_cons, visit_right,
        walkAll_right children]

theorem walkAll_right : ∀ (nodes : List Node) {parent : Option PyStr},
    (∀ x ∈ walkAll isWord lang code parent nodes, x.Right code) ↔
      ∀ info ∈ infosAll nodes, ∀ r ∈ readings isWord lang code info, r.Clear code
  | [], parent => by simp [walkAll, infosAll]
  | node :: nodes, parent => by
      rw [walkAll, infosAll, List.forall_mem_append, List.forall_mem_append, walk_right node,
        walkAll_right nodes]

end

theorem namesKept_ascii (h : ∀ c ∈ code, c.utf8Size = 1) (root : Node) :
    NamesKept isWord lang code root := by
  refine (walk_right root).2 fun info _ r _ _ => ?_
  have hmap : ∀ w : PyStr, (∀ c ∈ w, c.utf8Size = 1) →
      Utf8.encode w = w.map fun c => c.val.toUInt8 := by
    intro w hw
    rw [List.map_eq_flatMap]
    exact List.flatMap_congr fun c hc => String.utf8EncodeChar_eq_singleton (hw c hc)
  have hcut : ∀ c ∈ slice code r.place, c.utf8Size = 1 := fun c hc =>
    h c (List.mem_of_mem_drop (List.mem_of_mem_take hc))
  unfold nodeText
  rw [hmap code h, ← List.map_drop, ← List.map_take]
  exact ((congrArg Utf8.decodeIgnore (hmap _ hcut)).symm.trans (Utf8.decodeIgnore_encode _)).symm

end Walk

def accented : PyStr := "# é\nclass A: pass".toList

def accentedTree : Node :=
  .mk ⟨"module", ⟨5, 18⟩, 0, 1, fun _ => none⟩
    [.mk ⟨"class_definition", ⟨5, 18⟩, 1, 1, fun name =>
      if name = "name" then some ⟨11, 12⟩ else none⟩ []]

end Velune.Repository
