/-
Symbol ids (`repository/schemas.py`): the digest of a rewritten path, of a
dotted name made from it, and of the kind.

A path is rewritten by its slashes and by what is cut off in front
(`Leaves`), and a name is spelled behind its parent without a mark between
them, so two symbols that differ may have one text (`Merged`). Nothing else
is lost: apart from these the id tells the path, the parent, the name and
the kind (`identityKept_iff`).

The digest is a parameter. A symbol's other fields are not read.
-/
import Velune.Intelligence.GraphPatcher
import Velune.Lib.Utf8

namespace Velune.Repository

open Lib Intelligence

-- ===== source

/-- `s.split(sep, 1)[1]`, when `sep` is in `s`. -/
def behindFirst (sep : PyStr) : PyStr → Option PyStr
  | [] => none
  | c :: s =>
      if sep.isPrefixOf (c :: s) then some ((c :: s).drop sep.length) else behindFirst sep s

/-- `path.replace("\\", "/")`. -/
def slashes (path : PyStr) : PyStr := path.map fun c => if c = '\\' then '/' else c

/-- The path both functions go on with. A drive has a colon like any other. -/
def portable (path : PyStr) : PyStr :=
  match behindFirst "/velune/".toList (slashes path) with
  | some rest => "velune/".toList ++ rest
  | none =>
      match behindFirst ":".toList (slashes path) with
      | some rest => rest.dropWhile (· == '/')
      | none => slashes path

/-- `p.rsplit(".", 1)[0]`. -/
def withoutSuffix (p : PyStr) : PyStr :=
  match p.reverse.dropWhile (· != '.') with
  | [] => p
  | _ :: front => front.reverse

def dotted (p : PyStr) : PyStr :=
  Text.trim (· == '.') ((withoutSuffix p).map fun c => if c = '/' then '.' else c)

def inParent (name : PyStr) : Option PyStr → PyStr
  | none => name
  | some [] => name
  | some parent => parent ++ '.' :: name

def buildQualifiedName (filePath name : PyStr) (parent : Option PyStr) : PyStr :=
  dotted (portable filePath) ++ '.' :: inParent name parent

/-- The values of `RepositorySymbolKind`. -/
def kindValue : SymbolKind → PyStr
  | .class => "class".toList
  | .function => "function".toList
  | .method => "method".toList
  | .import => "import".toList
  | .unknown => "unknown".toList

def payload (filePath qualifiedName : PyStr) (kind : PyStr) : PyStr :=
  portable filePath ++ ':' :: (qualifiedName ++ ':' :: kind.map Char.toLower)

variable (sha : List UInt8 → PyStr)

def computeSymbolId (filePath qualifiedName kind : PyStr) : PyStr :=
  sha (Utf8.encode (payload filePath qualifiedName kind))

def populateIdentity (sym : RepositorySymbol) : RepositorySymbol :=
  let qualifiedName :=
    orElse sym.qualifiedName (buildQualifiedName sym.filePath sym.name sym.parent)
  { sym with
    qualifiedName := some qualifiedName
    symbolId := some (orElse sym.symbolId
      (computeSymbolId sha sym.filePath qualifiedName (kindValue sym.kind))) }

example : buildQualifiedName "C:\\w\\velune\\core\\x.py".toList "f".toList (some "K".toList)
    = "velune.core.x.K.f".toList := by decide +kernel

-- ===== property

def Unnamed (sym : RepositorySymbol) : Prop := sym.symbolId = none ∧ sym.qualifiedName = none

structure SameSymbol (a b : RepositorySymbol) : Prop where
  filePath : a.filePath = b.filePath
  parent : a.parent = b.parent
  name : a.name = b.name
  kind : a.kind = b.kind

/-- One id is one symbol, wherever its lines are, and one node of the graph
is of one file. -/
structure IdentityKept (a b : RepositorySymbol) : Prop where
  symbols : (populateIdentity sha a).symbolId = (populateIdentity sha b).symbolId → SameSymbol a b
  lines : ∀ first last, (populateIdentity sha { a with lineStart := first, lineEnd := last }).symbolId
    = (populateIdentity sha a).symbolId
  nodes : ∀ r s, (populateIdentity sha a).nid r = (populateIdentity sha b).nid s →
    a.filePath = b.filePath

/-- A text is what follows the first `sep` of another. -/
def Behind (sep s t : PyStr) : Prop :=
  ∃ front, s = front ++ (sep ++ t) ∧ ∀ front' t', s = front' ++ (sep ++ t') →
    front.length ≤ front'.length

/-- What a path leaves: what follows its first directory `velune`, that
included; else what follows its first colon, without slashes; else all. -/
inductive Leaves (path : PyStr) : PyStr → Prop
  | package {t : PyStr} : Behind "/velune/".toList (slashes path) t →
      Leaves path ("velune/".toList ++ t)
  | drive {t : PyStr} : ¬ "/velune/".toList <:+: slashes path →
      Behind ":".toList (slashes path) t → Leaves path (t.dropWhile (· == '/'))
  | plain : ¬ "/velune/".toList <:+: slashes path → ¬ ":".toList <:+: slashes path →
      Leaves path (slashes path)

/-- A name with colons spells the end of the other path and its name. -/
def Shifted (p s q t : PyStr) : Prop :=
  ∃ x, q = p ++ ':' :: x ∧ dotted p ++ '.' :: s = x ++ ':' :: (dotted q ++ '.' :: t)

def Merged (a b : RepositorySymbol) : Prop :=
  a.kind = b.kind ∧ ∃ p q, Leaves a.filePath p ∧ Leaves b.filePath q ∧
    ((p = q ∧ inParent a.name a.parent = inParent b.name b.parent) ∨
      Shifted p (inParent a.name a.parent) q (inParent b.name b.parent) ∨
      Shifted q (inParent b.name b.parent) p (inParent a.name a.parent))

-- ===== cutting

theorem behindFirst_cons (sep : PyStr) (c : Char) (s : PyStr) :
    behindFirst sep (c :: s)
      = if sep.isPrefixOf (c :: s) then some ((c :: s).drop sep.length) else behindFirst sep s :=
  rfl

theorem behindFirst_eq_some {sep : PyStr} (hsep : sep ≠ []) {t : PyStr} : ∀ {s : PyStr},
    behindFirst sep s = some t ↔ Behind sep s t := by
  intro s
  induction s with
  | nil =>
      refine iff_of_false (fun h => by cases h) fun ⟨front, heq, _⟩ => hsep ?_
      exact (List.append_eq_nil_iff.1 (List.append_eq_nil_iff.1 heq.symm).2).1
  | cons c s ih =>
      rw [behindFirst_cons]
      by_cases hpre : sep.isPrefixOf (c :: s) = true
      · rw [if_pos hpre]
        obtain ⟨u, hu⟩ := List.isPrefixOf_iff_prefix.1 hpre
        rw [← hu, List.drop_left, Option.some.injEq]
        constructor
        · intro h
          exact ⟨[], by rw [h, List.nil_append], fun _ _ _ => Nat.zero_le _⟩
        · intro ⟨front, heq, hleast⟩
          have hnil : front = [] := List.length_eq_zero_iff.1 (Nat.le_zero.1 (hleast [] u rfl))
          rw [hnil, List.nil_append] at heq
          exact List.append_cancel_left heq
      · rw [if_neg hpre, ih]
        constructor
        · intro ⟨front, heq, hleast⟩
          refine ⟨c :: front, by rw [heq, List.cons_append], fun front' t' h => ?_⟩
          cases front' with
          | nil => exact absurd (List.isPrefixOf_iff_prefix.2 ⟨t', h.symm⟩) hpre
          | cons d front' => exact Nat.succ_le_succ (hleast front' t' (List.cons.inj h).2)
        · intro ⟨front, heq, hleast⟩
          cases front with
          | nil => exact absurd (List.isPrefixOf_iff_prefix.2 ⟨t, heq.symm⟩) hpre
          | cons d front =>
              obtain ⟨rfl, hback⟩ := List.cons.inj heq
              refine ⟨front, hback, fun front' t' h => ?_⟩
              exact Nat.le_of_succ_le_succ (hleast (c :: front') t' (by rw [h, List.cons_append]))

theorem behindFirst_eq_none {sep : PyStr} (hsep : sep ≠ []) : ∀ {s : PyStr},
    behindFirst sep s = none ↔ ¬ sep <:+: s := by
  intro s
  induction s with
  | nil => exact iff_of_true rfl fun h => hsep (List.infix_nil.1 h)
  | cons c s ih =>
      rw [behindFirst_cons, List.infix_cons_iff, ← List.isPrefixOf_iff_prefix]
      by_cases hpre : sep.isPrefixOf (c :: s) = true
      · rw [if_pos hpre]
        exact iff_of_false (fun h => by cases h) fun h => h (.inl hpre)
      · rw [if_neg hpre, ih]
        exact (not_congr (or_iff_right hpre)).symm

theorem package_ne_nil : "/velune/".toList ≠ [] := by decide

theorem colon_ne_nil : ":".toList ≠ [] := by decide

theorem leaves_iff {path p : PyStr} : Leaves path p ↔ portable path = p := by
  constructor
  · intro h
    cases h with
    | package h => rw [portable, (behindFirst_eq_some package_ne_nil).2 h]
    | drive hno h =>
        rw [portable, (behindFirst_eq_none package_ne_nil).2 hno]
        simp only [(behindFirst_eq_some colon_ne_nil).2 h]
    | plain hno h =>
        rw [portable, (behindFirst_eq_none package_ne_nil).2 hno]
        simp only [(behindFirst_eq_none colon_ne_nil).2 h]
  · intro h
    rw [← h, portable]
    split
    next rest hrest => exact .package ((behindFirst_eq_some package_ne_nil).1 hrest)
    next hno =>
      have hno := (behindFirst_eq_none package_ne_nil).1 hno
      split
      next rest hrest => exact .drive hno ((behindFirst_eq_some colon_ne_nil).1 hrest)
      next hcolon => exact .plain hno ((behindFirst_eq_none colon_ne_nil).1 hcolon)

-- ===== texts

/-- Two texts with a mark are equal when they are so around it, or when one
goes on behind it with the other's mark. -/
theorem append_mark_eq_iff {c : Char} {x k y l : PyStr} :
    x ++ c :: k = y ++ c :: l ↔ (x = y ∧ k = l) ∨
      (∃ z, y = x ++ c :: z ∧ k = z ++ c :: l) ∨ ∃ z, x = y ++ c :: z ∧ l = z ++ c :: k := by
  constructor
  · intro h
    rcases List.append_eq_append_iff.1 h with ⟨z, hy, hk⟩ | ⟨z, hx, hl⟩
    · cases z with
      | nil => exact .inl ⟨by rw [hy, List.append_nil], (List.cons.inj hk).2⟩
      | cons d z =>
          obtain ⟨rfl, hback⟩ := List.cons.inj hk
          exact .inr (.inl ⟨z, hy, hback⟩)
    · cases z with
      | nil => exact .inl ⟨by rw [hx, List.append_nil], (List.cons.inj hl).2.symm⟩
      | cons d z =>
          obtain ⟨rfl, hback⟩ := List.cons.inj hl
          exact .inr (.inr ⟨z, hx, hback⟩)
  · rintro (⟨rfl, rfl⟩ | ⟨z, rfl, rfl⟩ | ⟨z, rfl, rfl⟩)
    · rfl
    · rw [List.append_assoc, List.cons_append]
    · rw [List.append_assoc, List.cons_append]

theorem append_last_mark {c : Char} {x k y l : PyStr} (hk : c ∉ k) (hl : c ∉ l) :
    x ++ c :: k = y ++ c :: l ↔ x = y ∧ k = l := by
  rw [append_mark_eq_iff]
  constructor
  · rintro (h | ⟨z, -, rfl⟩ | ⟨z, -, rfl⟩)
    · exact h
    · exact absurd (List.mem_append_right z List.mem_cons_self) hk
    · exact absurd (List.mem_append_right z List.mem_cons_self) hl
  · exact .inl

theorem colon_not_mem_kind (k : SymbolKind) : ':' ∉ (kindValue k).map Char.toLower := by
  cases k <;> decide

theorem kindValue_injective {k l : SymbolKind}
    (h : (kindValue k).map Char.toLower = (kindValue l).map Char.toLower) : k = l := by
  cases k <;> cases l <;> first | rfl | exact absurd h (by decide)

theorem payload_eq_iff (a b : RepositorySymbol) :
    payload a.filePath (buildQualifiedName a.filePath a.name a.parent) (kindValue a.kind)
        = payload b.filePath (buildQualifiedName b.filePath b.name b.parent) (kindValue b.kind)
      ↔ Merged a b := by
  have hkinds : (kindValue a.kind).map Char.toLower = (kindValue b.kind).map Char.toLower
      ↔ a.kind = b.kind := ⟨kindValue_injective, fun h => by rw [h]⟩
  have htext : ∀ (p n k : PyStr), p ++ ':' :: (n ++ ':' :: k) = (p ++ ':' :: n) ++ ':' :: k :=
    fun p n k => by rw [List.append_assoc, List.cons_append]
  rw [payload, payload, htext, htext, buildQualifiedName, buildQualifiedName,
    append_last_mark (colon_not_mem_kind _) (colon_not_mem_kind _), append_mark_eq_iff, hkinds,
    and_comm]
  refine and_congr_right fun _ => ?_
  constructor
  · intro h
    refine ⟨_, _, leaves_iff.2 rfl, leaves_iff.2 rfl, h.imp_left fun ⟨hp, htail⟩ => ⟨hp, ?_⟩⟩
    rw [hp] at htail
    exact (List.cons.inj (List.append_cancel_left htail)).2
  · rintro ⟨p, q, hp, hq, h⟩
    obtain rfl := leaves_iff.1 hp
    obtain rfl := leaves_iff.1 hq
    exact h.imp_left fun ⟨hp, htail⟩ => ⟨hp, by rw [hp, htail]⟩

-- ===== ids

variable {sha}

theorem symbolId_of_unnamed {sym : RepositorySymbol} (h : Unnamed sym) :
    (populateIdentity sha sym).symbolId = some (sha (Utf8.encode (payload sym.filePath
      (buildQualifiedName sym.filePath sym.name sym.parent) (kindValue sym.kind)))) := by
  rw [populateIdentity, h.1, h.2]
  rfl

theorem nid_of_unnamed (hne : ∀ bytes, sha bytes ≠ []) {sym : RepositorySymbol} (h : Unnamed sym)
    (relPath : PyStr) :
    some ((populateIdentity sha sym).nid relPath) = (populateIdentity sha sym).symbolId := by
  rw [RepositorySymbol.nid, symbolId_of_unnamed h]
  cases hid : sha (Utf8.encode (payload sym.filePath
      (buildQualifiedName sym.filePath sym.name sym.parent) (kindValue sym.kind))) with
  | nil => exact absurd hid (hne _)
  | cons c s => rfl

theorem encode_injective : Function.Injective Utf8.encode := fun s t h => by
  rw [← Utf8.decodeIgnore_encode s, h, Utf8.decodeIgnore_encode]

theorem symbolId_eq_iff (hsha : Function.Injective sha) {a b : RepositorySymbol} (ha : Unnamed a)
    (hb : Unnamed b) :
    (populateIdentity sha a).symbolId = (populateIdentity sha b).symbolId ↔ Merged a b := by
  rw [symbolId_of_unnamed ha, symbolId_of_unnamed hb, Option.some.injEq, hsha.eq_iff,
    encode_injective.eq_iff, payload_eq_iff]

/-- Two symbols are told apart exactly when they do not come to one text. -/
theorem identityKept_iff (hsha : Function.Injective sha) (hne : ∀ bytes, sha bytes ≠ [])
    {a b : RepositorySymbol} (ha : Unnamed a) (hb : Unnamed b) :
    IdentityKept sha a b ↔ (¬ SameSymbol a b → ¬ Merged a b) := by
  rw [← symbolId_eq_iff hsha ha hb, not_imp_not]
  constructor
  · exact fun h => h.symbols
  · intro h
    refine ⟨h, fun first last => ?_, fun r s heq => (h ?_).filePath⟩
    · have hmoved : Unnamed { a with lineStart := first, lineEnd := last } := ha
      rw [symbolId_of_unnamed ha, symbolId_of_unnamed hmoved]
    · rw [← nid_of_unnamed hne ha r, ← nid_of_unnamed hne hb s, heq]

def plainDigest (bytes : List UInt8) : PyStr := '#' :: bytes.map Char.ofUInt8

theorem plainDigest_injective : Function.Injective plainDigest := by
  intro x y h
  refine List.map_injective_iff.2 (fun b c hbc => ?_) (List.cons.inj h).2
  have hval : b.toUInt32 = c.toUInt32 := congrArg Char.val hbc
  have hnat : b.toUInt32.toNat = c.toUInt32.toNat := congrArg UInt32.toNat hval
  rw [UInt8.toNat_toUInt32, UInt8.toNat_toUInt32] at hnat
  exact UInt8.toNat_inj.1 hnat

/-- A function `f`, as a parser finds it in a file. -/
def functionIn (filePath : String) : RepositorySymbol :=
  ⟨"f".toList, .function, filePath.toList, 1, 2, none, none, none, false, false, none⟩

theorem identityKept_plain :
    IdentityKept plainDigest (functionIn "a.py") (functionIn "b.py") := by
  refine (identityKept_iff plainDigest_injective (fun _ h => by cases h) ⟨rfl, rfl⟩
    ⟨rfl, rfl⟩).2 fun _ hmerged => ?_
  exact absurd ((payload_eq_iff _ _).2 hmerged) (by decide +kernel)

/-- Two packages of one name in a workspace. -/
theorem not_identityKept_package :
    ¬ IdentityKept plainDigest (functionIn "/w/a/velune/x.py") (functionIn "/w/b/velune/x.py") := by
  intro h
  have hpayload : payload "/w/a/velune/x.py".toList
      (buildQualifiedName "/w/a/velune/x.py".toList "f".toList none) "function".toList
        = payload "/w/b/velune/x.py".toList
          (buildQualifiedName "/w/b/velune/x.py".toList "f".toList none) "function".toList := by
    decide +kernel
  have hids := congrArg (fun text => some (plainDigest (Utf8.encode text))) hpayload
  exact absurd (h.symbols hids).filePath (by decide)

end Velune.Repository
