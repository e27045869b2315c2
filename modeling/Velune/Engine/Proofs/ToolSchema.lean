/-
Schema enforcement against the meaning of the keywords.

`Fits` is that meaning, keyword by keyword, over a rule for membership
in an `enum`: JSON's own (`jsonMember`) or the one the checker follows
(`pyMember`: the language's equality, and no look at all for a list).

1. On a supported schema whose keywords have the values their meaning
   asks for, the checker decides `Fits pyMember` (`decides_value`), one
   lemma for each check, composed along the source's sequence.
2. The two rules take the same values exactly when a schema's `enum`
   says so (`EnumExact`).
3. The problem finder raises exactly where it hashes a list or an
   object, and accepts exactly the supported schemas.
-/
import Velune.Engine.ToolSchema

namespace Velune.Engine.ToolSchema

open Lib

-- ===== meaning

/-- The bound under the keyword, where there is one, is a number and no
more than `x`. -/
def AtLeast (spec : Json) (keyword : String) (x : Rat) : Prop :=
  ∀ b, spec.get? keyword = some b → ∃ q, b.number? = some q ∧ q ≤ x

def AtMost (spec : Json) (keyword : String) (x : Rat) : Prop :=
  ∀ b, spec.get? keyword = some b → ∃ q, b.number? = some q ∧ x ≤ q

/-- The values of a type. A whole number is one written so: 1.0 is a
number and no integer. -/
def TypeAdmits (kind : PyStr) : Json → Prop
  | .str _ => kind = "string".toList
  | .int _ => kind = "integer".toList ∨ kind = "number".toList
  | .float _ => kind = "number".toList
  | .bool _ => kind = "boolean".toList
  | .arr _ => kind = "array".toList
  | .null | .obj _ => False

/-- A value satisfies a property's schema: every keyword that speaks of
values of its kind holds of it. -/
inductive Fits (member : Json → List Json → Prop) : Json → Json → Prop
  | intro {spec v : Json}
      (typed : ∀ kind, spec.get? "type" = some (.str kind) → TypeAdmits kind v)
      (ranged : ∀ x, v.number? = some x → AtLeast spec "minimum" x ∧ AtMost spec "maximum" x)
      (long : ∀ s, v = .str s →
        AtLeast spec "minLength" s.length ∧ AtMost spec "maxLength" s.length)
      (sized : ∀ xs, v = .arr xs →
        AtLeast spec "minItems" xs.length ∧ AtMost spec "maxItems" xs.length)
      (listed : ∀ allowed, spec.get? "enum" = some allowed → ∃ vs, allowed = .arr vs ∧ member v vs)
      (items : ∀ xs inner, v = .arr xs → spec.get? "items" = some inner →
        ∀ x ∈ xs, Fits member inner x) : Fits member spec v

/-- Membership in an `enum`, with JSON's equality. -/
def jsonMember (v : Json) (vs : List Json) : Prop := ∃ w ∈ vs, Json.same v w = true

/-- Membership as the checker looks for it: the language's equality for
a scalar; a list is not looked for. -/
def pyMember (v : Json) (vs : List Json) : Prop :=
  (∃ xs, v = .arr xs) ∨ ∃ w ∈ vs, Json.pyEq v w = true

/-- The arguments satisfy the schema: each is a declared one that fits
its schema, and each required one is there. -/
def Satisfies (member : Json → List Json → Prop) (schema : Json)
    (arguments : List (PyStr × Json)) : Prop :=
  (∀ a ∈ arguments, ∃ spec, Json.lookup (propertiesOf schema) a.1 = some spec
      ∧ Fits member spec a.2)
    ∧ ∀ name, Json.str name ∈ requiredOf schema → (Json.lookup arguments name).isSome = true

-- ===== supported

def typeIs (spec : Json) (kind : String) : Prop := spec.get? "type" = some (.str kind.toList)

def Known (spec : Json) : Prop :=
  ∃ fields, spec = .obj fields ∧ firstUnknown PROPERTY_KEYWORDS fields = none

def ScalarTyped (spec : Json) : Prop := Known spec ∧ ∃ scalar ∈ SCALAR_TYPES, typeIs spec scalar

/-- The schema of a list, with its `items`. -/
def ArrayOf (spec items : Json) : Prop :=
  Known spec ∧ typeIs spec "array" ∧ spec.get? "items" = some items

/-- The property schemas the source documents: a scalar, or a list of
scalars. -/
def Supported (spec : Json) : Prop :=
  ScalarTyped spec ∨ ∃ items, ArrayOf spec items ∧ ScalarTyped items

def Unnamed (spec : Json) : Prop :=
  Known spec ∧ ∃ kind, spec.get? "type" = some kind ∧ kind.hashable = false

/-- The property schemas that a list or an object as a type makes
unreadable. -/
def Unreadable (spec : Json) : Prop :=
  Unnamed spec ∨ ∃ items, ArrayOf spec items ∧ Unnamed items

def NumberAt (spec : Json) (keyword : String) : Prop :=
  ∀ b, spec.get? keyword = some b → ∃ q, b.number? = some q

/-- The value under a keyword, where there is one, counts things. -/
def CountAt (spec : Json) (keyword : String) : Prop :=
  ∀ b, spec.get? keyword = some b → ∃ n, b.count? = some n

/-- The keywords that speak of values of the schema's type have values
their meaning is defined for. -/
structure Legible (spec : Json) : Prop where
  numbers : typeIs spec "integer" ∨ typeIs spec "number" →
    NumberAt spec "minimum" ∧ NumberAt spec "maximum"
  lengths : typeIs spec "string" → CountAt spec "minLength" ∧ CountAt spec "maxLength"
  sizes : typeIs spec "array" → CountAt spec "minItems" ∧ CountAt spec "maxItems"
  enum : ∀ allowed, spec.get? "enum" = some allowed → ∃ vs, allowed = .arr vs

def WellFormed (spec : Json) : Prop :=
  Legible spec ∧ ∀ items, typeIs spec "array" → spec.get? "items" = some items → Legible items

variable {spec : Json} {kind : String} {schema : Json}

theorem CountAt.number {keyword : String} (h : CountAt spec keyword) : NumberAt spec keyword := by
  intro b hb
  obtain ⟨n, hn⟩ := h b hb
  exact ⟨n, Json.count?_number? hn⟩

-- ===== the decision

/-- A check decides a property: it returns when the property holds, and
raises an `ArgumentError` when it does not. -/
inductive Decides (r : Except Raised Unit) (P : Prop) : Prop
  | returns (h : r = .ok ()) (holds : P)
  | refuses (rejection : Rejection) (h : r = .error (.argumentError rejection)) (fails : ¬P)

namespace Decides

variable {r s : Except Raised Unit} {P Q : Prop}

theorem congr (h : Decides r P) (hpq : P ↔ Q) : Decides r Q := by
  cases h with
  | returns hr hp => exact returns hr (hpq.1 hp)
  | refuses e hr hp => exact refuses e hr fun hq => hp (hpq.2 hq)

theorem bind (h : Decides r P) (hs : P → Decides s Q) : Decides (do r; s) (P ∧ Q) := by
  cases h with
  | returns hr hp =>
      subst hr
      cases hs hp with
      | returns hs hq => exact returns hs ⟨hp, hq⟩
      | refuses e hs hq => exact refuses e hs fun h => hq h.2
  | refuses e hr hp =>
      subst hr
      exact refuses e rfl fun h => hp h.1

theorem ok (h : P) : Decides (.ok ()) P := returns rfl h

theorem throw {rejection : Rejection} (h : ¬P) :
    Decides (.error (.argumentError rejection)) P := refuses rejection rfl h

theorem iff (h : Decides r P) : r = .ok () ↔ P := by
  cases h with
  | returns hr hp => exact ⟨fun _ => hp, fun _ => hr⟩
  | refuses e hr hp =>
      constructor
      · intro hok
        rw [hr] at hok
        cases hok
      · intro h
        exact absurd h hp

theorem total (h : Decides r P) : r = .ok () ∨ ∃ e, r = .error (.argumentError e) := by
  cases h with
  | returns hr _ => exact Or.inl hr
  | refuses e hr _ => exact Or.inr ⟨e, hr⟩

end Decides

-- ===== checks

/-- A comparison with the bound under a keyword, where a bound is a
number: it raises when the bound is `bad`. -/
theorem decides_limit {keyword : String} (hb : NumberAt spec keyword)
    (bad : Rat → Prop) [DecidablePred bad] (rejection : Json → Rejection) :
    Decides
      (match spec.get? keyword with
        | none => .ok ()
        | some b => do
            if bad (← comparable b) then throw (.argumentError (rejection b)))
      (∀ b, spec.get? keyword = some b → ∃ q, b.number? = some q ∧ ¬bad q) := by
  cases hget : spec.get? keyword with
  | none => exact Decides.ok fun b h => by cases h
  | some b =>
      obtain ⟨q, hq⟩ := hb b hget
      have hcmp : comparable b = .ok q := by
        unfold comparable
        rw [Json.pyNumber?_of_number? hq]
      have hiff : (∀ c, some b = some c → ∃ p, c.number? = some p ∧ ¬bad p) ↔ ¬bad q := by
        constructor
        · intro h
          obtain ⟨p, hp, hfine⟩ := h b rfl
          rw [hq] at hp
          cases hp
          exact hfine
        · intro hfine c hc
          cases hc
          exact ⟨q, hq, hfine⟩
      refine Decides.congr ?_ hiff.symm
      show Decides (do if bad (← comparable b) then .error (.argumentError (rejection b))) _
      rw [hcmp]
      by_cases hbad : bad q
      · exact Decides.refuses (rejection b) (if_pos hbad) (not_not_intro hbad)
      · exact Decides.returns (if_neg hbad) hbad

theorem decides_atLeast {low : String} (hb : NumberAt spec low) (x : Rat)
    (rejection : Json → Rejection) :
    Decides (atLeast spec low x rejection) (AtLeast spec low x) := by
  refine (decides_limit hb (fun q => x < q) rejection).congr ?_
  simp only [AtLeast, Rat.not_lt]

theorem decides_atMost {high : String} (hb : NumberAt spec high) (x : Rat)
    (rejection : Json → Rejection) :
    Decides (atMost spec high x rejection) (AtMost spec high x) := by
  refine (decides_limit hb (fun q => q < x) rejection).congr ?_
  simp only [AtMost, Rat.not_lt]

theorem decides_bound {low high : String} (hlow : NumberAt spec low)
    (hhigh : NumberAt spec high) (label : PyStr) (size : Nat) (unit : String) :
    Decides (bound label spec size low high unit)
      (AtLeast spec low size ∧ AtMost spec high size) :=
  Decides.bind (decides_atLeast hlow _ _) fun _ => decides_atMost hhigh _ _

/-- The `enum` check, where the keyword holds a list. -/
theorem decides_enum (hlist : ∀ allowed, spec.get? "enum" = some allowed → ∃ vs, allowed = .arr vs)
    (label : PyStr) (v : Json) :
    Decides (checkEnum label spec v)
      (∀ allowed, spec.get? "enum" = some allowed →
        ∃ vs, allowed = .arr vs ∧ ∃ w ∈ vs, Json.pyEq v w = true) := by
  unfold checkEnum
  cases hget : spec.get? "enum" with
  | none => exact Decides.ok fun allowed h => by cases h
  | some allowed =>
      obtain ⟨vs, rfl⟩ := hlist allowed hget
      have hiff : (∀ allowed, some (Json.arr vs) = some allowed →
          ∃ us, allowed = .arr us ∧ ∃ w ∈ us, Json.pyEq v w = true)
          ↔ vs.any (fun w => Json.pyEq v w) = true := by
        rw [List.any_eq_true]
        constructor
        · intro h
          obtain ⟨us, hus, hw⟩ := h _ rfl
          cases hus
          exact hw
        · intro h allowed hallowed
          cases hallowed
          exact ⟨vs, rfl, h⟩
      refine Decides.congr ?_ hiff.symm
      cases hany : vs.any (fun w => Json.pyEq v w) with
      | true => exact Decides.returns (by simp [isIn, hany, pure, Except.pure, bind, Except.bind]) rfl
      | false =>
          exact Decides.refuses (.notAllowed label)
            (by simp [isIn, hany, bind, Except.bind, throw, throwThe, MonadExceptOf.throw])
            Bool.false_ne_true

-- ===== values

theorem typeIs_inj {a b : String} (ha : typeIs spec a) (hb : typeIs spec b) : a = b := by
  have hab : a.toList = b.toList := by
    have h := ha.symm.trans hb
    simpa using h
  exact String.toList_inj.1 hab

theorem typeOf_eq (h : typeIs spec kind) : typeOf spec = .ok kind.toList := by
  unfold typeOf
  rw [h]

theorem hasType_iff (hs : kind ∈ SCALAR_TYPES) (v : Json) :
    hasType kind.toList v = true ↔ TypeAdmits kind.toList v := by
  simp only [SCALAR_TYPES, List.mem_cons, List.not_mem_nil, or_false] at hs
  rcases hs with rfl | rfl | rfl | rfl <;> cases v <;> simp [hasType, TypeAdmits]

theorem scalar_ne_array (hs : kind ∈ SCALAR_TYPES) : kind.toList ≠ "array".toList := by
  intro h
  rw [String.toList_inj] at h
  subst h
  revert hs
  decide

theorem Fits.admits {member : Json → List Json → Prop} {spec v : Json}
    (h : Fits member spec v) (ht : typeIs spec kind) : TypeAdmits kind.toList v := by
  obtain ⟨htyped, -, -, -, -, -⟩ := h
  exact htyped _ ht

/-- A value of a scalar type fits when its bounds and its `enum` say so. -/
theorem fits_scalar (hs : kind ∈ SCALAR_TYPES)
    (ht : typeIs spec kind) {v : Json} (h : TypeAdmits kind.toList v) :
    Fits pyMember spec v ↔
      (∀ s, v = .str s → AtLeast spec "minLength" s.length ∧ AtMost spec "maxLength" s.length) ∧
      (∀ x, v.number? = some x → AtLeast spec "minimum" x ∧ AtMost spec "maximum" x) ∧
      ∀ allowed, spec.get? "enum" = some allowed →
        ∃ vs, allowed = .arr vs ∧ ∃ w ∈ vs, Json.pyEq v w = true := by
  have hnarr : ∀ xs, v ≠ .arr xs := by
    rintro xs rfl
    exact scalar_ne_array hs h
  constructor
  · rintro ⟨-, hranged, hlong, -, hlisted, -⟩
    refine ⟨hlong, hranged, fun allowed hget => ?_⟩
    obtain ⟨vs, hvs, hmem⟩ := hlisted allowed hget
    refine ⟨vs, hvs, hmem.resolve_left ?_⟩
    rintro ⟨xs, hxs⟩
    exact hnarr xs hxs
  · rintro ⟨hlong, hranged, hlisted⟩
    refine ⟨fun k hk => ?_, hranged, hlong, fun xs hxs => absurd hxs (hnarr xs),
      fun allowed hget => ?_, fun xs _ hxs => absurd hxs (hnarr xs)⟩
    · cases hk.symm.trans ht
      exact h
    · obtain ⟨vs, hvs, hmem⟩ := hlisted allowed hget
      exact ⟨vs, hvs, Or.inr hmem⟩

theorem decides_length (ht : typeIs spec kind) (hl : Legible spec)
    (label : PyStr) {v : Json} (h : TypeAdmits kind.toList v) :
    Decides (checkLength label spec v)
      (∀ s, v = .str s → AtLeast spec "minLength" s.length ∧ AtMost spec "maxLength" s.length) := by
  cases v with
  | str text =>
      rw [String.toList_inj.1 h] at ht
      obtain ⟨hlow, hhigh⟩ := hl.lengths ht
      refine (decides_bound hlow.number hhigh.number label text.length _).congr ?_
      constructor
      · intro hb s hs
        cases hs
        exact hb
      · intro hb
        exact hb text rfl
  | _ => exact Decides.ok fun s h => by cases h

theorem number_type {spec v : Json} {x : Rat} (ht : typeIs spec kind)
    (h : TypeAdmits kind.toList v) (hv : v.number? = some x) :
    typeIs spec "integer" ∨ typeIs spec "number" := by
  cases v with
  | int n =>
      rcases h with h | h
      · exact Or.inl (String.toList_inj.1 h ▸ ht)
      · exact Or.inr (String.toList_inj.1 h ▸ ht)
  | float q => exact Or.inr (String.toList_inj.1 h ▸ ht)
  | _ => cases hv

theorem decides_range (ht : typeIs spec kind) (hl : Legible spec)
    (label : PyStr) {v : Json} (h : TypeAdmits kind.toList v) :
    Decides (checkRange label spec v)
      (∀ x, v.number? = some x → AtLeast spec "minimum" x ∧ AtMost spec "maximum" x) := by
  unfold checkRange
  cases hv : v.number? with
  | none => exact Decides.ok fun x h => by cases h
  | some x =>
      obtain ⟨hlow, hhigh⟩ := hl.numbers (number_type ht h hv)
      have hboth := Decides.bind (decides_atLeast hlow x (.below label))
        fun _ => decides_atMost hhigh x (.above label)
      refine hboth.congr ?_
      constructor
      · intro hb y hy
        cases hy
        exact hb
      · intro hb
        exact hb x rfl

theorem decides_scalar (hs : kind ∈ SCALAR_TYPES)
    (ht : typeIs spec kind) (hl : Legible spec) (label : PyStr) (v : Json) :
    Decides (checkScalar label spec kind.toList v) (Fits pyMember spec v) := by
  have htype : Decides (checkType label kind.toList v) (TypeAdmits kind.toList v) := by
    unfold checkType
    rw [← hasType_iff hs]
    by_cases h : hasType kind.toList v = true
    · exact Decides.returns (if_pos h) h
    · exact Decides.refuses _ (if_neg h) h
  have hall := Decides.bind htype fun h => Decides.bind (decides_length ht hl label h)
    fun _ => Decides.bind (decides_range ht hl label h) fun _ => decides_enum hl.enum label v
  refine hall.congr ⟨fun h => (fits_scalar hs ht h.1).2 h.2, fun hf => ?_⟩
  have hadmits := hf.admits ht
  exact ⟨hadmits, (fits_scalar hs ht hadmits).1 hf⟩

/-- A check of every value of a list decides what it decides of each. -/
theorem decides_items {label : PyStr} {P : Json → Prop}
    (h : ∀ v, Decides (checkValue label spec v) (P v)) :
    ∀ items, Decides (checkItems label spec items) (∀ x ∈ items, P x)
  | [] => by
      unfold checkItems
      exact Decides.ok fun x hx => by cases hx
  | x :: rest => by
      unfold checkItems
      refine (Decides.bind (h x) fun _ => decides_items h rest).congr ?_
      rw [List.forall_mem_cons]

/-- A schema of a scalar: `_check_value` decides that a value fits. -/
theorem decides_scalarTyped (hs : ScalarTyped spec) (hl : Legible spec)
    (label : PyStr) (v : Json) : Decides (checkValue label spec v) (Fits pyMember spec v) := by
  obtain ⟨-, kind, hmem, ht⟩ := hs
  have hne := scalar_ne_array hmem
  have hcheck : checkValue label spec v = checkScalar label spec kind.toList v := by
    cases v <;> simp only [checkValue, typeOf_eq ht, bind, Except.bind, if_neg hne]
  rw [hcheck]
  exact decides_scalar hmem ht hl label v

theorem Fits.list {member : Json → List Json → Prop} {spec v : Json} (h : Fits member spec v)
    (ht : typeIs spec "array") : ∃ xs, v = .arr xs := by
  have hadmits := h.admits ht
  cases v with
  | arr xs => exact ⟨xs, rfl⟩
  | null => exact absurd hadmits id
  | obj fields => exact absurd hadmits id
  | int n => rcases hadmits with h | h <;> exact absurd (String.toList_inj.1 h) (by decide)
  | _ => exact absurd (String.toList_inj.1 hadmits) (by decide)

theorem fits_array {member : Json → List Json → Prop} {spec items : Json}
    (ha : ArrayOf spec items) {xs : List Json} :
    Fits member spec (.arr xs) ↔
      (AtLeast spec "minItems" xs.length ∧ AtMost spec "maxItems" xs.length) ∧
      (∀ x ∈ xs, Fits member items x) ∧
      ∀ allowed, spec.get? "enum" = some allowed → ∃ vs, allowed = .arr vs ∧ member (.arr xs) vs := by
  obtain ⟨-, ht, hitems⟩ := ha
  constructor
  · rintro ⟨-, -, -, hsized, hlisted, hin⟩
    exact ⟨hsized xs rfl, hin xs items rfl hitems, hlisted⟩
  · rintro ⟨hsized, hin, hlisted⟩
    refine ⟨fun kind hk => ?_, fun x hx => ?_, fun s hs => ?_, fun ys hys => ?_, hlisted,
      fun ys inner hys hget => ?_⟩
    · cases hk.symm.trans ht
      rfl
    · cases hx
    · cases hs
    · cases hys
      exact hsized
    · cases hys
      rw [hitems] at hget
      cases hget
      exact hin

theorem decides_array {spec items : Json} (ha : ArrayOf spec items) (hs : ScalarTyped items)
    (hw : WellFormed spec) (label : PyStr) (v : Json) :
    Decides (checkValue label spec v) (Fits pyMember spec v) := by
  obtain ⟨hl, hli⟩ := hw
  have ht := ha.2.1
  have hget : getOrNull spec "items" = items := by
    unfold getOrNull
    rw [ha.2.2]
    rfl
  have hother : (∀ xs, v ≠ .arr xs) → ¬Fits pyMember spec v := by
    intro hne hf
    obtain ⟨xs, hv⟩ := hf.list ht
    exact hne xs hv
  cases v with
  | arr xs =>
      obtain ⟨hlow, hhigh⟩ := hl.sizes ht
      have hitems : ∀ v, Decides (checkValue (label ++ "[]".toList) items v) (Fits pyMember items v) :=
        decides_scalarTyped hs (hli items ht ha.2.2) _
      have hboth := Decides.bind
        (decides_bound hlow.number hhigh.number label xs.length "items")
        fun _ => decides_items hitems xs
      have hcheck : checkValue label spec (.arr xs) = (do
          bound label spec xs.length "minItems" "maxItems" "items"
          checkItems (label ++ "[]".toList) items xs) := by
        simp only [checkValue, typeOf_eq ht, bind, Except.bind, if_pos, hget]
      rw [hcheck]
      refine hboth.congr ?_
      rw [fits_array ha, and_congr_right_iff]
      intro _
      constructor
      · intro h
        refine ⟨h, fun allowed hallowed => ?_⟩
        obtain ⟨vs, hvs⟩ := hl.enum allowed hallowed
        exact ⟨vs, hvs, Or.inl ⟨xs, rfl⟩⟩
      · intro h
        exact h.1
  | _ =>
      refine Decides.refuses (.notList label) ?_ (hother fun xs h => by cases h)
      simp only [checkValue, typeOf_eq ht, bind, Except.bind, if_pos, throw, throwThe,
        MonadExceptOf.throw]

/-- `_check_value` decides that a value fits, the rule for an `enum`
being its own. -/
theorem decides_value (hs : Supported spec) (hw : WellFormed spec) (label : PyStr)
    (v : Json) : Decides (checkValue label spec v) (Fits pyMember spec v) := by
  rcases hs with hs | ⟨items, ha, hs⟩
  · exact decides_scalarTyped hs hw.1 label v
  · exact decides_array ha hs hw label v

-- ===== enums

/-- Among the numbers and truth values of a scalar's `enum`, none stands
for a value of the other kind that the schema would take: a truth value
the language reads as a number in range is there as a number too, and a
number it reads as a truth value is there as that. -/
structure ScalarEnum (spec : Json) : Prop where
  numbers : typeIs spec "integer" ∨ typeIs spec "number" →
    ∀ vs b, spec.get? "enum" = some (.arr vs) → Json.bool b ∈ vs →
      AtLeast spec "minimum" (Json.ofBool b) → AtMost spec "maximum" (Json.ofBool b) →
      ∃ w ∈ vs, w.number? = some (Json.ofBool b)
  truths : typeIs spec "boolean" →
    ∀ vs b w, spec.get? "enum" = some (.arr vs) → w ∈ vs → w.number? = some (Json.ofBool b) →
      Json.bool b ∈ vs

def Sized (spec : Json) (n : Nat) : Prop :=
  AtLeast spec "minItems" n ∧ AtMost spec "maxItems" n

/-- The `enum`s of a property say the same under both rules. That of a
list excludes no list of fitting values, and that of its items matters
when a list can have any. -/
def EnumExact (spec : Json) : Prop :=
  ScalarEnum spec ∧ ∀ items, typeIs spec "array" → spec.get? "items" = some items →
    ((∃ n, 0 < n ∧ Sized spec n) → ScalarEnum items) ∧
    ∀ xs, Sized spec xs.length → (∀ x ∈ xs, Fits jsonMember items x) →
      ∀ vs, spec.get? "enum" = some (.arr vs) → jsonMember (.arr xs) vs

/-- A value that fits under one rule fits under another that finds it in
the same `enum`s. -/
theorem Fits.change {m m' : Json → List Json → Prop} {spec v : Json} (h : Fits m spec v)
    (hm : ∀ vs, spec.get? "enum" = some (.arr vs) → m v vs → m' v vs)
    (hi : ∀ xs inner, v = .arr xs → spec.get? "items" = some inner →
      ∀ x ∈ xs, Fits m inner x → Fits m' inner x) : Fits m' spec v := by
  obtain ⟨htyped, hranged, hlong, hsized, hlisted, hitems⟩ := h
  refine ⟨htyped, hranged, hlong, hsized, fun allowed hget => ?_, fun xs inner hxs hget x hx => ?_⟩
  · obtain ⟨vs, rfl, hv⟩ := hlisted allowed hget
    exact ⟨vs, rfl, hm vs hget hv⟩
  · exact hi xs inner hxs hget x hx (hitems xs inner hxs hget x hx)

theorem Fits.scalar {m : Json → List Json → Prop} {spec v : Json} (hs : ScalarTyped spec)
    (h : Fits m spec v) :
    (∃ s, v = .str s) ∨ (∃ b, v = .bool b ∧ typeIs spec "boolean") ∨
      ∃ q, v.number? = some q ∧ (typeIs spec "integer" ∨ typeIs spec "number") := by
  obtain ⟨-, kind, hmem, ht⟩ := hs
  have hadmits := h.admits ht
  cases v with
  | str s => exact Or.inl ⟨s, rfl⟩
  | bool b => exact Or.inr (Or.inl ⟨b, rfl, String.toList_inj.1 hadmits ▸ ht⟩)
  | int n => exact Or.inr (Or.inr ⟨n, rfl, number_type ht hadmits rfl⟩)
  | float q => exact Or.inr (Or.inr ⟨q, rfl, number_type ht hadmits rfl⟩)
  | arr xs => exact absurd hadmits (scalar_ne_array hmem)
  | null => exact absurd hadmits id
  | obj fields => exact absurd hadmits id

theorem Fits.not_arr {m : Json → List Json → Prop} {spec v : Json} (hs : ScalarTyped spec)
    (h : Fits m spec v) (xs : List Json) : v ≠ .arr xs := by
  intro hv
  subst hv
  rcases h.scalar hs with ⟨s, hv⟩ | ⟨b, hv, -⟩ | ⟨q, hv, -⟩ <;> cases hv

/-- What JSON finds in a scalar's `enum`, the language finds there. -/
theorem Fits.py_of_json {spec v : Json} (hs : ScalarTyped spec) (h : Fits jsonMember spec v) :
    Fits pyMember spec v := by
  refine h.change (fun vs _ hmem => ?_) fun xs _ hxs => absurd hxs (h.not_arr hs xs)
  obtain ⟨w, hw, hsame⟩ := hmem
  refine Or.inr ⟨w, hw, ?_⟩
  rcases h.scalar hs with ⟨s, rfl⟩ | ⟨b, rfl, -⟩ | ⟨q, hv, -⟩
  · exact Json.pyEq_str.2 (Json.same_str.1 hsame)
  · exact Json.pyEq_bool.2 (Or.inl (Json.same_bool.1 hsame))
  · exact (Json.pyEq_number hv).2 (Or.inl ((Json.same_number hv).1 hsame))

theorem Fits.json_of_py {spec v : Json} (hs : ScalarTyped spec) (he : ScalarEnum spec)
    (h : Fits pyMember spec v) : Fits jsonMember spec v := by
  refine h.change (fun vs hvs hmem => ?_) fun xs _ hxs => absurd hxs (h.not_arr hs xs)
  obtain ⟨w, hw, heq⟩ := hmem.resolve_left fun ⟨xs, hxs⟩ => h.not_arr hs xs hxs
  rcases h.scalar hs with ⟨s, rfl⟩ | ⟨b, rfl, ht⟩ | ⟨q, hv, ht⟩
  · exact ⟨w, hw, Json.same_str.2 (Json.pyEq_str.1 heq)⟩
  · rcases Json.pyEq_bool.1 heq with rfl | hnum
    · exact ⟨_, hw, Json.same_bool.2 rfl⟩
    · exact ⟨_, he.truths ht vs b w hvs hw hnum, Json.same_bool.2 rfl⟩
  · rcases (Json.pyEq_number hv).1 heq with hnum | ⟨b, rfl, hb⟩
    · exact ⟨w, hw, (Json.same_number hv).2 hnum⟩
    · obtain ⟨-, hranged, -, -, -, -⟩ := h
      obtain ⟨hlow, hhigh⟩ := hranged q hv
      subst hb
      obtain ⟨u, hu, hnum⟩ := he.numbers ht vs b hvs hw hlow hhigh
      exact ⟨u, hu, (Json.same_number hv).2 hnum⟩

/-- A truth value in the `enum` of a number lets the number it is read
as through. -/
theorem fits_ofBool (ht : typeIs spec "integer" ∨ typeIs spec "number")
    {vs : List Json} {b : Bool} (hvs : spec.get? "enum" = some (.arr vs)) (hb : Json.bool b ∈ vs)
    (hlow : AtLeast spec "minimum" (Json.ofBool b))
    (hhigh : AtMost spec "maximum" (Json.ofBool b)) :
    ∃ v, v.number? = some (Json.ofBool b) ∧ Fits pyMember spec v := by
  have hnum : Json.number? (.int (if b then 1 else 0)) = some (Json.ofBool b) := by
    cases b <;> rfl
  refine ⟨_, hnum, fun kind hk => ?_, fun x hx => ?_, fun s hs => ?_, fun xs hxs => ?_,
    fun allowed hget => ?_, fun xs _ hxs => ?_⟩
  · rcases ht with ht | ht
    · cases hk.symm.trans ht
      exact Or.inl rfl
    · cases hk.symm.trans ht
      exact Or.inr rfl
  · rw [hnum] at hx
    cases hx
    exact ⟨hlow, hhigh⟩
  · cases hs
  · cases hxs
  · rw [hvs] at hget
    cases hget
    exact ⟨vs, rfl, Or.inr ⟨_, hb, (Json.pyEq_number hnum).2 (Or.inr ⟨b, rfl, rfl⟩)⟩⟩
  · cases hxs

/-- A number in the `enum` of a truth value likewise. -/
theorem fits_bool (ht : typeIs spec "boolean") {vs : List Json} {b : Bool} {w : Json}
    (hvs : spec.get? "enum" = some (.arr vs)) (hw : w ∈ vs)
    (hnum : w.number? = some (Json.ofBool b)) : Fits pyMember spec (.bool b) := by
  refine ⟨fun kind hk => ?_, fun x hx => ?_, fun s hs => ?_, fun xs hxs => ?_,
    fun allowed hget => ?_, fun xs _ hxs => ?_⟩
  · cases hk.symm.trans ht
    rfl
  · cases hx
  · cases hs
  · cases hxs
  · rw [hvs] at hget
    cases hget
    exact ⟨vs, rfl, Or.inr ⟨w, hw, Json.pyEq_bool.2 (Or.inr hnum)⟩⟩
  · cases hxs

theorem Fits.json_listed {spec v : Json} (h : Fits jsonMember spec v) {vs : List Json}
    (hvs : spec.get? "enum" = some (.arr vs)) : jsonMember v vs := by
  obtain ⟨-, -, -, -, hlisted, -⟩ := h
  obtain ⟨us, hus, hmem⟩ := hlisted _ hvs
  cases hus
  exact hmem

/-- For a scalar, the rules take the same values exactly when its `enum`
says so. -/
theorem scalarEnum_iff (hs : ScalarTyped spec) :
    ScalarEnum spec ↔ ∀ v, Fits pyMember spec v → Fits jsonMember spec v := by
  refine ⟨fun he v h => h.json_of_py hs he, fun hall => ⟨?_, ?_⟩⟩
  · intro ht vs b hvs hb hlow hhigh
    obtain ⟨v, hnum, hfits⟩ := fits_ofBool ht hvs hb hlow hhigh
    obtain ⟨w, hw, hsame⟩ := (hall v hfits).json_listed hvs
    exact ⟨w, hw, (Json.same_number hnum).1 hsame⟩
  · intro ht vs b w hvs hw hnum
    obtain ⟨u, hu, hsame⟩ := (hall _ (fits_bool ht hvs hw hnum)).json_listed hvs
    exact Json.same_bool.1 hsame ▸ hu

theorem scalar_not_array (hs : ScalarTyped spec) : ¬typeIs spec "array" := by
  intro ha
  obtain ⟨-, kind, hmem, ht⟩ := hs
  rw [typeIs_inj ht ha] at hmem
  revert hmem
  decide

/-- What fits a list's schema under JSON's rule fits it under the
checker's. -/
theorem array_py_of_json {spec items v : Json} (ha : ArrayOf spec items) (hs : ScalarTyped items)
    (h : Fits jsonMember spec v) : Fits pyMember spec v := by
  obtain ⟨xs, rfl⟩ := h.list ha.2.1
  refine h.change (fun vs _ _ => Or.inl ⟨xs, rfl⟩) fun ys inner _ hget x _ hx => ?_
  rw [ha.2.2] at hget
  cases hget
  exact hx.py_of_json hs

/-- The rules take the same values exactly when the `enum`s say so. -/
theorem enumExact_iff (hs : Supported spec) (hw : WellFormed spec) :
    EnumExact spec ↔ ∀ v, Fits pyMember spec v → Fits jsonMember spec v := by
  rcases hs with hs | ⟨items, ha, hs⟩
  · rw [← scalarEnum_iff hs]
    exact ⟨fun h => h.1, fun h => ⟨h, fun items ht => absurd ht (scalar_not_array hs)⟩⟩
  · have ht := ha.2.1
    constructor
    · rintro ⟨-, he⟩ v hfits
      obtain ⟨hitems, hlists⟩ := he items ht ha.2.2
      obtain ⟨xs, rfl⟩ := hfits.list ht
      obtain ⟨hsized, hin, hlisted⟩ := (fits_array ha).1 hfits
      have hin' : ∀ x ∈ xs, Fits jsonMember items x := by
        intro x hx
        have hpos : 0 < xs.length := List.length_pos_of_mem hx
        exact (hin x hx).json_of_py hs (hitems ⟨xs.length, hpos, hsized⟩)
      refine (fits_array ha).2 ⟨hsized, hin', fun allowed hget => ?_⟩
      obtain ⟨vs, rfl, -⟩ := hlisted allowed hget
      exact ⟨vs, rfl, hlists xs hsized hin' vs hget⟩
    · intro hall
      have hlisted : ∀ xs allowed, spec.get? "enum" = some allowed →
          ∃ vs, allowed = .arr vs ∧ pyMember (.arr xs) vs := by
        intro xs allowed hget
        obtain ⟨vs, hvs⟩ := hw.1.enum allowed hget
        exact ⟨vs, hvs, Or.inl ⟨xs, rfl⟩⟩
      refine ⟨⟨fun h => ?_, fun h => ?_⟩, fun inner _ hget => ?_⟩
      · rcases h with h | h <;> exact absurd (typeIs_inj ht h) (by decide)
      · exact absurd (typeIs_inj ht h) (by decide)
      · rw [ha.2.2] at hget
        cases hget
        refine ⟨?_, fun xs hsized hin vs hvs => ?_⟩
        · rintro ⟨n, hpos, hsized⟩
          refine (scalarEnum_iff hs).2 fun x hx => ?_
          have hlen : (List.replicate n x).length = n := List.length_replicate
          have hfits : Fits pyMember spec (.arr (List.replicate n x)) := by
            refine (fits_array ha).2 ⟨by rw [hlen]; exact hsized, fun y hy => ?_, hlisted _⟩
            rw [List.eq_of_mem_replicate hy]
            exact hx
          obtain ⟨-, hin, -⟩ := (fits_array ha).1 (hall _ hfits)
          exact hin x (List.mem_replicate.2 ⟨by omega, rfl⟩)
        · have hfits : Fits pyMember spec (.arr xs) :=
            (fits_array ha).2 ⟨hsized, fun x hx => (hin x hx).py_of_json hs, hlisted xs⟩
          exact (hall _ hfits).json_listed hvs

-- ===== problem finder

/-- A search for a problem: it finds none exactly on what is good, and
raises exactly on what is bad. -/
inductive Judges {α : Type} (r : Except TypeError (Option α)) (Good Bad : Prop) : Prop
  | accepts (h : r = .ok none) (good : Good) (fine : ¬Bad)
  | objects (problem : α) (h : r = .ok (some problem)) (poor : ¬Good) (fine : ¬Bad)
  | raises (h : r = .error ⟨⟩) (poor : ¬Good) (bad : Bad)

namespace Judges

variable {α : Type} {r : Except TypeError (Option α)} {Good Bad Good' Bad' : Prop}

theorem congr (h : Judges r Good Bad) (hg : Good ↔ Good') (hb : Bad ↔ Bad') :
    Judges r Good' Bad' := by
  cases h with
  | accepts hr good fine => exact accepts hr (hg.1 good) fun h => fine (hb.2 h)
  | objects p hr poor fine => exact objects p hr (fun h => poor (hg.2 h)) fun h => fine (hb.2 h)
  | raises hr poor bad => exact raises hr (fun h => poor (hg.2 h)) (hb.1 bad)

theorem object {problem : α} (poor : ¬Good) (fine : ¬Bad) :
    Judges (.ok (some problem)) Good Bad := objects problem rfl poor fine

theorem accepts_iff (h : Judges r Good Bad) : r = .ok none ↔ Good := by
  cases h with
  | accepts hr good _ => exact ⟨fun _ => good, fun _ => hr⟩
  | objects p hr poor _ =>
      refine ⟨fun h => ?_, fun h => absurd h poor⟩
      rw [hr] at h
      cases h
  | raises hr poor _ =>
      refine ⟨fun h => ?_, fun h => absurd h poor⟩
      rw [hr] at h
      cases h

theorem returns_iff (h : Judges r Good Bad) : (∃ found, r = .ok found) ↔ ¬Bad := by
  cases h with
  | accepts hr _ fine => exact ⟨fun _ => fine, fun _ => ⟨_, hr⟩⟩
  | objects p hr _ fine => exact ⟨fun _ => fine, fun _ => ⟨_, hr⟩⟩
  | raises hr _ bad =>
      refine ⟨fun ⟨found, h⟩ => ?_, fun h => absurd bad h⟩
      rw [hr] at h
      cases h

end Judges

/-- The first element that is not `good` is `bad`. -/
def Stumbles {α : Type} (good bad : α → Prop) (l : List α) : Prop :=
  ∃ before x after, l = before ++ x :: after ∧ (∀ y ∈ before, good y) ∧ bad x

theorem not_stumbles_nil {α : Type} {good bad : α → Prop} : ¬Stumbles good bad [] := by
  rintro ⟨before, x, after, h, -, -⟩
  cases before <;> cases h

theorem stumbles_cons {α : Type} {good bad : α → Prop} {x : α} {l : List α} :
    Stumbles good bad (x :: l) ↔ bad x ∨ (good x ∧ Stumbles good bad l) := by
  constructor
  · rintro ⟨before, y, after, h, hgood, hbad⟩
    cases before with
    | nil =>
        cases h
        exact Or.inl hbad
    | cons z before =>
        cases h
        exact Or.inr ⟨hgood x List.mem_cons_self,
          before, y, after, rfl, fun w hw => hgood w (List.mem_cons_of_mem _ hw), hbad⟩
  · rintro (hbad | ⟨hgood, before, y, after, rfl, hall, hbad⟩)
    · exact ⟨[], x, l, rfl, fun y hy => (by cases hy), hbad⟩
    · refine ⟨x :: before, y, after, rfl, ?_, hbad⟩
      rw [List.forall_mem_cons]
      exact ⟨hgood, hall⟩

-- ===== properties

theorem getOrNull_eq_str {key : String} {s : PyStr} :
    getOrNull spec key = .str s ↔ spec.get? key = some (.str s) := by
  unfold getOrNull
  cases spec.get? key <;> simp

theorem getOrNull_hashable {key : String} :
    (getOrNull spec key).hashable = false ↔
      ∃ kind, spec.get? key = some kind ∧ kind.hashable = false := by
  unfold getOrNull
  cases spec.get? key <;> simp [Json.hashable]

theorem isScalarType_of_hashable {kind : Json} (h : kind.hashable = true) :
    isScalarType kind = .ok true ∧ (∃ scalar ∈ SCALAR_TYPES, kind = .str scalar.toList) ∨
      isScalarType kind = .ok false ∧ ¬∃ scalar ∈ SCALAR_TYPES, kind = .str scalar.toList := by
  have hiff : (SCALAR_TYPES.any fun scalar => Json.pyEq kind (.str scalar.toList)) = true ↔
      ∃ scalar ∈ SCALAR_TYPES, kind = .str scalar.toList := by
    rw [List.any_eq_true]
    simp only [Json.pyEq_of_str]
  unfold isScalarType
  rw [if_pos h, ← hiff]
  cases (SCALAR_TYPES.any fun scalar => Json.pyEq kind (.str scalar.toList)) with
  | true => exact Or.inl ⟨rfl, rfl⟩
  | false => exact Or.inr ⟨rfl, Bool.false_ne_true⟩

theorem getOrNull_of_get {key : String} {v : Json} (h : spec.get? key = some v) :
    getOrNull spec key = v := by
  unfold getOrNull
  rw [h]
  rfl

theorem judges_array {nested : Json → Except TypeError (Option PropertyProblem)}
    {G B : Json → Prop} (hn : ∀ items, Judges (nested items) (G items) (B items))
    (hnull : ¬G .null ∧ ¬B .null) (spec : Json) :
    Judges (arrayProblem nested spec) (∃ items, spec.get? "items" = some items ∧ G items)
      (∃ items, spec.get? "items" = some items ∧ B items) := by
  by_cases hi : getOrNull spec "items" = .null
  · have hbody : arrayProblem nested spec = .ok (some .noItems) := by
      unfold arrayProblem
      rw [hi]
    rw [hbody]
    refine Judges.object ?_ ?_
    · rintro ⟨items, hget, hg⟩
      rw [← getOrNull_of_get hget, hi] at hg
      exact hnull.1 hg
    · rintro ⟨items, hget, hb⟩
      rw [← getOrNull_of_get hget, hi] at hb
      exact hnull.2 hb
  · obtain ⟨items, hget⟩ : ∃ items, spec.get? "items" = some items := by
      unfold getOrNull at hi
      cases h : spec.get? "items" with
      | none => rw [h] at hi; exact absurd rfl hi
      | some items => exact ⟨items, rfl⟩
    have hbody : arrayProblem nested spec = nested items := by
      rw [getOrNull_of_get hget] at hi
      unfold arrayProblem
      rw [getOrNull_of_get hget]
      cases items <;> first | rfl | exact absurd rfl hi
    rw [hbody]
    have honly : ∀ {P : Json → Prop}, P items ↔ ∃ other, spec.get? "items" = some other ∧ P other := by
      intro P
      refine ⟨fun h => ⟨items, hget, h⟩, fun ⟨other, hother, h⟩ => ?_⟩
      cases hget.symm.trans hother
      exact h
    exact (hn items).congr honly honly

/-- `_property_problem` past the check of its keywords. -/
theorem judges_kind {nested : Json → Except TypeError (Option PropertyProblem)}
    {G B : Json → Prop} (hn : ∀ items, Judges (nested items) (G items) (B items))
    (hnull : ¬G .null ∧ ¬B .null) (hk : Known spec) :
    Judges (kindProblem nested spec)
      (ScalarTyped spec ∨ ∃ items, ArrayOf spec items ∧ G items)
      (Unnamed spec ∨ ∃ items, ArrayOf spec items ∧ B items) := by
  unfold kindProblem
  cases hh : (getOrNull spec "type").hashable with
  | false =>
      have hun : Unnamed spec := ⟨hk, getOrNull_hashable.1 hh⟩
      have hr : isScalarType (getOrNull spec "type") = .error ⟨⟩ := by
        unfold isScalarType
        rw [hh]
        rfl
      have hname : ∀ {name : String}, ¬typeIs spec name := by
        intro name ht
        rw [getOrNull_of_get ht] at hh
        cases hh
      rw [hr]
      refine Judges.raises rfl (fun h => ?_) (Or.inl hun)
      rcases h with ⟨-, scalar, -, ht⟩ | ⟨items, ha, -⟩
      · exact hname ht
      · exact hname ha.2.1
  | true =>
      have hnamed : ¬Unnamed spec := by
        rintro ⟨-, h⟩
        rw [getOrNull_hashable.2 h] at hh
        cases hh
      rcases isScalarType_of_hashable hh with ⟨hr, scalar, hmem, hkind⟩ | ⟨hr, hnot⟩
      · have hs : ScalarTyped spec := ⟨hk, scalar, hmem, getOrNull_eq_str.1 hkind⟩
        rw [hr]
        refine Judges.accepts rfl (Or.inl hs) fun h => ?_
        rcases h with h | ⟨items, ha, -⟩
        · exact hnamed h
        · exact scalar_not_array hs ha.2.1
      · have hns : ¬ScalarTyped spec := by
          rintro ⟨-, scalar, hmem, ht⟩
          exact hnot ⟨scalar, hmem, getOrNull_eq_str.2 ht⟩
        rw [hr]
        simp only [bind, Except.bind, Bool.false_eq_true, if_false]
        by_cases harr : getOrNull spec "type" = .str "array".toList
        · have ht : typeIs spec "array" := getOrNull_eq_str.1 harr
          rw [if_pos (Json.pyEq_of_str.2 harr)]
          have hof : ∀ {P : Prop} {C : Json → Prop}, ¬P →
              ((∃ items, spec.get? "items" = some items ∧ C items) ↔
                (P ∨ ∃ items, ArrayOf spec items ∧ C items)) := by
            intro P C hP
            constructor
            · rintro ⟨items, hget, h⟩
              exact Or.inr ⟨items, ⟨hk, ht, hget⟩, h⟩
            · rintro (h | ⟨items, ha, h⟩)
              · exact absurd h hP
              · exact ⟨items, ha.2.2, h⟩
          exact (judges_array hn hnull spec).congr (hof hns) (hof hnamed)
        · rw [if_neg fun h => harr (Json.pyEq_of_str.1 h)]
          have hna : ¬typeIs spec "array" := fun ht => harr (getOrNull_eq_str.2 ht)
          refine Judges.object (fun h => ?_) fun h => ?_
          · rcases h with h | ⟨items, ha, -⟩
            · exact hns h
            · exact hna ha.2.1
          · rcases h with h | ⟨items, ha, -⟩
            · exact hnamed h
            · exact hna ha.2.1

/-- One level of `_property_problem`, over what the next makes of the
items. -/
theorem judges_with {nested : Json → Except TypeError (Option PropertyProblem)}
    {G B : Json → Prop} (hn : ∀ items, Judges (nested items) (G items) (B items))
    (hnull : ¬G .null ∧ ¬B .null) (spec : Json) :
    Judges (problemWith nested spec)
      (ScalarTyped spec ∨ ∃ items, ArrayOf spec items ∧ G items)
      (Unnamed spec ∨ ∃ items, ArrayOf spec items ∧ B items) := by
  have hstranger : ¬Known spec →
      ¬(ScalarTyped spec ∨ ∃ items, ArrayOf spec items ∧ G items) ∧
        ¬(Unnamed spec ∨ ∃ items, ArrayOf spec items ∧ B items) := by
    intro hk
    refine ⟨fun h => ?_, fun h => ?_⟩
    · rcases h with h | ⟨items, h, -⟩ <;> exact hk h.1
    · rcases h with h | ⟨items, h, -⟩ <;> exact hk h.1
  cases spec with
  | obj fields =>
      cases hu : firstUnknown PROPERTY_KEYWORDS fields with
      | some keyword =>
          have hk : ¬Known (.obj fields) := by
            rintro ⟨fs, hfs, hnone⟩
            cases hfs
            rw [hu] at hnone
            cases hnone
          simp only [problemWith, hu]
          exact Judges.object (hstranger hk).1 (hstranger hk).2
      | none =>
          have hk : Known (.obj fields) := ⟨fields, rfl, hu⟩
          simp only [problemWith, hu]
          exact judges_kind hn hnull hk
  | _ =>
      have hk : ∀ {v : Json}, (∀ fields, v ≠ .obj fields) → ¬Known v := by
        rintro v hv ⟨fields, rfl, -⟩
        exact hv fields rfl
      refine Judges.object (hstranger (hk ?_)).1 (hstranger (hk ?_)).2 <;> exact fun _ h => by cases h

/-- `_property_problem` on a list's items. -/
theorem judges_items (spec : Json) : Judges (itemsProblem spec) (ScalarTyped spec) (Unnamed spec) := by
  have hnested : ∀ _ : Json, Judges (.ok (some PropertyProblem.nestedArrays)) False False :=
    fun _ => Judges.object id id
  have h := judges_with (G := fun _ => False) (B := fun _ => False) hnested ⟨id, id⟩ spec
  refine h.congr ?_ ?_ <;> simp

/-- `_property_problem` accepts the supported schemas, and raises on the
unreadable ones. -/
theorem judges_property (spec : Json) :
    Judges (propertyProblem spec) (Supported spec) (Unreadable spec) := by
  refine judges_with judges_items ⟨?_, ?_⟩ spec
  · rintro ⟨⟨fields, h, -⟩, -⟩
    cases h
  · rintro ⟨⟨fields, h, -⟩, -⟩
    cases h

def GoodProperty (p : PyStr × Json) : Prop := isKey p.1 = true ∧ Supported p.2

def BadProperty (p : PyStr × Json) : Prop := isKey p.1 = true ∧ Unreadable p.2

theorem judges_properties : ∀ properties : List (PyStr × Json),
    Judges (propertiesProblem properties) (∀ p ∈ properties, GoodProperty p)
      (Stumbles GoodProperty BadProperty properties)
  | [] => Judges.accepts rfl (fun p h => by cases h) not_stumbles_nil
  | (name, spec) :: rest => by
      have hrest := judges_properties rest
      unfold propertiesProblem
      rw [List.forall_mem_cons, stumbles_cons]
      by_cases hkey : isKey name = true
      · rw [if_pos hkey]
        cases judges_property spec with
        | accepts hr good fine =>
            rw [hr]
            refine Judges.congr hrest ?_ ?_
            · exact ⟨fun h => ⟨⟨hkey, good⟩, h⟩, fun h => h.2⟩
            · exact ⟨fun h => Or.inr ⟨⟨hkey, good⟩, h⟩,
                fun h => (h.resolve_left fun hb => fine hb.2).2⟩
        | objects problem hr poor fine =>
            rw [hr]
            exact Judges.object (fun h => poor h.1.2)
              fun h => h.elim (fun hb => fine hb.2) fun hg => poor hg.1.2
        | raises hr poor bad =>
            rw [hr]
            exact Judges.raises rfl (fun h => poor h.1.2) (Or.inl ⟨hkey, bad⟩)
      · rw [if_neg hkey]
        exact Judges.object (fun h => hkey h.1.1)
          fun h => h.elim (fun hb => hkey hb.1) fun hg => hkey hg.1.1

-- ===== required

def DeclaredIn (properties : List (PyStr × Json)) (item : Json) : Prop :=
  ∃ name, item = .str name ∧ (Json.lookup properties name).isSome = true

def Unhashable (item : Json) : Prop := item.hashable = false

theorem declared_cases (properties : List (PyStr × Json)) (item : Json) :
    declared properties item = .ok true ∧ DeclaredIn properties item ∨
      (declared properties item = .ok false ∧ ¬DeclaredIn properties item ∧ ¬Unhashable item ∨
        declared properties item = .error ⟨⟩ ∧ ¬DeclaredIn properties item ∧ Unhashable item) := by
  have hother : (∀ name, item ≠ .str name) → ¬DeclaredIn properties item := by
    rintro h ⟨name, hname, -⟩
    exact h name hname
  cases item with
  | str name =>
      cases h : (Json.lookup properties name).isSome with
      | true => exact Or.inl ⟨congrArg Except.ok h, name, rfl, h⟩
      | false =>
          refine Or.inr (Or.inl ⟨congrArg Except.ok h, ?_, fun hu => by cases hu⟩)
          rintro ⟨other, hother, hsome⟩
          cases hother
          rw [h] at hsome
          cases hsome
  | arr items => exact Or.inr (Or.inr ⟨rfl, hother fun _ h => (by cases h), rfl⟩)
  | obj fields => exact Or.inr (Or.inr ⟨rfl, hother fun _ h => (by cases h), rfl⟩)
  | _ => exact Or.inr (Or.inl ⟨rfl, hother fun _ h => (by cases h), fun hu => (by cases hu)⟩)

theorem judges_undeclared (properties : List (PyStr × Json)) : ∀ items : List Json,
    Judges (do if ← anyUndeclared properties items then return some SchemaProblem.required
               else return none)
      (∀ item ∈ items, DeclaredIn properties item)
      (Stumbles (DeclaredIn properties) Unhashable items)
  | [] => Judges.accepts rfl (fun item h => by cases h) not_stumbles_nil
  | item :: rest => by
      have hrest := judges_undeclared properties rest
      rw [List.forall_mem_cons, stumbles_cons]
      unfold anyUndeclared
      rcases declared_cases properties item with ⟨hr, hd⟩ | ⟨hr, hd, hh⟩ | ⟨hr, hd, hh⟩
      · have hhash : ¬Unhashable item := by
          obtain ⟨name, rfl, -⟩ := hd
          exact Bool.true_eq_false.mp
        rw [hr]
        refine Judges.congr hrest ?_ ?_
        · exact ⟨fun h => ⟨hd, h⟩, fun h => h.2⟩
        · exact ⟨fun h => Or.inr ⟨hd, h⟩, fun h => (h.resolve_left hhash).2⟩
      · rw [hr]
        exact Judges.object (fun h => hd h.1) fun h => h.elim hh fun hg => hd hg.1
      · rw [hr]
        exact Judges.raises rfl (fun h => hd h.1) (Or.inl hh)

theorem judges_required (properties : List (PyStr × Json)) (required : Json) :
    Judges (requiredProblem properties required)
      (∃ items, required = .arr items ∧ ∀ item ∈ items, DeclaredIn properties item)
      (∃ items, required = .arr items ∧ Stumbles (DeclaredIn properties) Unhashable items) := by
  cases required with
  | arr items =>
      have hof : ∀ P : List Json → Prop, P items ↔ ∃ other, Json.arr items = .arr other ∧ P other := by
        intro P
        refine ⟨fun h => ⟨items, rfl, h⟩, fun ⟨other, hother, h⟩ => ?_⟩
        cases hother
        exact h
      exact (judges_undeclared properties items).congr
        (hof fun items => ∀ item ∈ items, DeclaredIn properties item)
        (hof (Stumbles (DeclaredIn properties) Unhashable))
  | _ =>
      refine Judges.object ?_ ?_ <;> rintro ⟨items, h, -⟩ <;> cases h

-- ===== schemas

def Root (schema : Json) (properties : List (PyStr × Json)) : Prop :=
  ∃ fields, fields ≠ [] ∧ schema = .obj fields ∧ firstUnknown ROOT_KEYWORDS fields = none
    ∧ typeIs schema "object"
    ∧ (schema.get? "additionalProperties").getD (.bool false) = .bool false
    ∧ (schema.get? "properties").getD (.obj []) = .obj properties

def SupportedSchema (schema : Json) : Prop :=
  schema = .obj [] ∨ ∃ properties, Root schema properties
    ∧ (∀ p ∈ properties, GoodProperty p)
    ∧ ∃ required, (schema.get? "required").getD (.arr []) = .arr required
      ∧ ∀ item ∈ required, DeclaredIn properties item

/-- A list or an object is the first thing to be wrong: as a type, or
among the required names. -/
def StumblingSchema (schema : Json) : Prop :=
  ∃ properties, Root schema properties
    ∧ (Stumbles GoodProperty BadProperty properties
      ∨ (∀ p ∈ properties, GoodProperty p)
        ∧ ∃ required, (schema.get? "required").getD (.arr []) = .arr required
          ∧ Stumbles (DeclaredIn properties) Unhashable required)

theorem getD_eq_obj {found : Option Json} {properties : List (PyStr × Json)}
    (h : found.getD (.obj []) = .obj properties) :
    found = some (.obj properties) ∨ found = none ∧ properties = [] := by
  cases found with
  | none =>
      cases h
      exact Or.inr ⟨rfl, rfl⟩
  | some v =>
      cases h
      exact Or.inl rfl

theorem Root.properties {properties : List (PyStr × Json)}
    (h : Root schema properties) : propertiesOf schema = properties := by
  obtain ⟨fields, -, -, -, -, -, hprops⟩ := h
  unfold propertiesOf
  rcases getD_eq_obj hprops with h | ⟨h, rfl⟩
  · rw [h]
  · rw [h]

theorem requiredOf_eq {required : List Json}
    (h : (schema.get? "required").getD (.arr []) = .arr required) :
    requiredOf schema = required := by
  unfold requiredOf
  cases hget : schema.get? "required" with
  | none =>
      rw [hget] at h
      cases h
      rfl
  | some v =>
      rw [hget] at h
      cases h
      rfl

/-- `schema_problem` of what is no schema of an object. -/
theorem judges_rootless {problem : SchemaProblem} (hne : schema ≠ .obj [])
    (h : ∀ properties, ¬Root schema properties) :
    Judges (.ok (some problem)) (SupportedSchema schema) (StumblingSchema schema) := by
  refine Judges.object ?_ ?_
  · rintro (rfl | ⟨properties, hroot, -⟩)
    · exact hne rfl
    · exact h properties hroot
  · rintro ⟨properties, hroot, -⟩
    exact h properties hroot

/-- `schema_problem` past the checks of the root. -/
theorem judges_root {properties : List (PyStr × Json)} (h : Root schema properties) :
    Judges
      (do
        match ← propertiesProblem properties with
        | some problem => return some problem
        | none => requiredProblem properties ((schema.get? "required").getD (.arr [])))
      (SupportedSchema schema) (StumblingSchema schema) := by
  have hne : schema ≠ .obj [] := by
    rintro rfl
    obtain ⟨fields, hfields, heq, -⟩ := h
    cases heq
    exact hfields rfl
  have hsame : ∀ {other}, Root schema other → other = properties := by
    intro other hother
    rw [← hother.properties, h.properties]
  cases judges_properties properties with
  | accepts hr good fine =>
      rw [hr]
      refine (judges_required properties ((schema.get? "required").getD (.arr []))).congr ?_ ?_
      · constructor
        · rintro ⟨required, hreq, hall⟩
          exact Or.inr ⟨properties, h, good, required, hreq, hall⟩
        · rintro (heq | ⟨other, hother, -, required, hreq, hall⟩)
          · exact absurd heq hne
          · cases hsame hother
            exact ⟨required, hreq, hall⟩
      · constructor
        · rintro ⟨required, hreq, hst⟩
          exact ⟨properties, h, Or.inr ⟨good, required, hreq, hst⟩⟩
        · rintro ⟨other, hother, hst | ⟨-, required, hreq, hst⟩⟩
          · cases hsame hother
            exact absurd hst fine
          · cases hsame hother
            exact ⟨required, hreq, hst⟩
  | objects problem hr poor fine =>
      rw [hr]
      refine Judges.object ?_ ?_
      · rintro (heq | ⟨other, hother, good, -⟩)
        · exact hne heq
        · cases hsame hother
          exact poor good
      · rintro ⟨other, hother, hst | ⟨good, -⟩⟩
        · cases hsame hother
          exact fine hst
        · cases hsame hother
          exact poor good
  | raises hr poor bad =>
      rw [hr]
      refine Judges.raises rfl ?_ ⟨properties, h, Or.inl bad⟩
      rintro (heq | ⟨other, hother, good, -⟩)
      · exact hne heq
      · cases hsame hother
        exact poor good

/-- `schema_problem` past the check of the root's keywords. -/
theorem judges_fields {fields : List (PyStr × Json)} (hne : Json.obj fields ≠ .obj [])
    (hu : firstUnknown ROOT_KEYWORDS fields = none) :
    Judges
      (if (!Json.pyEq (getOrNull (.obj fields) "type") (.str "object".toList)) = true then
        .ok (some .rootType)
      else
        match (Json.get? (.obj fields) "additionalProperties").getD (.bool false) with
        | .bool false =>
            match (Json.get? (.obj fields) "properties").getD (.obj []) with
            | .obj properties => do
                match ← propertiesProblem properties with
                | some problem => return some problem
                | none =>
                    requiredProblem properties
                      ((Json.get? (.obj fields) "required").getD (.arr []))
            | _ => .ok (some .propertiesNotObject)
        | _ => .ok (some .additionalProperties))
      (SupportedSchema (.obj fields)) (StumblingSchema (.obj fields)) := by
  by_cases ht : typeIs (.obj fields) "object"
  · have hpy : Json.pyEq (getOrNull (.obj fields) "type") (.str "object".toList) = true :=
      Json.pyEq_of_str.2 (getOrNull_eq_str.2 ht)
    rw [hpy]
    simp only [Bool.not_true, Bool.false_eq_true, if_false]
    by_cases hadd : (Json.get? (.obj fields) "additionalProperties").getD (.bool false) = .bool false
    · rw [hadd]
      simp only
      have hroot : ∀ {properties}, (Json.get? (.obj fields) "properties").getD (.obj [])
          = .obj properties → Root (.obj fields) properties :=
        fun hprops => ⟨fields, fun h => hne (congrArg Json.obj h), rfl, hu, ht, hadd, hprops⟩
      cases hprops : (Json.get? (.obj fields) "properties").getD (.obj []) with
      | obj properties => exact judges_root (hroot hprops)
      | _ =>
          refine judges_rootless hne ?_
          rintro properties ⟨_, -, -, -, -, -, heq⟩
          cases hprops.symm.trans heq
    · have hother : ∀ properties, ¬Root (.obj fields) properties := by
        rintro properties ⟨_, -, -, -, -, heq, -⟩
        exact hadd heq
      split
      next heq => exact absurd heq hadd
      next => exact judges_rootless hne hother
  · have hpy : Json.pyEq (getOrNull (.obj fields) "type") (.str "object".toList) ≠ true :=
      fun h => ht (getOrNull_eq_str.1 (Json.pyEq_of_str.1 h))
    rw [if_pos (by simpa using hpy)]
    refine judges_rootless hne ?_
    rintro properties ⟨_, -, -, -, htype, -, -⟩
    exact ht htype

/-- `schema_problem` accepts the supported schemas, and raises where it
stumbles. -/
theorem judges_schema (schema : Json) :
    Judges (schemaProblem schema) (SupportedSchema schema) (StumblingSchema schema) := by
  have hnoobj : (∀ fields, schema ≠ .obj fields) → ∀ properties, ¬Root schema properties := by
    rintro hno properties ⟨fields, -, heq, -⟩
    exact hno fields heq
  cases schema with
  | obj fields =>
      cases fields with
      | nil =>
          refine Judges.accepts rfl (Or.inl rfl) ?_
          rintro ⟨properties, ⟨fields, hne, heq, -⟩, -⟩
          cases heq
          exact hne rfl
      | cons f fs =>
          have hne : Json.obj (f :: fs) ≠ .obj [] := fun h => by cases h
          cases hu : firstUnknown ROOT_KEYWORDS (f :: fs) with
          | some keyword =>
              simp only [schemaProblem, hu]
              refine judges_rootless hne ?_
              rintro properties ⟨fields, -, heq, hnone, -⟩
              cases heq
              rw [hu] at hnone
              cases hnone
          | none =>
              simp only [schemaProblem, hu]
              exact judges_fields hne hu
  | _ =>
      refine judges_rootless (fun h => ?_) (hnoobj fun fields h => ?_) <;> cases h

-- ===== arguments

theorem decides_known (properties : List (PyStr × Json)) : ∀ args : List (PyStr × Json),
    Decides (checkKnown properties args)
      (∀ a ∈ args, (Json.lookup properties a.1).isSome = true)
  | [] => Decides.ok fun a h => by cases h
  | (name, v) :: rest => by
      unfold checkKnown
      rw [List.forall_mem_cons]
      by_cases h : (Json.lookup properties name).isSome = true
      · rw [if_pos h]
        exact (decides_known properties rest).congr ⟨fun hr => ⟨h, hr⟩, fun hr => hr.2⟩
      · rw [if_neg h]
        exact Decides.throw fun hr => h hr.1

theorem decides_required (args : List (PyStr × Json)) : ∀ {required : List Json},
    (∀ item ∈ required, ∃ name, item = .str name) →
    Decides (checkRequired args required)
      (∀ name, Json.str name ∈ required → (Json.lookup args name).isSome = true)
  | [], _ => Decides.ok fun name h => by cases h
  | item :: rest, hall => by
      rw [List.forall_mem_cons] at hall
      obtain ⟨⟨name, rfl⟩, hrest⟩ := hall
      unfold checkRequired
      by_cases h : (Json.lookup args name).isSome = true
      · rw [if_pos h]
        refine (decides_required args hrest).congr ⟨fun hr other hother => ?_, fun hr other hother => ?_⟩
        · rcases List.mem_cons.1 hother with heq | hother
          · cases heq
            exact h
          · exact hr other hother
        · exact hr other (List.mem_cons_of_mem _ hother)
      · rw [if_neg h]
        exact Decides.throw fun hr => h (hr name List.mem_cons_self)

theorem decides_values {properties : List (PyStr × Json)}
    (hall : ∀ p ∈ properties, Supported p.2 ∧ WellFormed p.2) : ∀ {args : List (PyStr × Json)},
    (∀ a ∈ args, (Json.lookup properties a.1).isSome = true) →
    Decides (checkValues properties args)
      (∀ a ∈ args, ∃ spec, Json.lookup properties a.1 = some spec ∧ Fits pyMember spec a.2)
  | [], _ => Decides.ok fun a h => by cases h
  | (name, v) :: rest, hknown => by
      rw [List.forall_mem_cons] at hknown
      obtain ⟨hname, hrest⟩ := hknown
      obtain ⟨spec, hspec⟩ := Option.isSome_iff_exists.1 hname
      obtain ⟨hs, hw⟩ := hall _ (Json.lookup_mem hspec)
      unfold checkValues
      simp only [hspec]
      refine (Decides.bind (decides_value hs hw name v) fun _ => decides_values hall hrest).congr ?_
      rw [List.forall_mem_cons]
      refine and_congr_left fun _ => ⟨fun h => ⟨spec, hspec, h⟩, ?_⟩
      rintro ⟨other, hother, h⟩
      cases hspec.symm.trans hother
      exact h

/-- On a supported schema with legible keywords `check_arguments`
decides whether the arguments satisfy it, the rule for an `enum` being
its own. -/
theorem decides_arguments (hs : SupportedSchema schema)
    (hw : ∀ p ∈ propertiesOf schema, WellFormed p.2) (args : List (PyStr × Json)) :
    Decides (checkArguments schema args) (Satisfies pyMember schema args) := by
  have hprops : (∀ p ∈ propertiesOf schema, Supported p.2)
      ∧ ∀ item ∈ requiredOf schema, ∃ name, item = .str name := by
    rcases hs with rfl | ⟨properties, hroot, hgood, required, hreq, hdecl⟩
    · exact ⟨fun p h => (by cases h), fun p h => (by cases h)⟩
    · rw [hroot.properties, requiredOf_eq hreq]
      refine ⟨fun p hp => (hgood p hp).2, fun item hitem => ?_⟩
      obtain ⟨name, hname, -⟩ := hdecl item hitem
      exact ⟨name, hname⟩
  have hbody : checkArguments schema args = (do
      checkKnown (propertiesOf schema) args
      checkRequired args (requiredOf schema)
      checkValues (propertiesOf schema) args) := by
    unfold checkArguments
    rw [(judges_schema schema).accepts_iff.2 hs]
  rw [hbody]
  have hall : ∀ p ∈ propertiesOf schema, Supported p.2 ∧ WellFormed p.2 :=
    fun p hp => ⟨hprops.1 p hp, hw p hp⟩
  have hsteps := Decides.bind (decides_known (propertiesOf schema) args) fun hknown =>
    Decides.bind (decides_required args hprops.2) fun _ => decides_values hall hknown
  refine hsteps.congr ⟨fun ⟨_, hreq, hvals⟩ => ⟨hvals, hreq⟩, fun ⟨hvals, hreq⟩ => ⟨?_, hreq, hvals⟩⟩
  intro a ha
  obtain ⟨spec, hspec, -⟩ := hvals a ha
  rw [hspec]
  rfl

-- ===== exactness

/-- The source's promise for one schema: the problem finder returns;
and what it accepts it can enforce, every keyword that constrains having
a meaning, the check returning or raising `ArgumentError`, and returning
on exactly the arguments that satisfy the schema. -/
def Exact (schema : Json) : Prop :=
  (∃ found, schemaProblem schema = .ok found) ∧
  (schemaProblem schema = .ok none →
    (∀ p ∈ propertiesOf schema, WellFormed p.2) ∧
    ∀ args,
      (checkArguments schema args = .ok ()
        ∨ ∃ rejection, checkArguments schema args = .error (.argumentError rejection)) ∧
      (checkArguments schema args = .ok () ↔ Satisfies jsonMember schema args))

def Fillable (schema : Json) : Prop :=
  ∀ name, Json.str name ∈ requiredOf schema →
    ∃ spec v, Json.lookup (propertiesOf schema) name = some spec ∧ Fits pyMember spec v

/-- When enforcement is exact: no list or object stands first among the
schema's faults; and in a supported schema the keywords are legible and,
unless no call can pass at all, the `enum`s say the same under JSON's
equality as under the language's, and exclude no list. -/
def Enforceable (schema : Json) : Prop :=
  ¬StumblingSchema schema ∧
  (SupportedSchema schema →
    (∀ p ∈ propertiesOf schema, WellFormed p.2) ∧
    (Fillable schema →
      ∀ name spec, Json.lookup (propertiesOf schema) name = some spec → EnumExact spec))

theorem exists_filling (hf : Fillable schema) : ∀ {items : List Json},
    (∀ item ∈ items, item ∈ requiredOf schema) →
    ∃ args : List (PyStr × Json),
      (∀ a ∈ args, ∃ spec, Json.lookup (propertiesOf schema) a.1 = some spec
        ∧ Fits pyMember spec a.2)
      ∧ ∀ name, Json.str name ∈ items → (Json.lookup args name).isSome = true
  | [], _ => ⟨[], fun a h => (by cases h), fun name h => (by cases h)⟩
  | item :: rest, hall => by
      rw [List.forall_mem_cons] at hall
      obtain ⟨args, hfits, hthere⟩ := exists_filling hf hall.2
      cases item with
      | str name =>
          obtain ⟨spec, v, hspec, hv⟩ := hf name hall.1
          refine ⟨(name, v) :: args, ?_, fun other hother => ?_⟩
          · rw [List.forall_mem_cons]
            exact ⟨⟨spec, hspec, hv⟩, hfits⟩
          · rcases List.mem_cons.1 hother with heq | hother
            · cases heq
              exact Json.lookup_isSome.2 ⟨v, List.mem_cons_self⟩
            · obtain ⟨w, hw⟩ := Json.lookup_isSome.1 (hthere other hother)
              exact Json.lookup_isSome.2 ⟨w, List.mem_cons_of_mem _ hw⟩
      | _ =>
          refine ⟨args, hfits, fun other hother => hthere other ?_⟩
          rcases List.mem_cons.1 hother with heq | hother
          · cases heq
          · exact hother

theorem exists_args (hf : Fillable schema) {name : PyStr} {spec v : Json}
    (hspec : Json.lookup (propertiesOf schema) name = some spec) (hv : Fits pyMember spec v) :
    ∃ rest, Satisfies pyMember schema ((name, v) :: rest) := by
  obtain ⟨rest, hfits, hthere⟩ := exists_filling hf fun item h => h
  refine ⟨rest, ?_, fun other hother => ?_⟩
  · rw [List.forall_mem_cons]
    exact ⟨⟨spec, hspec, hv⟩, hfits⟩
  · obtain ⟨w, hw⟩ := Json.lookup_isSome.1 (hthere other hother)
    exact Json.lookup_isSome.2 ⟨w, List.mem_cons_of_mem _ hw⟩

theorem Satisfies.fillable {args : List (PyStr × Json)}
    (h : Satisfies pyMember schema args) : Fillable schema := by
  intro name hreq
  obtain ⟨v, hv⟩ := Json.lookup_isSome.1 (h.2 name hreq)
  obtain ⟨spec, hspec, hfits⟩ := h.1 _ hv
  exact ⟨spec, v, hspec, hfits⟩

/-- A supported property's schema: what fits by JSON's equality fits by
the checker's rule. -/
theorem py_of_json {spec v : Json} (hs : Supported spec) (h : Fits jsonMember spec v) :
    Fits pyMember spec v := by
  rcases hs with hs | ⟨items, ha, hs⟩
  · exact h.py_of_json hs
  · exact array_py_of_json ha hs h

theorem SupportedSchema.property (hs : SupportedSchema schema) {name : PyStr}
    (hspec : Json.lookup (propertiesOf schema) name = some spec) : Supported spec := by
  rcases hs with rfl | ⟨properties, hroot, hgood, -⟩
  · cases hspec
  · rw [hroot.properties] at hspec
    exact (hgood _ (Json.lookup_mem hspec)).2

/-- Where the `enum`s say the same, the checker's rule takes the
arguments that satisfy the schema. -/
theorem satisfies_iff (hs : SupportedSchema schema) (hw : ∀ p ∈ propertiesOf schema, WellFormed p.2)
    (he : Fillable schema →
      ∀ name spec, Json.lookup (propertiesOf schema) name = some spec → EnumExact spec)
    (args : List (PyStr × Json)) :
    Satisfies pyMember schema args ↔ Satisfies jsonMember schema args := by
  constructor
  · intro h
    refine ⟨fun a ha => ?_, h.2⟩
    obtain ⟨spec, hspec, hfits⟩ := h.1 a ha
    have hexact := he h.fillable _ _ hspec
    exact ⟨spec, hspec,
      (enumExact_iff (hs.property hspec) (hw _ (Json.lookup_mem hspec))).1 hexact _ hfits⟩
  · intro h
    refine ⟨fun a ha => ?_, h.2⟩
    obtain ⟨spec, hspec, hfits⟩ := h.1 a ha
    exact ⟨spec, hspec, py_of_json (hs.property hspec) hfits⟩

/-- Enforcement is exact on a schema just when it is `Enforceable`. -/
theorem schema_enforced_iff (schema : Json) : Exact schema ↔ Enforceable schema := by
  have hj := judges_schema schema
  constructor
  · rintro ⟨hreturns, hexact⟩
    refine ⟨hj.returns_iff.1 hreturns, fun hs => ?_⟩
    obtain ⟨hw, hall⟩ := hexact (hj.accepts_iff.2 hs)
    refine ⟨hw, fun hf name spec hspec => ?_⟩
    refine (enumExact_iff (hs.property hspec) (hw _ (Json.lookup_mem hspec))).2 fun v hv => ?_
    -- a value the checker takes stands in a call that passes
    obtain ⟨rest, hsat⟩ := exists_args hf hspec hv
    have hok := (decides_arguments hs hw ((name, v) :: rest)).iff.2 hsat
    obtain ⟨other, hother, hfits⟩ := ((hall _).2.1 hok).1 _ List.mem_cons_self
    cases hspec.symm.trans hother
    exact hfits
  · rintro ⟨hfine, hsupported⟩
    refine ⟨hj.returns_iff.2 hfine, fun hacc => ?_⟩
    have hs := hj.accepts_iff.1 hacc
    obtain ⟨hw, he⟩ := hsupported hs
    refine ⟨hw, fun args => ?_⟩
    have hdec := decides_arguments hs hw args
    exact ⟨hdec.total, hdec.iff.trans (satisfies_iff hs hw he args)⟩

/-- A property whose type is a list of types, as JSON Schema writes a
value that may be null. -/
def nullableSchema : Json :=
  .obj [("type".toList, .str "object".toList),
    ("properties".toList, .obj [("query".toList,
      .obj [("type".toList, .arr [.str "string".toList, .str "null".toList])])])]

/-- The problem finder raises on it. -/
theorem nullable_not_exact : ¬Exact nullableSchema := by
  rintro ⟨⟨found, hfound⟩, -⟩
  have hraises : schemaProblem nullableSchema = .error ⟨⟩ := by
    rfl
  rw [hraises] at hfound
  cases hfound

end Velune.Engine.ToolSchema
