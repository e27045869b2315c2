/-
What the canonical text of a tool call's arguments says.

The walk accepts a stack exactly when every reference on it is a tree within
the limits and the trees are not too many values together (`walk_ok_iff`); a
structure that holds itself is no tree. From there on it is the encoder's
round trip. One check is loose: a key may end in a line feed.
-/
import Velune.Engine.Arguments

namespace Velune.Engine.Arguments

open Lib Lib.JsonText

-- ===== strings

theorem chars?_eq_some : ∀ {s : Str} {t : PyStr}, chars? s = some t ↔ s = ofText t
  | [], t => by
      rw [chars?, Option.some.injEq]
      cases t with
      | nil => exact ⟨fun _ => rfl, fun _ => rfl⟩
      | cons c t => exact ⟨fun h => (by cases h), fun h => (by cases h)⟩
  | .char c :: s, t => by
      rw [chars?, Option.map_eq_some_iff]
      constructor
      · intro h
        obtain ⟨t, ht, rfl⟩ := h
        rw [chars?_eq_some.1 ht]
        rfl
      · intro h
        cases t with
        | nil => cases h
        | cons d t =>
            obtain ⟨hc, hs⟩ := List.cons.inj h
            obtain rfl := CodePoint.char.inj hc
            exact ⟨t, chars?_eq_some.2 hs, rfl⟩
  | .high n :: s, t => by
      cases t with
      | nil => exact ⟨fun h => (by cases h), fun h => (by cases h)⟩
      | cons d t => exact ⟨fun h => (by cases h), fun h => (by cases h)⟩
  | .low n :: s, t => by
      cases t with
      | nil => exact ⟨fun h => (by cases h), fun h => (by cases h)⟩
      | cons d t => exact ⟨fun h => (by cases h), fun h => (by cases h)⟩

theorem unpaired_ofText : ∀ t : PyStr, Unpaired (ofText t)
  | [] => trivial
  | _ :: t => unpaired_ofText t

theorem ofText_injective : Function.Injective ofText :=
  List.map_injective_iff.2 fun _ _ h => CodePoint.char.inj h

/-- A letter or an underscore, and up to 63 letters, digits and underscores. -/
def Identifier (key : Str) : Prop :=
  ∃ text, key = ofText text ∧
    Text.headed (fun c => Text.isLower c || Text.isUpper c || c == '_')
      (fun c => Text.isAlnum c || c == '_') 63 text = true

def EndsInLineFeed (key : Str) : Prop := key.getLast? = some (.char '\n')

instance (key : Str) : Decidable (EndsInLineFeed key) :=
  inferInstanceAs (Decidable (key.getLast? = some (.char '\n')))

/-- The check takes identifiers, and one with a line feed behind it. -/
theorem matchesKey_iff (key : Str) :
    matchesKey key = true ↔ Identifier key ∨ EndsInLineFeed key ∧ Identifier key.dropLast := by
  have hdrop : ∀ text : PyStr, (ofText text).dropLast = ofText text.dropLast := fun text =>
    (List.map_dropLast ..).symm
  have hlast : ∀ text : PyStr, EndsInLineFeed (ofText text) ↔ text.getLast? = some '\n' := by
    intro text
    unfold EndsInLineFeed ofText
    rw [List.getLast?_map, Option.map_eq_some_iff]
    exact ⟨fun ⟨c, hc, heq⟩ => (by rwa [CodePoint.char.inj heq] at hc), fun h => ⟨_, h, rfl⟩⟩
  unfold matchesKey
  cases hchars : chars? key with
  | some text =>
      obtain rfl := chars?_eq_some.1 hchars
      have hsimple : ∀ t : PyStr, Identifier (ofText t) ↔
          Text.headed (fun c => Text.isLower c || Text.isUpper c || c == '_')
            (fun c => Text.isAlnum c || c == '_') 63 t = true := by
        intro t
        refine ⟨fun h => ?_, fun h => ⟨t, rfl, h⟩⟩
        obtain ⟨u, hu, h⟩ := h
        rwa [ofText_injective hu]
      show ToolSchema.isKey text = true ↔ _
      rw [hdrop, hlast, hsimple, hsimple, ToolSchema.isKey, Bool.or_eq_true, Bool.and_eq_true,
        beq_iff_eq]
  | none =>
      refine ⟨fun h => (by cases h), fun h => ?_⟩
      have hnone : ∀ t : PyStr, key ≠ ofText t := fun t heq => by
        rw [chars?_eq_some.2 heq] at hchars
        cases hchars
      rcases h with ⟨t, ht, -⟩ | ⟨hfeed, t, ht, -⟩
      · exact absurd ht (hnone t)
      · have hkey : key = key.dropLast ++ [.char '\n'] := by
          rw [List.dropLast_append_getLast?]
          exact hfeed
        rw [ht] at hkey
        refine absurd (hkey.trans ?_) (hnone (t ++ ['\n']))
        simp [ofText]

-- ===== trees

section Trees

variable {ρ : Type} (heap : Heap ρ)

mutual

def Heap.Is : Value → ρ → Prop
  | .null, r => heap.look r = .none
  | .bool b, r => heap.look r = .bool b
  | .int n, r => heap.look r = .int n
  | .float _, _ => False
  | .str s, r => heap.look r = .str s
  | .list xs, r => ∃ items, heap.look r = .list items ∧ Heap.IsItems xs items
  | .dict es, r => ∃ entries, heap.look r = .dict entries ∧ Heap.IsEntries es entries

def Heap.IsItems : List Value → List ρ → Prop
  | [], [] => True
  | x :: xs, r :: rs => Heap.Is x r ∧ Heap.IsItems xs rs
  | _, _ => False

def Heap.IsEntries : List (Str × Value) → List (Option Str × ρ) → Prop
  | [], [] => True
  | (k, v) :: es, (key, r) :: rs => key = some k ∧ Heap.Is v r ∧ Heap.IsEntries es rs
  | _, _ => False

end

variable {heap}

theorem isItems_iff : ∀ {xs : List Value} {rs : List ρ},
    heap.IsItems xs rs ↔ List.Forall₂ heap.Is xs rs
  | [], [] => ⟨fun _ => .nil, fun _ => trivial⟩
  | [], r :: rs => ⟨fun h => absurd h id, fun h => (by cases h)⟩
  | x :: xs, [] => ⟨fun h => absurd h id, fun h => (by cases h)⟩
  | x :: xs, r :: rs => by
      rw [List.forall₂_cons, ← isItems_iff]
      rfl

def IsEntry (heap : Heap ρ) (d : Str × Value) (e : Option Str × ρ) : Prop :=
  e.1 = some d.1 ∧ heap.Is d.2 e.2

theorem isEntries_iff : ∀ {es : List (Str × Value)} {rs : List (Option Str × ρ)},
    heap.IsEntries es rs ↔ List.Forall₂ (IsEntry heap) es rs
  | [], [] => ⟨fun _ => .nil, fun _ => trivial⟩
  | [], r :: rs => ⟨fun h => absurd h id, fun h => (by cases h)⟩
  | (k, v) :: es, [] => ⟨fun h => absurd h id, fun h => (by cases h)⟩
  | (k, v) :: es, (key, r) :: rs => by
      rw [List.forall₂_cons, ← isEntries_iff, IsEntry, and_assoc]
      rfl

theorem mapM_eq_some {α β : Type} {f : α → Option β} : ∀ {as : List α} {bs : List β},
    as.mapM f = some bs ↔ List.Forall₂ (fun b a => f a = some b) bs as
  | [], bs => by
      rw [List.mapM_nil, List.forall₂_nil_right_iff]
      exact ⟨fun h => (Option.some.inj h).symm, fun h => (by rw [h]; rfl)⟩
  | a :: as, bs => by
      rw [List.mapM_cons, List.forall₂_cons_right_iff]
      simp only [Option.bind_eq_bind, Option.bind_eq_some_iff, Option.pure_def, Option.some.injEq]
      constructor
      · intro h
        obtain ⟨b, hb, bs', hbs, rfl⟩ := h
        exact ⟨b, bs', hb, mapM_eq_some.1 hbs, rfl⟩
      · intro h
        obtain ⟨b, bs', hb, hbs, rfl⟩ := h
        exact ⟨b, hb, bs', mapM_eq_some.2 hbs, rfl⟩

theorem forall₂_congr_left {α β : Type} {R S : α → β → Prop} {as : List α} {bs : List β}
    (h : ∀ a ∈ as, ∀ b, R a b ↔ S a b) : List.Forall₂ R as bs ↔ List.Forall₂ S as bs := by
  induction as generalizing bs with
  | nil => rw [List.forall₂_nil_left_iff, List.forall₂_nil_left_iff]
  | cons a as ih =>
      obtain ⟨ha, has⟩ := List.forall_mem_cons.1 h
      rw [List.forall₂_cons_left_iff, List.forall₂_cons_left_iff]
      simp only [ha, ih has]

/-- The tree is found when it has no more levels than are looked at. -/
theorem tree_eq_some (t : Value) : ∀ {n : Nat} {r : ρ},
    heap.tree n r = some t ↔ t.levels ≤ n ∧ heap.Is t r := by
  have hzero : ∀ {t : Value} {r : ρ}, heap.tree 0 r = some t ↔ t.levels ≤ 0 ∧ heap.Is t r := by
    intro t r
    exact ⟨fun h => (by cases h), fun h => absurd h.1 (Nat.not_le_of_lt (levels_pos t))⟩
  induction t using Value.parts with
  | list xs ih =>
      intro n r
      cases n with
      | zero => exact hzero
      | succ n =>
          have hlevels : (Value.list xs).levels ≤ n + 1 ↔ ∀ x ∈ xs, x.levels ≤ n := by
            rw [← levelsItems_le_iff]
            exact Nat.add_le_add_iff_right
          have hitems : ∀ items : List ρ, (items.mapM (heap.tree n)).map Value.list = some (.list xs) ↔
              (Value.list xs).levels ≤ n + 1 ∧ heap.IsItems xs items := by
            intro items
            rw [Option.map_eq_some_iff, hlevels, isItems_iff, ← List.forall₂_and_left]
            simp only [Value.list.injEq, exists_eq_right, mapM_eq_some]
            exact forall₂_congr_left fun x hx r => ih x hx
          rw [Heap.tree, Heap.Is]
          cases hlook : heap.look r with
          | list items =>
              dsimp only
              rw [hitems]
              simp
          | _ => simp
  | dict es ih =>
      intro n r
      cases n with
      | zero => exact hzero
      | succ n =>
          have hlevels : (Value.dict es).levels ≤ n + 1 ↔ ∀ e ∈ es, e.2.levels ≤ n := by
            rw [← levelsEntries_le_iff]
            exact Nat.add_le_add_iff_right
          have hentries : ∀ entries : List (Option Str × ρ),
              (entries.mapM fun (e : Option Str × ρ) => e.1.bind fun key =>
                (heap.tree n e.2).map fun v => (key, v)).map Value.dict = some (.dict es) ↔
              (Value.dict es).levels ≤ n + 1 ∧ heap.IsEntries es entries := by
            intro entries
            rw [Option.map_eq_some_iff, hlevels, isEntries_iff, ← List.forall₂_and_left]
            simp only [Value.dict.injEq, exists_eq_right, mapM_eq_some]
            refine forall₂_congr_left fun d hd e => ?_
            rw [IsEntry, and_left_comm, ← ih d hd]
            constructor
            · intro h
              obtain ⟨key, hkey, h⟩ := Option.bind_eq_some_iff.1 h
              obtain ⟨v, hv, rfl⟩ := Option.map_eq_some_iff.1 h
              exact ⟨hkey, hv⟩
            · intro h
              rw [h.1, Option.bind_some, h.2]
              rfl
          rw [Heap.tree, Heap.Is]
          cases hlook : heap.look r with
          | dict entries =>
              dsimp only
              rw [hentries]
              simp
          | _ => simp
  | _ =>
      intro n r
      cases n with
      | zero => exact hzero
      | succ n =>
          show heap.tree (n + 1) r = _ ↔ 1 ≤ n + 1 ∧ _
          rw [and_iff_right (Nat.le_add_left 1 n), Heap.tree]
          unfold Heap.Is
          cases hlook : heap.look r <;> simp

theorem is_unique {t u : Value} {r : ρ} (ht : heap.Is t r) (hu : heap.Is u r) : t = u := by
  have ht' := (tree_eq_some t).2 ⟨Nat.le_max_left t.levels u.levels, ht⟩
  have hu' := (tree_eq_some u).2 ⟨Nat.le_max_right t.levels u.levels, hu⟩
  exact Option.some.inj (ht'.symm.trans hu')

-- ===== walk

/-- The limits on one value, apart from those on all of them together. -/
def Fair : Value → Prop
  | .int n => n.natAbs ≤ MAX_SAFE_INT
  | .float _ => False
  | .str s => s.length ≤ MAX_STRING_CHARS ∧ CodePoint.char (Char.ofNat 0) ∉ s ∧ ∃ text, s = ofText text
  | .list xs => xs.length ≤ MAX_ARRAY_ITEMS
  | .dict es => es.length ≤ MAX_KEYS
  | _ => True

theorem checkString_ok_iff (s : Str) : checkString s = .ok () ↔ Fair (.str s) := by
  have hchars : (∃ text, s = ofText text) ↔ chars? s ≠ none := by
    rw [Option.ne_none_iff_exists']
    exact exists_congr fun text => chars?_eq_some.symm
  show checkString s = .ok () ↔ s.length ≤ MAX_STRING_CHARS ∧
    CodePoint.char (Char.ofNat 0) ∉ s ∧ ∃ text, s = ofText text
  unfold checkString
  rw [hchars]
  by_cases hlong : MAX_STRING_CHARS < s.length
  · rw [if_pos hlong]
    exact ⟨fun h => (by cases h), fun h => absurd h.1 (Nat.not_le_of_lt hlong)⟩
  rw [if_neg hlong, and_iff_right (Nat.le_of_not_lt hlong)]
  by_cases hnul : CodePoint.char (Char.ofNat 0) ∈ s
  · rw [if_pos hnul]
    exact ⟨fun h => (by cases h), fun h => absurd hnul h.1⟩
  rw [if_neg hnul, and_iff_right hnul]
  by_cases hvalid : chars? s = none
  · rw [if_pos hvalid]
    exact ⟨fun h => (by cases h), fun h => absurd hvalid h⟩
  · rw [if_neg hvalid]
    exact ⟨fun _ => hvalid, fun _ => rfl⟩

/-- A reference on the stack is a tree that may stand at its depth. -/
def Fits (heap : Heap ρ) (t : Value) (e : ρ × Nat) : Prop :=
  heap.Is t e.1 ∧ t.levels + e.2 ≤ MAX_DEPTH + 1 ∧ t.All Fair fun key => matchesKey key = true

def total (ts : List Value) : Nat := (ts.map Value.size).sum

theorem total_cons (t : Value) (ts : List Value) : total (t :: ts) = t.size + total ts := by
  rw [total, List.map_cons, List.sum_cons, total]

theorem push_iff {kids : List (ρ × Nat)} {stack : List (ρ × Nat)} {n : Nat} :
    (∃ ts, List.Forall₂ (Fits heap) ts (kids.reverse ++ stack) ∧ total ts ≤ n) ↔
      ∃ us ts, List.Forall₂ (Fits heap) us kids ∧ List.Forall₂ (Fits heap) ts stack ∧
        total us + total ts ≤ n := by
  have hsum : ∀ us ts : List Value, total (us.reverse ++ ts) = total us + total ts := by
    intro us ts
    rw [total, List.map_append, List.sum_append, List.map_reverse, List.sum_reverse]
    rfl
  constructor
  · intro h
    obtain ⟨ts, hts, hn⟩ := h
    have hfront := List.forall₂_take_append ts kids.reverse stack hts
    have hback := List.forall₂_drop_append ts kids.reverse stack hts
    refine ⟨(ts.take kids.reverse.length).reverse, ts.drop kids.reverse.length, ?_, hback, ?_⟩
    · rw [← List.forall₂_reverse_iff, List.reverse_reverse]
      exact hfront
    · rwa [← hsum, List.reverse_reverse, List.take_append_drop]
  · intro h
    obtain ⟨us, ts, hus, hts, hn⟩ := h
    refine ⟨us.reverse ++ ts, ?_, by rwa [hsum]⟩
    exact List.rel_append (List.rel_reverse hus) hts

theorem any_matchesKey {key : Option Str} (h : key.any matchesKey = true) :
    ∃ k, key = some k ∧ matchesKey k = true := by
  cases key with
  | none => cases h
  | some k => exact ⟨k, rfl, h⟩

theorem entries_fit {depth : Nat} : ∀ {entries : List (Option Str × ρ)} {us : List Value},
    (entries.all (fun e => e.1.any matchesKey) = true ∧
        List.Forall₂ (Fits heap) us (entries.map fun e => (e.2, depth))) ↔
      ∃ es : List (Str × Value), us = es.map Prod.snd ∧
        List.Forall₂ (fun d e => matchesKey d.1 = true ∧ e.1 = some d.1 ∧
          Fits heap d.2 (e.2, depth)) es entries
  | [], us => by
      rw [List.map_nil, List.forall₂_nil_right_iff]
      constructor
      · intro h
        exact ⟨[], h.2, .nil⟩
      · intro h
        obtain ⟨es, rfl, hes⟩ := h
        rw [List.forall₂_nil_right_iff.1 hes]
        exact ⟨rfl, rfl⟩
  | e :: entries, us => by
      rw [List.all_cons, Bool.and_eq_true, List.map_cons, List.forall₂_cons_right_iff]
      constructor
      · intro h
        obtain ⟨⟨hkey, hkeys⟩, u, us, hu, hus, rfl⟩ := h
        obtain ⟨es, rfl, hes⟩ := entries_fit.1 ⟨hkeys, hus⟩
        obtain ⟨key, hsome, hmatch⟩ := any_matchesKey hkey
        exact ⟨(key, u) :: es, rfl, .cons ⟨hmatch, hsome, hu⟩ hes⟩
      · intro h
        obtain ⟨es, rfl, hes⟩ := h
        obtain ⟨d, es, ⟨hmatch, hsome, hd⟩, hrest, rfl⟩ := List.forall₂_cons_right_iff.1 hes
        obtain ⟨hkeys, hus⟩ := entries_fit.2 ⟨es, rfl, hrest⟩
        refine ⟨⟨?_, hkeys⟩, d.2, es.map Prod.snd, hd, hus, rfl⟩
        rw [hsome]
        exact hmatch

theorem depth_iff {γ : Type} {f : γ → Nat} {most : Nat} {parts : List γ}
    (hmost : ∀ k, most ≤ k ↔ ∀ x ∈ parts, f x ≤ k) {depth : Nat} (hdepth : depth ≤ MAX_DEPTH) :
    most + 1 + depth ≤ MAX_DEPTH + 1 ↔ ∀ x ∈ parts, f x + (depth + 1) ≤ MAX_DEPTH + 1 := by
  have hstep : ∀ k, k + (depth + 1) ≤ MAX_DEPTH + 1 ↔ k ≤ MAX_DEPTH - depth := by omega
  rw [Nat.add_assoc, Nat.add_comm 1, hstep, hmost]
  exact forall₂_congr fun x _ => (hstep _).symm

theorem dict_fits {r : ρ} {entries : List (Option Str × ρ)} (hlook : heap.look r = .dict entries)
    {depth : Nat} (hdepth : depth ≤ MAX_DEPTH) {n : Nat} :
    (∃ t, Fits heap t (r, depth) ∧ t.size ≤ n) ↔
      entries.length ≤ MAX_KEYS ∧ entries.all (fun e => e.1.any matchesKey) = true ∧
        ∃ us, List.Forall₂ (Fits heap) us (entries.map fun e => (e.2, depth + 1)) ∧
          total us + 1 ≤ n := by
  have hfits : ∀ es : List (Str × Value), Fits heap (.dict es) (r, depth) ↔
      es.length ≤ MAX_KEYS ∧ List.Forall₂ (fun d e => matchesKey d.1 = true ∧ e.1 = some d.1 ∧
        Fits heap d.2 (e.2, depth + 1)) es entries := by
    intro es
    have his : heap.Is (.dict es) r ↔ List.Forall₂ (IsEntry heap) es entries := by
      rw [← isEntries_iff, Heap.Is]
      constructor
      · intro h
        obtain ⟨entries', hlook', h⟩ := h
        rw [hlook] at hlook'
        cases hlook'
        exact h
      · exact fun h => ⟨entries, hlook, h⟩
    have hlevels : (Value.dict es).levels + depth ≤ MAX_DEPTH + 1 ↔
        ∀ d ∈ es, d.2.levels + (depth + 1) ≤ MAX_DEPTH + 1 :=
      depth_iff (fun _ => levelsEntries_le_iff) hdepth
    have hall : (Value.dict es).All Fair (fun key => matchesKey key = true) ↔
        es.length ≤ MAX_KEYS ∧ ∀ d ∈ es, matchesKey d.1 = true ∧
          d.2.All Fair fun key => matchesKey key = true := by
      show Fair (.dict es) ∧ AllEntries Fair _ es ↔ _
      rw [allEntries_iff]
      rfl
    have hentries : List.Forall₂ (fun d e => matchesKey d.1 = true ∧ e.1 = some d.1 ∧
          Fits heap d.2 (e.2, depth + 1)) es entries ↔
        (∀ d ∈ es, matchesKey d.1 = true ∧ d.2.levels + (depth + 1) ≤ MAX_DEPTH + 1 ∧
          d.2.All Fair fun key => matchesKey key = true) ∧
          List.Forall₂ (IsEntry heap) es entries := by
      rw [← List.forall₂_and_left]
      refine forall₂_congr_left fun d _ e => ?_
      constructor
      · intro h
        obtain ⟨hkey, hsome, his, hlev, hparts⟩ := h
        exact ⟨⟨hkey, hlev, hparts⟩, hsome, his⟩
      · intro h
        obtain ⟨⟨hkey, hlev, hparts⟩, hsome, his⟩ := h
        exact ⟨hkey, hsome, his, hlev, hparts⟩
    show heap.Is (.dict es) r ∧ _ ∧ _ ↔ _
    rw [his, hlevels, hall, hentries]
    constructor
    · intro h
      obtain ⟨his, hlev, hcount, hparts⟩ := h
      exact ⟨hcount, fun d hd => ⟨(hparts d hd).1, hlev d hd, (hparts d hd).2⟩, his⟩
    · intro h
      obtain ⟨hcount, hparts, his⟩ := h
      exact ⟨his, fun d hd => (hparts d hd).2.1, hcount,
        fun d hd => ⟨(hparts d hd).1, (hparts d hd).2.2⟩⟩
  have hsize : ∀ es : List (Str × Value), (Value.dict es).size = total (es.map Prod.snd) + 1 := by
    intro es
    show sizeEntries es + 1 = _
    rw [sizeEntries_eq_sum, total, List.map_map]
    rfl
  constructor
  · intro h
    obtain ⟨t, ht, hn⟩ := h
    obtain ⟨es, rfl⟩ : ∃ es, t = .dict es := by
      have his := ht.1
      cases t with
      | dict es => exact ⟨es, rfl⟩
      | float _ => exact absurd his id
      | list xs =>
          obtain ⟨items, hitems, -⟩ := his
          rw [hlook] at hitems
          cases hitems
      | _ =>
          rw [Heap.Is, hlook] at his
          cases his
    obtain ⟨hcount, hes⟩ := (hfits es).1 ht
    obtain ⟨hkeys, hus⟩ := entries_fit.2 ⟨es, rfl, hes⟩
    refine ⟨hes.length_eq ▸ hcount, hkeys, _, hus, ?_⟩
    rwa [← hsize]
  · intro h
    obtain ⟨hcount, hkeys, us, hus, hn⟩ := h
    obtain ⟨es, rfl, hes⟩ := entries_fit.1 ⟨hkeys, hus⟩
    refine ⟨.dict es, (hfits es).2 ⟨hes.length_eq.symm ▸ hcount, hes⟩, ?_⟩
    rwa [hsize]

theorem list_fits {r : ρ} {items : List ρ} (hlook : heap.look r = .list items) {depth : Nat}
    (hdepth : depth ≤ MAX_DEPTH) {n : Nat} :
    (∃ t, Fits heap t (r, depth) ∧ t.size ≤ n) ↔
      items.length ≤ MAX_ARRAY_ITEMS ∧
        ∃ us, List.Forall₂ (Fits heap) us (items.map fun item => (item, depth + 1)) ∧
          total us + 1 ≤ n := by
  have hfits : ∀ xs : List Value, Fits heap (.list xs) (r, depth) ↔
      xs.length ≤ MAX_ARRAY_ITEMS ∧
        List.Forall₂ (Fits heap) xs (items.map fun item => (item, depth + 1)) := by
    intro xs
    have his : heap.Is (.list xs) r ↔ List.Forall₂ heap.Is xs items := by
      rw [← isItems_iff, Heap.Is]
      constructor
      · intro h
        obtain ⟨items', hlook', h⟩ := h
        rw [hlook] at hlook'
        cases hlook'
        exact h
      · exact fun h => ⟨items, hlook, h⟩
    have hlevels : (Value.list xs).levels + depth ≤ MAX_DEPTH + 1 ↔
        ∀ x ∈ xs, x.levels + (depth + 1) ≤ MAX_DEPTH + 1 :=
      depth_iff (fun _ => levelsItems_le_iff) hdepth
    have hall : (Value.list xs).All Fair (fun key => matchesKey key = true) ↔
        xs.length ≤ MAX_ARRAY_ITEMS ∧ ∀ x ∈ xs, x.All Fair fun key => matchesKey key = true := by
      show Fair (.list xs) ∧ AllItems Fair _ xs ↔ _
      rw [allItems_iff]
      rfl
    have hitems : List.Forall₂ (Fits heap) xs (items.map fun item => (item, depth + 1)) ↔
        (∀ x ∈ xs, x.levels + (depth + 1) ≤ MAX_DEPTH + 1 ∧
          x.All Fair fun key => matchesKey key = true) ∧ List.Forall₂ heap.Is xs items := by
      rw [← List.forall₂_and_left, List.forall₂_map_right_iff]
      exact forall₂_congr_left fun x _ item => and_comm
    show heap.Is (.list xs) r ∧ _ ∧ _ ↔ _
    rw [his, hlevels, hall, hitems]
    constructor
    · intro h
      obtain ⟨his, hlev, hcount, hparts⟩ := h
      exact ⟨hcount, fun x hx => ⟨hlev x hx, hparts x hx⟩, his⟩
    · intro h
      obtain ⟨hcount, hparts, his⟩ := h
      exact ⟨his, fun x hx => (hparts x hx).1, hcount, fun x hx => (hparts x hx).2⟩
  have hsize : ∀ xs : List Value, (Value.list xs).size = total xs + 1 := by
    intro xs
    show sizeItems xs + 1 = _
    rw [sizeItems_eq_sum]
    rfl
  constructor
  · intro h
    obtain ⟨t, ht, hn⟩ := h
    obtain ⟨xs, rfl⟩ : ∃ xs, t = .list xs := by
      have his := ht.1
      cases t with
      | list xs => exact ⟨xs, rfl⟩
      | float _ => exact absurd his id
      | dict es =>
          obtain ⟨entries, hentries, -⟩ := his
          rw [hlook] at hentries
          cases hentries
      | _ =>
          rw [Heap.Is, hlook] at his
          cases his
    obtain ⟨hcount, hxs⟩ := (hfits xs).1 ht
    refine ⟨?_, xs, hxs, by rwa [← hsize]⟩
    rwa [hxs.length_eq, List.length_map] at hcount
  · intro h
    obtain ⟨hcount, xs, hxs, hn⟩ := h
    refine ⟨.list xs, (hfits xs).2 ⟨?_, hxs⟩, by rwa [hsize]⟩
    rwa [hxs.length_eq, List.length_map]

theorem flat_fits {r : ρ} {v : Value} (his : ∀ t, heap.Is t r ↔ t = v) (hlevels : v.levels = 1)
    (hsize : v.size = 1) (hall : (v.All Fair fun key => matchesKey key = true) ↔ Fair v)
    {depth : Nat} (hdepth : depth ≤ MAX_DEPTH) {n : Nat} :
    (∃ t, Fits heap t (r, depth) ∧ t.size ≤ n) ↔ Fair v ∧ 1 ≤ n := by
  constructor
  · intro h
    obtain ⟨t, ⟨ht, -, hparts⟩, hn⟩ := h
    obtain rfl := (his t).1 ht
    exact ⟨hall.1 hparts, hsize ▸ hn⟩
  · intro h
    refine ⟨v, ⟨(his v).2 rfl, ?_, hall.2 h.1⟩, hsize.symm ▸ h.2⟩
    show v.levels + depth ≤ MAX_DEPTH + 1
    omega

theorem pop_iff {e : ρ × Nat} {stack : List (ρ × Nat)} {n : Nat} :
    (∃ ts, List.Forall₂ (Fits heap) ts (e :: stack) ∧ total ts ≤ n) ↔
      ∃ ts, List.Forall₂ (Fits heap) ts stack ∧
        ∃ t, Fits heap t e ∧ t.size ≤ n - total ts := by
  constructor
  · intro h
    obtain ⟨ts, hts, hn⟩ := h
    obtain ⟨t, rest, ht, hrest, rfl⟩ := List.forall₂_cons_right_iff.1 hts
    rw [total_cons] at hn
    exact ⟨rest, hrest, t, ht, by omega⟩
  · intro h
    obtain ⟨ts, hts, t, ht, hn⟩ := h
    have hpos := size_pos t
    refine ⟨t :: ts, .cons ht hts, ?_⟩
    rw [total_cons]
    omega

/-- The walk goes through when all that is on the stack is trees within the
limits, and not too much of it. -/
theorem walk_ok_iff : ∀ (left : Nat) (stack : List (ρ × Nat)),
    walk heap left stack = .ok () ↔
      ∃ ts, List.Forall₂ (Fits heap) ts stack ∧ total ts ≤ left
  | left, [] => by
      rw [walk]
      exact ⟨fun _ => ⟨[], .nil, Nat.zero_le left⟩, fun _ => rfl⟩
  | 0, (r, depth) :: stack => by
      rw [pop_iff]
      refine ⟨fun h => (by cases h), fun h => ?_⟩
      obtain ⟨ts, -, t, -, hn⟩ := h
      have hpos := size_pos t
      omega
  | left + 1, (r, depth) :: stack => by
      rw [pop_iff, walk]
      by_cases hdeep : MAX_DEPTH < depth
      · rw [if_pos hdeep]
        refine ⟨fun h => (by cases h), fun h => ?_⟩
        obtain ⟨ts, -, t, ⟨-, hlevels, -⟩, -⟩ := h
        have hpos := levels_pos t
        have hlevels : t.levels + depth ≤ MAX_DEPTH + 1 := hlevels
        omega
      · rw [if_neg hdeep]
        have hdepth := Nat.le_of_not_lt hdeep
        -- a value that holds no others leaves the rest of the stack
        have hflat : ∀ v : Value, (∀ t, heap.Is t r ↔ t = v) → v.levels = 1 → v.size = 1 →
            ((v.All Fair fun key => matchesKey key = true) ↔ Fair v) →
            (Fair v ∧ walk heap left stack = .ok () ↔
              ∃ ts, List.Forall₂ (Fits heap) ts stack ∧
                ∃ t, Fits heap t (r, depth) ∧ t.size ≤ left + 1 - total ts) := by
          intro v his hlevels hsize hall
          rw [walk_ok_iff left stack]
          constructor
          · intro h
            obtain ⟨hfair, ts, hts, hn⟩ := h
            exact ⟨ts, hts, (flat_fits his hlevels hsize hall hdepth).2 ⟨hfair, by omega⟩⟩
          · intro h
            obtain ⟨ts, hts, ht⟩ := h
            obtain ⟨hfair, hn⟩ := (flat_fits his hlevels hsize hall hdepth).1 ht
            exact ⟨hfair, ts, hts, by omega⟩
        have his : ∀ v, heap.Is v r → ∀ t, heap.Is t r ↔ t = v :=
          fun v hv t => ⟨fun ht => is_unique ht hv, fun heq => heq ▸ hv⟩
        cases hlook : heap.look r with
        | other kind =>
            refine ⟨fun h => (by cases h), fun h => ?_⟩
            obtain ⟨ts, -, t, ⟨ht, -⟩, -⟩ := h
            have htree := (tree_eq_some t).2 ⟨Nat.le_succ t.levels, ht⟩
            rw [Heap.tree, hlook] at htree
            cases htree
        | dict entries =>
            dsimp only
            have hpush := @push_iff ρ heap (entries.map fun e => (e.2, depth + 1)) stack left
            rw [← walk_ok_iff left] at hpush
            by_cases hmany : MAX_KEYS < entries.length
            · rw [if_pos hmany]
              refine ⟨fun h => (by cases h), fun h => ?_⟩
              obtain ⟨ts, -, ht⟩ := h
              exact absurd ((dict_fits hlook hdepth).1 ht).1 (Nat.not_le_of_lt hmany)
            rw [if_neg hmany]
            by_cases hkeys : entries.all (fun e => e.1.any matchesKey) = true
            · rw [if_pos hkeys, hpush]
              constructor
              · intro h
                obtain ⟨us, ts, hus, hts, hn⟩ := h
                refine ⟨ts, hts, (dict_fits hlook hdepth).2
                  ⟨Nat.le_of_not_lt hmany, hkeys, us, hus, by omega⟩⟩
              · intro h
                obtain ⟨ts, hts, ht⟩ := h
                obtain ⟨-, -, us, hus, hn⟩ := (dict_fits hlook hdepth).1 ht
                exact ⟨us, ts, hus, hts, by omega⟩
            · rw [if_neg hkeys]
              refine ⟨fun h => (by cases h), fun h => ?_⟩
              obtain ⟨ts, -, ht⟩ := h
              exact absurd ((dict_fits hlook hdepth).1 ht).2.1 hkeys
        | list items =>
            dsimp only
            have hpush := @push_iff ρ heap (items.map fun item => (item, depth + 1)) stack left
            rw [← walk_ok_iff left] at hpush
            by_cases hmany : MAX_ARRAY_ITEMS < items.length
            · rw [if_pos hmany]
              refine ⟨fun h => (by cases h), fun h => ?_⟩
              obtain ⟨ts, -, ht⟩ := h
              exact absurd ((list_fits hlook hdepth).1 ht).1 (Nat.not_le_of_lt hmany)
            rw [if_neg hmany, hpush]
            constructor
            · intro h
              obtain ⟨us, ts, hus, hts, hn⟩ := h
              refine ⟨ts, hts, (list_fits hlook hdepth).2
                ⟨Nat.le_of_not_lt hmany, us, hus, by omega⟩⟩
            · intro h
              obtain ⟨ts, hts, ht⟩ := h
              obtain ⟨-, us, hus, hn⟩ := (list_fits hlook hdepth).1 ht
              exact ⟨us, ts, hus, hts, by omega⟩
        | str s =>
            dsimp only
            rw [← hflat (.str s) (his _ hlook) rfl rfl Iff.rfl,
              ← checkString_ok_iff]
            cases hcheck : checkString s with
            | error e => exact ⟨fun h => (by cases h), fun h => (by cases h.1)⟩
            | ok u => exact ⟨fun h => ⟨rfl, h⟩, And.right⟩
        | bool b =>
            dsimp only
            rw [← hflat (.bool b) (his _ hlook) rfl rfl Iff.rfl]
            exact ⟨fun h => ⟨trivial, h⟩, And.right⟩
        | none =>
            dsimp only
            rw [← hflat .null (his _ hlook) rfl rfl Iff.rfl]
            exact ⟨fun h => ⟨trivial, h⟩, And.right⟩
        | int n =>
            dsimp only
            rw [← hflat (.int n) (his _ hlook) rfl rfl Iff.rfl]
            by_cases hlarge : MAX_SAFE_INT < n.natAbs
            · rw [if_pos hlarge]
              exact ⟨fun h => (by cases h), fun h => absurd h.1 (Nat.not_le_of_lt hlarge)⟩
            · rw [if_neg hlarge]
              exact ⟨fun h => ⟨Nat.le_of_not_lt hlarge, h⟩, And.right⟩

-- ===== readable

theorem keys_entries {es : List (Str × Value)} {entries : List (Option Str × ρ)}
    (h : List.Forall₂ (IsEntry heap) es entries) : entries.filterMap Prod.fst = es.map Prod.fst := by
  induction h with
  | nil => rfl
  | cons hentry _ ih =>
      rw [List.filterMap_cons_some hentry.1, List.map_cons, ih]

theorem safe_digits {n : Int} (h : n.natAbs ≤ MAX_SAFE_INT) :
    (Nat.toDigits 10 n.natAbs).length ≤ MAX_STR_DIGITS := by
  have hsmall : n.natAbs < 10 ^ 16 := Nat.lt_of_le_of_lt h (by decide)
  have hdigits := (Nat.length_toDigits_le_iff (by decide) (by decide)).2 hsmall
  exact Nat.le_trans hdigits (by decide)

theorem unpaired_of_matchesKey {key : Str} (h : matchesKey key = true) : Unpaired key := by
  unfold matchesKey at h
  cases hchars : chars? key with
  | none =>
      rw [hchars] at h
      cases h
  | some text =>
      rw [chars?_eq_some.1 hchars]
      exact unpaired_ofText text

theorem readable_of_is {t : Value} : ∀ {r : ρ}, heap.Is t r →
    t.All Fair (fun key => matchesKey key = true) → t.Readable := by
  induction t using Value.parts with
  | int n => exact fun _ h => safe_digits h
  | float _ => exact fun his => absurd his id
  | str s =>
      intro r _ h
      obtain ⟨-, -, text, rfl⟩ : _ ∧ _ ∧ ∃ text, s = ofText text := h
      exact unpaired_ofText text
  | list xs ih =>
      intro r his h
      obtain ⟨items, -, hitems⟩ := his
      have hparts := allItems_iff.1 h.2
      refine readableItems_iff.2 fun x hx => ?_
      obtain ⟨item, hitem⟩ : ∃ item, heap.Is x item := by
        obtain ⟨n, hn, rfl⟩ := List.getElem_of_mem hx
        have hforall := isItems_iff.1 hitems
        exact ⟨_, hforall.get hn (hforall.length_eq ▸ hn)⟩
      exact ih x hx hitem (hparts x hx)
  | dict es ih =>
      intro r his h
      obtain ⟨entries, hlook, hentries⟩ := his
      have hforall := isEntries_iff.1 hentries
      have hparts := allEntries_iff.1 h.2
      have hdistinct := heap.distinct r entries hlook
      rw [keys_entries hforall] at hdistinct
      refine ⟨hdistinct, readableEntries_iff.2 fun e he => ⟨unpaired_of_matchesKey (hparts e he).1, ?_⟩⟩
      obtain ⟨entry, hentry⟩ : ∃ entry, IsEntry heap e entry := by
        obtain ⟨n, hn, rfl⟩ := List.getElem_of_mem he
        exact ⟨_, hforall.get hn (hforall.length_eq ▸ hn)⟩
      exact ih e he hentry.2 (hparts e he).2
  | _ => exact fun _ _ => trivial

end Trees

-- ===== accepted

structure Acceptable (K : Str → Prop) (t : Value) : Prop where
  object : ∃ es, t = .dict es
  levels : t.levels ≤ MAX_DEPTH
  size : t.size ≤ MAX_NODES
  parts : t.All Fair K
  bytes : (Utf8.encode (dumps compact t)).length ≤ MAX_ARGUMENT_BYTES

theorem canonicalArguments_ok_iff {ρ : Type} {heap : Heap ρ} {root : ρ} {text : PyStr} :
    canonicalArguments heap root = .ok text ↔
      ∃ t, heap.Is t root ∧ Acceptable (fun key => matchesKey key = true) t ∧
        text = dumps compact t := by
  have hwalk : walk heap MAX_NODES [(root, 1)] = .ok () ↔
      ∃ t, Fits heap t (root, 1) ∧ t.size ≤ MAX_NODES := by
    rw [walk_ok_iff, pop_iff]
    constructor
    · intro h
      obtain ⟨ts, hts, t, ht, hn⟩ := h
      exact ⟨t, ht, Nat.le_trans hn (Nat.sub_le _ _)⟩
    · exact fun h => ⟨[], .nil, h⟩
  have hcheck : ∀ es : List (Str × Value), heap.Is (.dict es) root →
      ∃ entries, heap.look root = .dict entries := fun es his => his.imp fun _ h => h.1
  unfold canonicalArguments
  constructor
  · intro h
    split at h
    next entries hlook =>
      cases hdone : walk heap MAX_NODES [(root, 1)] with
      | error e =>
          rw [hdone] at h
          cases h
      | ok u =>
          rw [hdone] at h
          obtain ⟨t, ⟨his, hlevels, hparts⟩, hsize⟩ := hwalk.1 hdone
          have hlevels : t.levels ≤ MAX_DEPTH := Nat.le_of_succ_le_succ hlevels
          have htree := (tree_eq_some t).2 ⟨hlevels, his⟩
          rw [htree] at h
          dsimp only at h
          split at h
          next => cases h
          next hbytes =>
            have hobject : ∃ es, t = .dict es := by
              have htree := (tree_eq_some t).2 ⟨Nat.le_succ t.levels, his⟩
              rw [Heap.tree, hlook] at htree
              obtain ⟨es, -, rfl⟩ := Option.map_eq_some_iff.1 htree
              exact ⟨es, rfl⟩
            exact ⟨t, his, ⟨hobject, hlevels, hsize, hparts, Nat.le_of_not_lt hbytes⟩,
              (Except.ok.inj h).symm⟩
    next => cases h
  · intro h
    obtain ⟨t, his, haccept, rfl⟩ := h
    obtain ⟨es, rfl⟩ := haccept.object
    obtain ⟨entries, hlook⟩ := hcheck es his
    have hdone := hwalk.2 ⟨.dict es, ⟨his, Nat.succ_le_succ haccept.levels, haccept.parts⟩,
      haccept.size⟩
    have htree := (tree_eq_some (.dict es)).2 ⟨haccept.levels, his⟩
    rw [hlook, hdone, htree]
    exact if_neg (Nat.not_lt.2 haccept.bytes)

-- ===== loaded

def trees : Heap Value where
  look
    | .null => .none
    | .bool b => .bool b
    | .int n => .int n
    | .float _ => .other "float"
    | .str s => .str s
    | .list xs => .list xs
    | .dict es =>
        if (es.map Prod.fst).Nodup then .dict (es.map fun e => (some e.1, e.2)) else .other "dict"
  distinct := by
    intro t entries hlook
    cases t with
    | dict es =>
        dsimp only at hlook
        split at hlook
        next hnodup =>
          obtain rfl := Node.dict.inj hlook
          have hkeys : (es.map fun e => (some e.1, e.2)).filterMap Prod.fst = es.map Prod.fst := by
            rw [List.filterMap_map]
            exact congrFun List.filterMap_eq_map es
          rwa [hkeys]
        next => cases hlook
    | _ => cases hlook

theorem is_trees {t : Value} : t.Readable → trees.Is t t := by
  induction t using Value.parts with
  | float _ => exact id
  | list xs ih =>
      intro h
      refine ⟨xs, rfl, isItems_iff.2 (List.forall₂_same.2 fun x hx => ?_)⟩
      exact ih x hx (readableItems_iff.1 h x hx)
  | dict es ih =>
      intro h
      obtain ⟨hnodup, hes⟩ : (es.map Prod.fst).Nodup ∧ ReadableEntries es := h
      refine ⟨_, if_pos hnodup, isEntries_iff.2 ?_⟩
      rw [List.forall₂_map_right_iff]
      refine List.forall₂_same.2 fun e he => ⟨rfl, ?_⟩
      exact ih e he (readableEntries_iff.1 hes e he).2
  | _ => exact fun _ => rfl

theorem fair_sortKeys (v : Value) : Fair v → Fair v.sortKeys := by
  cases v with
  | list xs =>
      intro h
      show (sortItems xs).length ≤ MAX_ARRAY_ITEMS
      rwa [sortItems_eq_map, List.length_map]
  | dict es =>
      intro h
      show ((sortValues es).insertionSort KeyBefore).length ≤ MAX_KEYS
      rwa [List.length_insertionSort, sortValues_eq_map, List.length_map]
  | _ => exact id

theorem Acceptable.sortKeys {K : Str → Prop} {t : Value} (h : Acceptable K t) :
    Acceptable K t.sortKeys := by
  refine ⟨?_, (levels_sortKeys_le t _).2 h.levels, (size_sortKeys t).symm ▸ h.size,
    all_sortKeys fair_sortKeys t h.parts, ?_⟩
  · obtain ⟨es, rfl⟩ := h.object
    exact ⟨_, rfl⟩
  · have htext : dumps compact t.sortKeys = dumps compact t := by
      unfold dumps
      rw [sortKeys_sortKeys]
    rw [htext]
    exact h.bytes

theorem compact_gap : ∀ depth, ∀ c ∈ compact.gap depth, isWhite c = true := fun _ _ hc =>
  absurd hc List.not_mem_nil

theorem compact_colon : ∀ c ∈ compact.colon, isWhite c = true := fun _ hc =>
  absurd hc List.not_mem_nil

/-- Two calls with the same text to hash are of the same tool, with the same
arguments. -/
theorem callPreimage_eq_iff {name name' text text' : PyStr} :
    callPreimage name text = callPreimage name' text' ↔ name = name' ∧ text = text' := by
  have hreadable : ∀ a b : PyStr, (Value.dict [(ofText "tool".toList, .str (ofText a)),
      (ofText "arguments".toList, .str (ofText b))]).Readable := by
    intro a b
    exact ⟨by simp only [List.map_cons, List.map_nil]; decide, unpaired_ofText _, unpaired_ofText a,
      unpaired_ofText _, unpaired_ofText b, trivial⟩
  have hsort : ∀ a b : PyStr, (Value.dict [(ofText "tool".toList, .str (ofText a)),
      (ofText "arguments".toList, .str (ofText b))]).sortKeys
      = .dict [(ofText "arguments".toList, .str (ofText b)),
          (ofText "tool".toList, .str (ofText a))] := fun a b => rfl
  unfold callPreimage
  rw [dumps_eq_iff compact_gap compact_colon (hreadable _ _) (hreadable _ _),
    same_iff_sortKeys (hreadable _ _) (hreadable _ _), hsort, hsort]
  simp only [Value.dict.injEq, List.cons.injEq, Prod.mk.injEq, Value.str.injEq, true_and, and_true,
    ofText_injective.eq_iff]
  exact and_comm

-- ===== whole

/-- What is asked of one value: accepted exactly when it is to be, and then
its text is loaded as an equal value, whose own text it is, and is that of
another value exactly when they are equal. -/
structure Canonical {ρ : Type} (heap : Heap ρ) (root : ρ) (limit : Nat) : Prop where
  accepted : (∃ text, canonicalArguments heap root = .ok text) ↔
    ∃ t, heap.Is t root ∧ Acceptable Identifier t
  loaded : ∀ text, canonicalArguments heap root = .ok text →
    ∃ t u, heap.Is t root ∧ loads limit text = .ok u ∧ t.Same u ∧
      canonicalArguments trees u = .ok text
  told : ∀ text, canonicalArguments heap root = .ok text →
    ∀ {ρ' : Type} (heap' : Heap ρ') (root' : ρ') (text' : PyStr),
      canonicalArguments heap' root' = .ok text' →
      ∃ t t', heap.Is t root ∧ heap'.Is t' root' ∧ (text = text' ↔ t.Same t') ∧
        ∀ name name' : PyStr, callPreimage name text = callPreimage name' text' ↔
          name = name' ∧ t.Same t'

def HoldsLineFeed (t : Value) : Prop := ¬t.All (fun _ => True) fun key => ¬EndsInLineFeed key

theorem identifier_no_feed {key : Str} (h : Identifier key) : ¬EndsInLineFeed key := by
  obtain ⟨text, rfl, hsimple⟩ := h
  intro hfeed
  have hmem : '\n' ∈ text := by
    have hlast := List.mem_of_getLast? hfeed
    obtain ⟨c, hc, heq⟩ := List.mem_map.1 hlast
    rwa [CodePoint.char.inj heq] at hc
  cases text with
  | nil => cases hmem
  | cons c text =>
      obtain ⟨hhead, hbody, -⟩ := Text.headed_cons.1 hsimple
      rcases List.mem_cons.1 hmem with rfl | hmem
      · exact absurd hhead (by decide)
      · exact absurd (hbody _ hmem) (by decide)

/-- All is as asked exactly when the value is not accepted with a key that
ends in a line feed. -/
theorem canonical_iff {ρ : Type} (heap : Heap ρ) (root : ρ) {limit : Nat} (hlimit : MAX_DEPTH ≤ limit) :
    Canonical heap root limit ↔
      ∀ t, heap.Is t root → Acceptable (fun key => matchesKey key = true) t → ¬HoldsLineFeed t := by
  have hexact : ∀ {t : Value}, Acceptable Identifier t →
      Acceptable (fun key => matchesKey key = true) t := fun h =>
    ⟨h.object, h.levels, h.size, h.parts.mono (fun _ hfair => hfair) fun key hkey =>
      (matchesKey_iff key).2 (.inl hkey), h.bytes⟩
  constructor
  · intro h t his haccept hfeed
    obtain ⟨u, hu, hidentifier⟩ := h.accepted.1 ⟨_, canonicalArguments_ok_iff.2 ⟨t, his, haccept, rfl⟩⟩
    obtain rfl := is_unique his hu
    exact hfeed (hidentifier.parts.mono (fun _ _ => trivial) fun _ => identifier_no_feed)
  · intro h
    refine ⟨?_, ?_, ?_⟩
    · constructor
      · intro htext
        obtain ⟨text, htext⟩ := htext
        obtain ⟨t, his, haccept, -⟩ := canonicalArguments_ok_iff.1 htext
        refine ⟨t, his, haccept.object, haccept.levels, haccept.size, ?_, haccept.bytes⟩
        have hno := Classical.not_not.1 (h t his haccept)
        refine (haccept.parts.and hno).mono (fun _ hfair => hfair.1) fun key hkey => ?_
        exact ((matchesKey_iff key).1 hkey.1).resolve_right fun hfeed => hkey.2 hfeed.1
      · intro hacceptable
        obtain ⟨t, his, haccept⟩ := hacceptable
        exact ⟨_, canonicalArguments_ok_iff.2 ⟨t, his, hexact haccept, rfl⟩⟩
    · intro text htext
      obtain ⟨t, his, haccept, rfl⟩ := canonicalArguments_ok_iff.1 htext
      have hreadable := readable_of_is his haccept.parts
      have hnesting : t.nesting ≤ limit :=
        Nat.le_trans (nesting_le_levels t) (Nat.le_trans haccept.levels hlimit)
      have hload := loads_dumps compact_gap compact_colon hreadable hnesting
        fun c hc => absurd hc List.not_mem_nil
      rw [List.append_nil] at hload
      refine ⟨t, t.sortKeys, his, hload, ?_, ?_⟩
      · rw [same_iff_sortKeys hreadable (readable_sortKeys hreadable), sortKeys_sortKeys]
      · refine canonicalArguments_ok_iff.2 ⟨t.sortKeys, is_trees (readable_sortKeys hreadable),
          haccept.sortKeys, ?_⟩
        unfold dumps
        rw [sortKeys_sortKeys]
    · intro text htext ρ' heap' root' text' htext'
      obtain ⟨t, his, haccept, rfl⟩ := canonicalArguments_ok_iff.1 htext
      obtain ⟨t', his', haccept', rfl⟩ := canonicalArguments_ok_iff.1 htext'
      have hiff := @dumps_eq_iff compact compact_gap compact_colon t t'
        (readable_of_is his haccept.parts) (readable_of_is his' haccept'.parts)
      refine ⟨t, t', his, his', hiff, fun name name' => ?_⟩
      rw [callPreimage_eq_iff, hiff]

def oneKey (key : PyStr) : Value := .dict [(ofText key, .int 1)]

theorem oneKey_is (key : PyStr) : trees.Is (oneKey key) (oneKey key) := by
  refine is_trees ⟨List.nodup_singleton _, unpaired_ofText key, ?_, trivial⟩
  show (Nat.toDigits 10 1).length ≤ MAX_STR_DIGITS
  decide

theorem canonical_iff_one : Canonical trees (oneKey "a".toList) 1000 := by
  refine (canonical_iff trees (oneKey "a".toList) (by decide)).2 fun t his _ hfeed => hfeed ?_
  obtain rfl := is_unique his (oneKey_is "a".toList)
  refine ⟨trivial, ?_, trivial, trivial⟩
  show ¬EndsInLineFeed (ofText "a".toList)
  decide

/-- A key that ends in a line feed is taken. -/
theorem canonical_feed :
    canonicalArguments trees (oneKey "a\n".toList) = .ok "\x7b\"a\\n\":1\x7d".toList ∧
      ¬∃ t, trees.Is t (oneKey "a\n".toList) ∧ Acceptable Identifier t := by
  refine ⟨by decide +kernel, fun h => ?_⟩
  obtain ⟨t, his, haccept⟩ := h
  obtain rfl := is_unique his (oneKey_is "a\n".toList)
  obtain ⟨-, hkey, -⟩ := haccept.parts
  exact identifier_no_feed hkey rfl

end Velune.Engine.Arguments
