/-
Objects whose keys are in order: the form an encoder gives them that sorts
keys, and equality of values in which the order does not count. Two values
are equal so exactly when they are the same once sorted
(`same_iff_sortKeys`), and are written as the same text (`dumps_eq_iff`).
-/
import Mathlib.Algebra.BigOperators.Group.List.Basic
import Mathlib.Data.List.Sort
import Velune.Lib.JsonRead

namespace Lib.JsonText

-- ===== order

def CodePoint.value : CodePoint → Nat
  | .char c => c.toNat
  | .high n => 0xD800 + n
  | .low n => 0xDC00 + n

theorem value_injective {p q : CodePoint} (h : p.value = q.value) : p = q := by
  have hchar : ∀ c : Char, c.toNat < 0xD800 ∨ 0xDFFF < c.toNat ∧ c.toNat < 0x110000 := fun c =>
    c.valid
  cases p with
  | char c =>
      have hc := hchar c
      cases q with
      | char d => exact congrArg CodePoint.char (Char.toNat_inj.1 h)
      | high m =>
          have hm := m.isLt
          have h : c.toNat = 0xD800 + m := h
          omega
      | low m =>
          have hm := m.isLt
          have h : c.toNat = 0xDC00 + m := h
          omega
  | high n =>
      have hn := n.isLt
      cases q with
      | char d =>
          have hd := hchar d
          have h : 0xD800 + n.val = d.toNat := h
          omega
      | high m => exact congrArg CodePoint.high (Fin.ext (Nat.add_left_cancel h))
      | low m =>
          have h : 0xD800 + n.val = 0xDC00 + m := h
          omega
  | low n =>
      have hn := n.isLt
      cases q with
      | char d =>
          have hd := hchar d
          have h : 0xDC00 + n.val = d.toNat := h
          omega
      | high m =>
          have hm := m.isLt
          have h : 0xDC00 + n.val = 0xD800 + m := h
          omega
      | low m => exact congrArg CodePoint.low (Fin.ext (Nat.add_left_cancel h))

/-- A language's order on strings: by code points, a beginning first. -/
def Before : Str → Str → Prop
  | [], _ => True
  | _ :: _, [] => False
  | p :: s, q :: t => p.value < q.value ∨ p.value = q.value ∧ Before s t

instance decidableBefore : ∀ s t : Str, Decidable (Before s t)
  | [], _ => isTrue trivial
  | _ :: _, [] => isFalse id
  | p :: s, q :: t =>
      have := decidableBefore s t
      inferInstanceAs (Decidable (p.value < q.value ∨ p.value = q.value ∧ Before s t))

theorem Before.total : ∀ s t : Str, Before s t ∨ Before t s
  | [], _ => .inl trivial
  | _ :: _, [] => .inr trivial
  | p :: s, q :: t => by
      rcases Nat.lt_trichotomy p.value q.value with hlt | heq | hgt
      · exact .inl (.inl hlt)
      · rcases Before.total s t with hst | hts
        · exact .inl (.inr ⟨heq, hst⟩)
        · exact .inr (.inr ⟨heq.symm, hts⟩)
      · exact .inr (.inl hgt)

theorem Before.trans : ∀ {s t u : Str}, Before s t → Before t u → Before s u
  | [], _, _, _, _ => trivial
  | p :: s, [], _, h, _ => absurd h id
  | p :: s, q :: t, [], _, h => absurd h id
  | p :: s, q :: t, r :: u, hst, htu => by
      rcases hst with hpq | ⟨hpq, hst⟩
      · rcases htu with hqr | ⟨hqr, htu⟩
        · exact .inl (Nat.lt_trans hpq hqr)
        · exact .inl (hqr ▸ hpq)
      · rcases htu with hqr | ⟨hqr, htu⟩
        · exact .inl (hpq ▸ hqr)
        · exact .inr ⟨hpq.trans hqr, hst.trans htu⟩

theorem Before.antisymm : ∀ {s t : Str}, Before s t → Before t s → s = t
  | [], [], _, _ => rfl
  | [], _ :: _, _, h => absurd h id
  | _ :: _, [], h, _ => absurd h id
  | p :: s, q :: t, hst, hts => by
      rcases hst with hpq | ⟨hpq, hst⟩
      · rcases hts with hqp | ⟨hqp, -⟩
        · exact absurd hqp (Nat.lt_asymm hpq)
        · exact absurd hpq (hqp ▸ Nat.lt_irrefl _)
      · rcases hts with hqp | ⟨-, hts⟩
        · exact absurd hqp (hpq ▸ Nat.lt_irrefl _)
        · rw [value_injective hpq, hst.antisymm hts]

def KeyBefore (d e : Str × Value) : Prop := Before d.1 e.1

instance (d e : Str × Value) : Decidable (KeyBefore d e) := decidableBefore d.1 e.1

instance : Std.Total KeyBefore := ⟨fun d e => Before.total d.1 e.1⟩

instance : IsTrans (Str × Value) KeyBefore := ⟨fun _ _ _ h h' => Before.trans h h'⟩

-- ===== sorting

mutual

def Value.sortKeys : Value → Value
  | .list items => .list (sortItems items)
  | .dict entries => .dict ((sortValues entries).insertionSort KeyBefore)
  | v => v

def sortItems : List Value → List Value
  | [] => []
  | x :: xs => x.sortKeys :: sortItems xs

def sortValues : List (Str × Value) → List (Str × Value)
  | [] => []
  | (k, v) :: es => (k, v.sortKeys) :: sortValues es

end

/-- `json.dumps(value, sort_keys=True)`. -/
def dumps (style : Style) (v : Value) : List Char := write style 0 v.sortKeys

theorem sortItems_eq_map : ∀ xs : List Value, sortItems xs = xs.map Value.sortKeys
  | [] => rfl
  | x :: xs => by rw [sortItems, List.map_cons, sortItems_eq_map xs]

theorem sortValues_eq_map : ∀ es : List (Str × Value),
    sortValues es = es.map fun e => (e.1, e.2.sortKeys)
  | [] => rfl
  | (k, v) :: es => by rw [sortValues, List.map_cons, sortValues_eq_map es]

theorem keys_sortValues (es : List (Str × Value)) :
    (sortValues es).map Prod.fst = es.map Prod.fst := by
  rw [sortValues_eq_map, List.map_map]
  rfl

/-- Entries in order with the same ones among them are the same list, if no
key is there twice. -/
theorem sorted_eq {es fs : List (Str × Value)} (hes : (es.map Prod.fst).Nodup)
    (h : es.Perm fs) (hsorted : es.Pairwise KeyBefore) (hsorted' : fs.Pairwise KeyBefore) :
    es = fs := by
  refine List.Perm.eq_of_pairwise (fun d e hd he hde hed => ?_) hsorted hsorted' h
  have hkey : d.1 = e.1 := Before.antisymm hde hed
  exact List.inj_on_of_nodup_map hes hd (h.mem_iff.2 he) hkey

-- ===== parts

theorem readableItems_iff : ∀ {xs : List Value}, ReadableItems xs ↔ ∀ x ∈ xs, x.Readable
  | [] => ⟨fun _ x hx => absurd hx List.not_mem_nil, fun _ => trivial⟩
  | x :: xs => by
      rw [List.forall_mem_cons, ← @readableItems_iff xs]
      rfl

theorem readableEntries_iff : ∀ {es : List (Str × Value)},
    ReadableEntries es ↔ ∀ e ∈ es, Unpaired e.1 ∧ e.2.Readable
  | [] => ⟨fun _ e he => absurd he List.not_mem_nil, fun _ => trivial⟩
  | (k, v) :: es => by
      rw [List.forall_mem_cons, ← @readableEntries_iff es, and_assoc]
      rfl

theorem nestingItems_le_iff : ∀ {xs : List Value} {n : Nat},
    nestingItems xs ≤ n ↔ ∀ x ∈ xs, x.nesting ≤ n
  | [], n => ⟨fun _ x hx => absurd hx List.not_mem_nil, fun _ => Nat.zero_le n⟩
  | x :: xs, n => by rw [List.forall_mem_cons, ← nestingItems_le_iff, nestingItems, Nat.max_le]

theorem nestingEntries_le_iff : ∀ {es : List (Str × Value)} {n : Nat},
    nestingEntries es ≤ n ↔ ∀ e ∈ es, e.2.nesting ≤ n
  | [], n => ⟨fun _ e he => absurd he List.not_mem_nil, fun _ => Nat.zero_le n⟩
  | (k, v) :: es, n => by
      rw [List.forall_mem_cons, ← nestingEntries_le_iff, nestingEntries, Nat.max_le]

/-- Induction on a value: from what holds of its items, or of the values of
its entries. -/
theorem Value.parts {P : Value → Prop} (null : P .null) (bool : ∀ b, P (.bool b))
    (int : ∀ n, P (.int n)) (float : ∀ literal, P (.float literal)) (str : ∀ s, P (.str s))
    (list : ∀ xs, (∀ x ∈ xs, P x) → P (.list xs))
    (dict : ∀ es, (∀ e ∈ es, P e.2) → P (.dict es)) : ∀ v, P v
  | .null => null
  | .bool b => bool b
  | .int n => int n
  | .float literal => float literal
  | .str s => str s
  | .list xs => list xs fun x hx =>
      have := List.sizeOf_lt_of_mem hx
      Value.parts null bool int float str list dict x
  | .dict es => dict es fun (_, v) hv =>
      have := List.sizeOf_lt_of_mem hv
      Value.parts null bool int float str list dict v
  termination_by v => sizeOf v
  decreasing_by
    all_goals simp_all
    all_goals omega

-- ===== same

mutual

def Value.Same : Value → Value → Prop
  | .null, .null => True
  | .bool a, .bool b => a = b
  | .int m, .int n => m = n
  | .float a, .float b => a = b
  | .str s, .str t => s = t
  | .list xs, .list ys => SameItems xs ys
  | .dict es, .dict fs => es.length = fs.length ∧ SameEntries es fs
  | _, _ => False

def SameItems : List Value → List Value → Prop
  | [], [] => True
  | x :: xs, y :: ys => x.Same y ∧ SameItems xs ys
  | _, _ => False

/-- Each entry has one of the same key and the same value among the others. -/
def SameEntries : List (Str × Value) → List (Str × Value) → Prop
  | [], _ => True
  | (k, v) :: es, fs => (∃ w, (k, w) ∈ fs ∧ v.Same w) ∧ SameEntries es fs

end

theorem sameEntries_iff {fs : List (Str × Value)} : ∀ {es : List (Str × Value)},
    SameEntries es fs ↔ ∀ e ∈ es, ∃ w, (e.1, w) ∈ fs ∧ e.2.Same w
  | [] => ⟨fun _ e he => absurd he List.not_mem_nil, fun _ => trivial⟩
  | (k, v) :: es => by
      rw [List.forall_mem_cons, ← sameEntries_iff]
      rfl

theorem sameItems_iff {xs : List Value} (h : ∀ x ∈ xs, x.Readable → ∀ y : Value, y.Readable →
    (x.Same y ↔ x.sortKeys = y.sortKeys)) : ∀ {ys : List Value}, (∀ x ∈ xs, x.Readable) →
      (∀ y ∈ ys, y.Readable) → (SameItems xs ys ↔ sortItems xs = sortItems ys) := by
  induction xs with
  | nil =>
      intro ys _ _
      cases ys with
      | nil => exact ⟨fun _ => rfl, fun _ => trivial⟩
      | cons y ys => exact ⟨fun hsame => absurd hsame id, fun heq => by cases heq⟩
  | cons x xs ih =>
      intro ys hxs hys
      cases ys with
      | nil => exact ⟨fun hsame => absurd hsame id, fun heq => by cases heq⟩
      | cons y ys =>
          obtain ⟨hx, hxs⟩ := List.forall_mem_cons.1 hxs
          obtain ⟨hy, hys⟩ := List.forall_mem_cons.1 hys
          obtain ⟨hhead, htail⟩ := List.forall_mem_cons.1 h
          rw [sortItems, sortItems, List.cons.injEq, ← hhead hx y hy, ← ih htail hxs hys]
          rfl

/-- Values are equal in any order of their keys exactly when they are the
same with their keys in order. -/
theorem same_iff_sortKeys : ∀ {v w : Value}, v.Readable → w.Readable →
    (v.Same w ↔ v.sortKeys = w.sortKeys) := by
  intro v
  induction v using Value.parts with
  | list xs ih =>
      intro w hv hw
      cases w with
      | list ys =>
          have hiff := sameItems_iff (fun x hx hx' y hy => @ih x hx y hx' hy)
            (readableItems_iff.1 hv) (readableItems_iff.1 hw)
          refine hiff.trans ⟨fun heq => congrArg Value.list heq, fun heq => ?_⟩
          exact Value.list.inj heq
      | _ => simp [Value.Same, Value.sortKeys]
  | dict es ih =>
      intro w hv hw
      cases w with
      | dict fs =>
          obtain ⟨hnodup, hes⟩ : (es.map Prod.fst).Nodup ∧ ReadableEntries es := hv
          obtain ⟨hnodup', hfs⟩ : (fs.map Prod.fst).Nodup ∧ ReadableEntries fs := hw
          have hes := readableEntries_iff.1 hes
          have hfs := readableEntries_iff.1 hfs
          have hlength : ∀ ds : List (Str × Value), (sortValues ds).length = ds.length := fun ds => by
            rw [sortValues_eq_map, List.length_map]
          have hkeys : ∀ {ds : List (Str × Value)}, (ds.map Prod.fst).Nodup →
              ((sortValues ds).map Prod.fst).Nodup := fun h => by rwa [keys_sortValues]
          show es.length = fs.length ∧ SameEntries es fs ↔
            Value.dict ((sortValues es).insertionSort KeyBefore)
              = Value.dict ((sortValues fs).insertionSort KeyBefore)
          rw [sameEntries_iff, Value.dict.injEq]
          constructor
          · intro h
            obtain ⟨hcount, hsame⟩ := h
            have hsub : sortValues es ⊆ sortValues fs := by
              rw [sortValues_eq_map, sortValues_eq_map]
              intro d hd
              obtain ⟨e, he, rfl⟩ := List.mem_map.1 hd
              obtain ⟨w, hw, hew⟩ := hsame e he
              refine List.mem_map.2 ⟨(e.1, w), hw, ?_⟩
              rw [(ih e he (hes e he).2 (hfs _ hw).2).1 hew]
            have hperm : (sortValues es).Perm (sortValues fs) :=
              (List.subperm_of_subset (hkeys hnodup).of_map hsub).perm_of_length_le (by rw [hlength, hlength, hcount])
            refine sorted_eq ?_ ?_ (List.pairwise_insertionSort _ _) (List.pairwise_insertionSort _ _)
            · exact ((List.perm_insertionSort _ _).map _).nodup_iff.2 (hkeys hnodup)
            · exact (List.perm_insertionSort _ _).trans
                (hperm.trans (List.perm_insertionSort _ _).symm)
          · intro heq
            have hperm : (sortValues es).Perm (sortValues fs) :=
              (List.perm_insertionSort KeyBefore _).symm.trans
                (heq ▸ List.perm_insertionSort KeyBefore _)
            refine ⟨?_, fun e he => ?_⟩
            · rw [← hlength es, ← hlength fs, hperm.length_eq]
            · have hmem : (e.1, e.2.sortKeys) ∈ sortValues fs := by
                refine hperm.mem_iff.1 ?_
                rw [sortValues_eq_map]
                exact List.mem_map.2 ⟨e, he, rfl⟩
              rw [sortValues_eq_map] at hmem
              obtain ⟨⟨k, w⟩, hw, hew⟩ := List.mem_map.1 hmem
              obtain ⟨rfl, hsort⟩ := Prod.mk.inj hew
              exact ⟨w, hw, (ih e he (hes e he).2 (hfs _ hw).2).2 hsort.symm⟩
      | _ => simp [Value.Same, Value.sortKeys]
  | _ =>
      intro w _ _
      cases w <;> simp [Value.Same, Value.sortKeys]

theorem sortKeys_sortKeys (v : Value) : v.sortKeys.sortKeys = v.sortKeys := by
  induction v using Value.parts with
  | list xs ih =>
      simp only [Value.sortKeys, sortItems_eq_map, List.map_map]
      exact congrArg Value.list (List.map_congr_left ih)
  | dict es ih =>
      have hinner : ∀ ds : List (Str × Value), (∀ d ∈ ds, d.2.sortKeys = d.2) → sortValues ds = ds := by
        intro ds hds
        rw [sortValues_eq_map]
        exact (List.map_congr_left fun d hd => by rw [hds d hd]; rfl).trans (List.map_id ds)
      have hsorted : ∀ d ∈ (sortValues es).insertionSort KeyBefore, d.2.sortKeys = d.2 := by
        intro d hd
        rw [List.mem_insertionSort, sortValues_eq_map] at hd
        obtain ⟨e, he, rfl⟩ := List.mem_map.1 hd
        exact ih e he
      show Value.dict ((sortValues ((sortValues es).insertionSort KeyBefore)).insertionSort KeyBefore)
        = Value.dict ((sortValues es).insertionSort KeyBefore)
      rw [hinner _ hsorted, (List.pairwise_insertionSort KeyBefore _).insertionSort_eq]
  | _ => rfl

theorem readable_sortKeys : ∀ {v : Value}, v.Readable → v.sortKeys.Readable := by
  intro v
  induction v using Value.parts with
  | list xs ih =>
      intro h
      refine readableItems_iff.2 fun y hy => ?_
      rw [sortItems_eq_map] at hy
      obtain ⟨x, hx, rfl⟩ := List.mem_map.1 hy
      exact ih x hx (readableItems_iff.1 h x hx)
  | dict es ih =>
      intro h
      obtain ⟨hnodup, hes⟩ : (es.map Prod.fst).Nodup ∧ ReadableEntries es := h
      refine ⟨?_, readableEntries_iff.2 fun d hd => ?_⟩
      · refine ((List.perm_insertionSort KeyBefore _).map _).nodup_iff.2 ?_
        rwa [show (fun e : Str × Value => e.1) = Prod.fst from rfl, keys_sortValues]
      · rw [List.mem_insertionSort, sortValues_eq_map] at hd
        obtain ⟨e, he, rfl⟩ := List.mem_map.1 hd
        exact ⟨(readableEntries_iff.1 hes e he).1, ih e he (readableEntries_iff.1 hes e he).2⟩
  | _ => exact id

/-- A measure of a value, one more than the most of its parts', is not changed
by sorting keys. -/
theorem bound_sortKeys {f : Value → Nat}
    (hlist : ∀ xs n, f (.list xs) ≤ n ↔ ∃ k, n = k + 1 ∧ ∀ x ∈ xs, f x ≤ k)
    (hdict : ∀ es n, f (.dict es) ≤ n ↔ ∃ k, n = k + 1 ∧ ∀ e ∈ es, f e.2 ≤ k) (v : Value) :
    ∀ n, f v.sortKeys ≤ n ↔ f v ≤ n := by
  induction v using Value.parts with
  | list xs ih =>
      intro n
      show f (.list (sortItems xs)) ≤ n ↔ _
      rw [hlist, hlist, sortItems_eq_map]
      simp only [List.forall_mem_map]
      exact exists_congr fun k => and_congr_right fun _ => forall₂_congr fun x hx => ih x hx k
  | dict es ih =>
      intro n
      show f (.dict ((sortValues es).insertionSort KeyBefore)) ≤ n ↔ _
      rw [hdict, hdict]
      simp only [List.mem_insertionSort, sortValues_eq_map, List.forall_mem_map]
      exact exists_congr fun k => and_congr_right fun _ => forall₂_congr fun e he => ih e he k
  | _ => exact fun n => Iff.rfl

theorem succ_le_iff_exists {m n : Nat} : m + 1 ≤ n ↔ ∃ k, n = k + 1 ∧ m ≤ k := by
  constructor
  · intro h
    exact ⟨n - 1, by omega, by omega⟩
  · intro h
    obtain ⟨k, rfl, hk⟩ := h
    exact Nat.succ_le_succ hk

theorem nesting_sortKeys_le (v : Value) : ∀ n, v.sortKeys.nesting ≤ n ↔ v.nesting ≤ n := by
  refine bound_sortKeys (fun xs n => ?_) (fun es n => ?_) v
  · simp only [← nestingItems_le_iff, ← succ_le_iff_exists]
    rfl
  · simp only [← nestingEntries_le_iff, ← succ_le_iff_exists]
    rfl

-- ===== measures

mutual

def Value.levels : Value → Nat
  | .list items => levelsItems items + 1
  | .dict entries => levelsEntries entries + 1
  | _ => 1

def levelsItems : List Value → Nat
  | [] => 0
  | x :: xs => max x.levels (levelsItems xs)

def levelsEntries : List (Str × Value) → Nat
  | [] => 0
  | (_, v) :: es => max v.levels (levelsEntries es)

end

mutual

def Value.size : Value → Nat
  | .list items => sizeItems items + 1
  | .dict entries => sizeEntries entries + 1
  | _ => 1

def sizeItems : List Value → Nat
  | [] => 0
  | x :: xs => x.size + sizeItems xs

def sizeEntries : List (Str × Value) → Nat
  | [] => 0
  | (_, v) :: es => v.size + sizeEntries es

end

mutual

/-- `P` of every value in a value, and `K` of every key. -/
def Value.All (P : Value → Prop) (K : Str → Prop) : Value → Prop
  | .list items => P (.list items) ∧ AllItems P K items
  | .dict entries => P (.dict entries) ∧ AllEntries P K entries
  | v => P v

def AllItems (P : Value → Prop) (K : Str → Prop) : List Value → Prop
  | [] => True
  | x :: xs => x.All P K ∧ AllItems P K xs

def AllEntries (P : Value → Prop) (K : Str → Prop) : List (Str × Value) → Prop
  | [] => True
  | (k, v) :: es => K k ∧ v.All P K ∧ AllEntries P K es

end

theorem levelsItems_le_iff : ∀ {xs : List Value} {n : Nat},
    levelsItems xs ≤ n ↔ ∀ x ∈ xs, x.levels ≤ n
  | [], n => ⟨fun _ x hx => absurd hx List.not_mem_nil, fun _ => Nat.zero_le n⟩
  | x :: xs, n => by rw [List.forall_mem_cons, ← levelsItems_le_iff, levelsItems, Nat.max_le]

theorem levelsEntries_le_iff : ∀ {es : List (Str × Value)} {n : Nat},
    levelsEntries es ≤ n ↔ ∀ e ∈ es, e.2.levels ≤ n
  | [], n => ⟨fun _ e he => absurd he List.not_mem_nil, fun _ => Nat.zero_le n⟩
  | (k, v) :: es, n => by
      rw [List.forall_mem_cons, ← levelsEntries_le_iff, levelsEntries, Nat.max_le]

theorem sizeItems_eq_sum : ∀ xs : List Value, sizeItems xs = (xs.map Value.size).sum
  | [] => rfl
  | x :: xs => by rw [sizeItems, List.map_cons, List.sum_cons, sizeItems_eq_sum xs]

theorem sizeEntries_eq_sum : ∀ es : List (Str × Value),
    sizeEntries es = (es.map fun e => e.2.size).sum
  | [] => rfl
  | (k, v) :: es => by rw [sizeEntries, List.map_cons, List.sum_cons, sizeEntries_eq_sum es]

theorem allItems_iff {P : Value → Prop} {K : Str → Prop} : ∀ {xs : List Value},
    AllItems P K xs ↔ ∀ x ∈ xs, x.All P K
  | [] => ⟨fun _ x hx => absurd hx List.not_mem_nil, fun _ => trivial⟩
  | x :: xs => by
      rw [List.forall_mem_cons, ← @allItems_iff P K xs]
      rfl

theorem allEntries_iff {P : Value → Prop} {K : Str → Prop} : ∀ {es : List (Str × Value)},
    AllEntries P K es ↔ ∀ e ∈ es, K e.1 ∧ e.2.All P K
  | [] => ⟨fun _ e he => absurd he List.not_mem_nil, fun _ => trivial⟩
  | (k, v) :: es => by
      rw [List.forall_mem_cons, ← @allEntries_iff P K es, and_assoc]
      rfl

theorem levels_pos (v : Value) : 0 < v.levels := by
  cases v <;> simp [Value.levels]

theorem size_pos (v : Value) : 0 < v.size := by
  cases v <;> simp [Value.size]

theorem nesting_le_levels (v : Value) : v.nesting ≤ v.levels := by
  induction v using Value.parts with
  | list xs ih =>
      refine Nat.succ_le_succ (nestingItems_le_iff.2 fun x hx => ?_)
      exact Nat.le_trans (ih x hx) (levelsItems_le_iff.1 (Nat.le_refl _) x hx)
  | dict es ih =>
      refine Nat.succ_le_succ (nestingEntries_le_iff.2 fun e he => ?_)
      exact Nat.le_trans (ih e he) (levelsEntries_le_iff.1 (Nat.le_refl _) e he)
  | _ => exact Nat.zero_le 1

theorem levels_sortKeys_le (v : Value) : ∀ n, v.sortKeys.levels ≤ n ↔ v.levels ≤ n := by
  refine bound_sortKeys (fun xs n => ?_) (fun es n => ?_) v
  · simp only [← levelsItems_le_iff, ← succ_le_iff_exists]
    rfl
  · simp only [← levelsEntries_le_iff, ← succ_le_iff_exists]
    rfl

theorem size_sortKeys (v : Value) : v.sortKeys.size = v.size := by
  induction v using Value.parts with
  | list xs ih =>
      show sizeItems (sortItems xs) + 1 = sizeItems xs + 1
      rw [sizeItems_eq_sum, sizeItems_eq_sum, sortItems_eq_map, List.map_map]
      exact congrArg (fun sizes : List Nat => sizes.sum + 1) (List.map_congr_left ih)
  | dict es ih =>
      show sizeEntries ((sortValues es).insertionSort KeyBefore) + 1 = sizeEntries es + 1
      have hperm := (List.perm_insertionSort KeyBefore (sortValues es)).map fun e => e.2.size
      rw [sizeEntries_eq_sum, sizeEntries_eq_sum, hperm.sum_eq, sortValues_eq_map, List.map_map]
      exact congrArg (fun sizes : List Nat => sizes.sum + 1) (List.map_congr_left ih)
  | _ => rfl

theorem all_sortKeys {P : Value → Prop} {K : Str → Prop} (hP : ∀ v, P v → P v.sortKeys)
    (v : Value) : v.All P K → v.sortKeys.All P K := by
  induction v using Value.parts with
  | list xs ih =>
      intro h
      obtain ⟨hhere, hxs⟩ : P (.list xs) ∧ AllItems P K xs := h
      refine ⟨hP _ hhere, allItems_iff.2 ?_⟩
      rw [sortItems_eq_map, List.forall_mem_map]
      exact fun x hx => ih x hx (allItems_iff.1 hxs x hx)
  | dict es ih =>
      intro h
      obtain ⟨hhere, hes⟩ : P (.dict es) ∧ AllEntries P K es := h
      refine ⟨hP _ hhere, allEntries_iff.2 ?_⟩
      simp only [List.mem_insertionSort]
      rw [sortValues_eq_map, List.forall_mem_map]
      exact fun e he => ⟨(allEntries_iff.1 hes e he).1, ih e he (allEntries_iff.1 hes e he).2⟩
  | _ => exact id

theorem Value.All.mono {P P' : Value → Prop} {K K' : Str → Prop} (hP : ∀ v, P v → P' v)
    (hK : ∀ k, K k → K' k) {v : Value} : v.All P K → v.All P' K' := by
  induction v using Value.parts with
  | list xs ih =>
      intro h
      obtain ⟨hhere, hxs⟩ : P (.list xs) ∧ AllItems P K xs := h
      exact ⟨hP _ hhere, allItems_iff.2 fun x hx => ih x hx (allItems_iff.1 hxs x hx)⟩
  | dict es ih =>
      intro h
      obtain ⟨hhere, hes⟩ : P (.dict es) ∧ AllEntries P K es := h
      refine ⟨hP _ hhere, allEntries_iff.2 fun e he => ?_⟩
      exact ⟨hK _ (allEntries_iff.1 hes e he).1, ih e he (allEntries_iff.1 hes e he).2⟩
  | _ => exact hP _

theorem Value.All.and {P P' : Value → Prop} {K K' : Str → Prop} {v : Value} :
    v.All P K → v.All P' K' → v.All (fun v => P v ∧ P' v) fun k => K k ∧ K' k := by
  induction v using Value.parts with
  | list xs ih =>
      intro h h'
      refine ⟨⟨h.1, h'.1⟩, allItems_iff.2 fun x hx => ?_⟩
      exact ih x hx (allItems_iff.1 h.2 x hx) (allItems_iff.1 h'.2 x hx)
  | dict es ih =>
      intro h h'
      refine ⟨⟨h.1, h'.1⟩, allEntries_iff.2 fun e he => ?_⟩
      have he' := allEntries_iff.1 h.2 e he
      have he'' := allEntries_iff.1 h'.2 e he
      exact ⟨⟨he'.1, he''.1⟩, ih e he he'.2 he''.2⟩
  | _ =>
      intro h h'
      exact ⟨h, h'⟩

-- ===== one line

section Line

variable {style : Style} (hgap : ∀ depth, '\r' ∉ style.gap depth) (hcolon : '\r' ∉ style.colon)

include hgap

theorem return_not_mem_writeItems {depth : Nat} : ∀ {xs : List Value},
    (∀ x ∈ xs, '\r' ∉ write style depth x) → '\r' ∉ writeItems style depth xs
  | [], _ => List.not_mem_nil
  | x :: xs, h => by
      obtain ⟨hx, hxs⟩ := List.forall_mem_cons.1 h
      have ih := return_not_mem_writeItems hxs
      simp only [writeItems, List.mem_cons, List.mem_append, not_or]
      exact ⟨by decide, hgap depth, hx, ih⟩

include hcolon

theorem return_not_mem_writeEntries {depth : Nat} : ∀ {es : List (Str × Value)},
    (∀ e ∈ es, '\r' ∉ write style depth e.2) → '\r' ∉ writeEntries style depth es
  | [], _ => List.not_mem_nil
  | (k, v) :: es, h => by
      obtain ⟨hv, hes⟩ := List.forall_mem_cons.1 h
      have ih := return_not_mem_writeEntries hes
      simp only [writeEntries, List.mem_cons, List.mem_append, not_or]
      exact ⟨by decide, hgap depth, return_not_mem_writeString k, by decide, hcolon, hv, ih⟩

theorem return_not_mem_write {v : Value} : v.Readable → ∀ depth, '\r' ∉ write style depth v := by
  induction v using Value.parts with
  | bool b =>
      intro _ depth
      cases b with
      | false => exact (by decide : '\r' ∉ "false".toList)
      | true => exact (by decide : '\r' ∉ "true".toList)
  | int n =>
      intro _ depth
      have hdigits : '\r' ∉ Nat.toDigits 10 n.natAbs := fun hmem =>
        absurd (Nat.isDigit_of_mem_toDigits (by decide) (by decide) hmem) (by decide)
      rw [write]
      unfold writeInt
      split
      · exact fun hmem => (List.mem_cons.1 hmem).elim (by decide) hdigits
      · exact hdigits
  | null => exact fun _ _ => (by decide : '\r' ∉ "null".toList)
  | float literal => exact fun h => absurd h id
  | str s => exact fun _ _ => return_not_mem_writeString s
  | list xs ih =>
      intro h depth
      have hxs := readableItems_iff.1 h
      cases xs with
      | nil => exact (by decide : '\r' ∉ ['[', ']'])
      | cons x xs =>
          obtain ⟨hx, hrest⟩ := List.forall_mem_cons.1 fun y hy => ih y hy (hxs y hy) (depth + 1)
          simp only [write, List.mem_cons, List.mem_append, List.not_mem_nil, or_false, not_or]
          exact ⟨by decide, hgap _, hx, return_not_mem_writeItems hgap hrest, hgap _, by decide⟩
  | dict es ih =>
      intro h depth
      obtain ⟨-, hreadable⟩ : (es.map Prod.fst).Nodup ∧ ReadableEntries es := h
      have hes := readableEntries_iff.1 hreadable
      cases es with
      | nil => exact (by decide : '\r' ∉ ['{', '}'])
      | cons e es =>
          obtain ⟨k, v⟩ := e
          obtain ⟨hv, hrest⟩ := List.forall_mem_cons.1 fun d hd => ih d hd (hes d hd).2 (depth + 1)
          simp only [write, List.mem_cons, List.mem_append, List.not_mem_nil, or_false, not_or]
          exact ⟨by decide, hgap _, return_not_mem_writeString k, by decide, hcolon, hv,
            return_not_mem_writeEntries hgap hcolon hrest, hgap _, by decide⟩

end Line

-- ===== dumps

section Dumps

variable {style : Style} (hgap : ∀ depth, ∀ c ∈ style.gap depth, isWhite c = true)
  (hcolon : ∀ c ∈ style.colon, isWhite c = true)
include hgap hcolon

theorem loads_dumps {v : Value} (h : v.Readable) {n : Nat} (hn : v.nesting ≤ n) {tail : List Char}
    (htail : ∀ c ∈ tail, isWhite c = true) : loads n (dumps style v ++ tail) = .ok v.sortKeys :=
  loads_write hgap hcolon (readable_sortKeys h) ((nesting_sortKeys_le v n).2 hn) 0 htail

/-- Two values are dumped as the same text exactly when they are equal in any
order of their keys. -/
theorem dumps_eq_iff {v w : Value} (hv : v.Readable) (hw : w.Readable) :
    dumps style v = dumps style w ↔ v.Same w := by
  rw [same_iff_sortKeys hv hw]
  constructor
  · intro heq
    have hnone : ∀ c ∈ ([] : List Char), isWhite c = true := fun c hc => absurd hc List.not_mem_nil
    have hload := loads_dumps hgap hcolon hv (Nat.le_max_left v.nesting w.nesting) hnone
    have hload' := loads_dumps hgap hcolon hw (Nat.le_max_right v.nesting w.nesting) hnone
    rw [heq, hload'] at hload
    exact (Except.ok.inj hload).symm
  · intro heq
    unfold dumps
    rw [heq]

end Dumps

end Lib.JsonText
