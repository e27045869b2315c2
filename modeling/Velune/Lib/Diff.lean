/-
Differences of two lists: what a comparison has to say about two lists
(`Script`, the contract of `get_opcodes`), how its changes are put into
groups with some context (`groupedOpcodes`), and what the groups are then
(`Grouped`): walks through both lists, with equal parts between them.

A comparison itself is not defined here; all that is used of one is that
it walks through both lists and tells equal parts truly.
-/
import Mathlib.Data.List.Infix

namespace Lib.Diff

variable {α : Type}

-- ===== slices

/-- `l[i:j]`. -/
def slice (l : List α) (i j : Nat) : List α := (l.take j).drop i

theorem slice_self (l : List α) (i : Nat) : slice l i i = [] := by
  refine List.drop_eq_nil_of_le ?_
  rw [List.length_take]
  exact Nat.min_le_left i l.length

theorem slice_zero (l : List α) (i : Nat) : slice l 0 i = l.take i := rfl

theorem slice_end (l : List α) (i : Nat) : slice l i l.length = l.drop i := by
  rw [slice, List.take_length]

theorem slice_append_slice (l : List α) {i j k : Nat} (hij : i ≤ j) (hjk : j ≤ k) :
    slice l i j ++ slice l j k = slice l i k := by
  have htake : (l.take k).take j = l.take j := by rw [List.take_take, Nat.min_eq_left hjk]
  have hdrop : (l.take k).drop i = ((l.take k).take j).drop i ++ (l.take k).drop j := by
    by_cases hlong : i ≤ (l.take k).length
    · have hsplit := congrArg (List.drop i) (List.take_append_drop j (l.take k)).symm
      rw [List.drop_append] at hsplit
      rw [hsplit]
      congr 1
      by_cases hj : j ≤ (l.take k).length
      · rw [List.length_take, Nat.min_eq_left hj, Nat.sub_eq_zero_of_le hij, List.drop_zero]
      · rw [List.drop_eq_nil_of_le (Nat.le_of_lt (Nat.lt_of_not_le hj)), List.drop_nil]
    · have hle : (l.take k).length ≤ i := Nat.le_of_lt (Nat.lt_of_not_le hlong)
      rw [List.drop_eq_nil_of_le hle, List.drop_eq_nil_of_le (Nat.le_trans hle hij)]
      rw [List.drop_eq_nil_of_le (Nat.le_trans (List.length_take_le' ..) hle), List.append_nil]
  unfold slice
  rw [hdrop, htake]

theorem length_slice {l : List α} {i j : Nat} (hj : j ≤ l.length) :
    (slice l i j).length = j - i := by
  rw [slice, List.length_drop, List.length_take, Nat.min_eq_left hj]

theorem getElem?_slice (l : List α) (i j p : Nat) :
    (slice l i j)[p]? = if i + p < j then l[i + p]? else none := by
  rw [slice, List.getElem?_drop, List.getElem?_take]

theorem slice_eq_slice {l m : List α} {i j : Nat} :
    slice l i j = slice m i j ↔ ∀ p, i ≤ p → p < j → l[p]? = m[p]? := by
  constructor
  · intro h p hi hj
    have hp := congrArg (·[p - i]?) h
    have heq : i + (p - i) = p := Nat.add_sub_cancel' hi
    simpa only [getElem?_slice, heq, if_pos hj] using hp
  · intro h
    refine List.ext_getElem? fun p => ?_
    rw [getElem?_slice, getElem?_slice]
    split
    next hj => exact h _ (Nat.le_add_right i p) hj
    next => rfl

theorem take_append_slice (l : List α) {i j : Nat} (hij : i ≤ j) :
    l.take i ++ slice l i j = l.take j := slice_append_slice l (Nat.zero_le i) hij

-- ===== opcodes

inductive Tag
  | equal
  | replace
  | delete
  | insert
  deriving DecidableEq, Repr

/-- `a[i1:i2]` becomes `b[j1:j2]`. -/
structure Opcode where
  tag : Tag
  i1 : Nat
  i2 : Nat
  j1 : Nat
  j2 : Nat
  deriving DecidableEq, Repr

def Opcode.changed (c : Opcode) : Bool := c.tag != .equal

variable (a b : List α)

/-- From one place of both lists to another, over equal parts. -/
structure Gap (i j i' j' : Nat) : Prop where
  left : i ≤ i'
  right : j ≤ j'
  bound : i' ≤ a.length
  bound' : j' ≤ b.length
  same : i' - i = j' - j
  equal : slice a i i' = slice b j j'

/-- The opcode is about parts of the two lists, and its tag is true. -/
def Opcode.Fits (c : Opcode) : Prop :=
  c.i1 ≤ c.i2 ∧ c.j1 ≤ c.j2 ∧ c.i2 ≤ a.length ∧ c.j2 ≤ b.length ∧
    match c.tag with
    | .equal => Gap a b c.i1 c.j1 c.i2 c.j2
    | .replace => c.i1 < c.i2 ∧ c.j1 < c.j2
    | .delete => c.i1 < c.i2 ∧ c.j1 = c.j2
    | .insert => c.i1 = c.i2 ∧ c.j1 < c.j2

/-- Opcodes one behind the other, from one place of both lists to another. -/
def Walk : Nat → Nat → List Opcode → Nat → Nat → Prop
  | i, j, [], i', j' => i' = i ∧ j' = j
  | i, j, c :: cs, i', j' => c.i1 = i ∧ c.j1 = j ∧ c.Fits a b ∧ Walk c.i2 c.j2 cs i' j'

def Turns : List Opcode → Prop
  | [] => True
  | [_] => True
  | c :: d :: cs => c.changed ≠ d.changed ∧ Turns (d :: cs)

/-- What `get_opcodes` promises: a walk through both lists, equal parts
that are not empty, and what is between two of them in one opcode. -/
structure Script (codes : List Opcode) : Prop where
  walk : Walk a b 0 0 codes a.length b.length
  turns : Turns codes
  kept : ∀ c ∈ codes, c.tag = .equal → c.i1 < c.i2

variable {a b}

theorem Gap.refl {i j : Nat} (hi : i ≤ a.length) (hj : j ≤ b.length) : Gap a b i j i j :=
  ⟨Nat.le_refl i, Nat.le_refl j, hi, hj, by rw [Nat.sub_self, Nat.sub_self],
    by rw [slice_self, slice_self]⟩

theorem Gap.trans {i j i' j' i'' j'' : Nat} (h : Gap a b i j i' j') (h' : Gap a b i' j' i'' j'') :
    Gap a b i j i'' j'' := by
  have hl := h.left
  have hr := h.right
  have hl' := h'.left
  have hr' := h'.right
  have hs := h.same
  have hs' := h'.same
  refine ⟨by omega, by omega, h'.bound, h'.bound', by omega, ?_⟩
  rw [← slice_append_slice a hl hl', ← slice_append_slice b hr hr', h.equal, h'.equal]

theorem Gap.front {i j i' j' : Nat} (h : Gap a b i j i' j') {n : Nat} (hn : n ≤ i' - i) :
    Gap a b i j (i + n) (j + n) := by
  have hl := h.left
  have hr := h.right
  have hb := h.bound
  have hb' := h.bound'
  have hs := h.same
  refine ⟨by omega, by omega, by omega, by omega, by omega, ?_⟩
  have htake : ∀ (l : List α) {k m : Nat}, k + n ≤ m → slice l k (k + n) = (slice l k m).take n := by
    intro l k m hle
    unfold slice
    rw [List.take_drop, List.take_take, Nat.min_eq_left hle]
  have hi : i + n ≤ i' := by omega
  have hj : j + n ≤ j' := by omega
  rw [htake a hi, htake b hj, h.equal]

theorem Gap.back {i j i' j' : Nat} (h : Gap a b i j i' j') {n : Nat} (hn : n ≤ i' - i) :
    Gap a b (i + n) (j + n) i' j' := by
  have hl := h.left
  have hr := h.right
  have hs := h.same
  refine ⟨by omega, by omega, h.bound, h.bound', by omega, ?_⟩
  have hdrop : ∀ (l : List α) (k m : Nat), slice l (k + n) m = (slice l k m).drop n := by
    intro l k m
    unfold slice
    rw [List.drop_drop]
  rw [hdrop, hdrop, h.equal]

theorem walk_append {cs ds : List Opcode} : ∀ {i j i' j' : Nat},
    Walk a b i j (cs ++ ds) i' j' ↔ ∃ k l, Walk a b i j cs k l ∧ Walk a b k l ds i' j' := by
  induction cs with
  | nil =>
      intro i j i' j'
      constructor
      · exact fun h => ⟨i, j, ⟨rfl, rfl⟩, h⟩
      · intro h
        obtain ⟨_, _, ⟨rfl, rfl⟩, h⟩ := h
        exact h
  | cons c cs ih =>
      intro i j i' j'
      constructor
      · intro h
        obtain ⟨hi, hj, hfits, hrest⟩ := h
        obtain ⟨k, l, hcs, hds⟩ := ih.1 hrest
        exact ⟨k, l, ⟨hi, hj, hfits, hcs⟩, hds⟩
      · intro h
        obtain ⟨k, l, ⟨hi, hj, hfits, hcs⟩, hds⟩ := h
        exact ⟨hi, hj, hfits, ih.2 ⟨k, l, hcs, hds⟩⟩

theorem Walk.le : ∀ {cs : List Opcode} {i j i' j' : Nat}, Walk a b i j cs i' j' → i ≤ i' ∧ j ≤ j'
  | [], _, _, _, _, h => ⟨Nat.le_of_eq h.1.symm, Nat.le_of_eq h.2.symm⟩
  | c :: cs, i, j, i', j', h => by
      obtain ⟨rfl, rfl, hfits, hrest⟩ := h
      have hle := hrest.le
      exact ⟨Nat.le_trans hfits.1 hle.1, Nat.le_trans hfits.2.1 hle.2⟩

-- ===== grouping

/-- The last `n` lines of an opcode. -/
def Opcode.ending (n : Nat) (c : Opcode) : Opcode :=
  { c with i1 := max c.i1 (c.i2 - n), j1 := max c.j1 (c.j2 - n) }

/-- The first `n` lines of an opcode. -/
def Opcode.beginning (n : Nat) (c : Opcode) : Opcode :=
  { c with i2 := min c.i2 (c.i1 + n), j2 := min c.j2 (c.j1 + n) }

def trimFirst (n : Nat) : List Opcode → List Opcode
  | [] => []
  | c :: cs => (if c.tag = .equal then c.ending n else c) :: cs

def trimLast (n : Nat) : List Opcode → List Opcode
  | [] => []
  | [c] => [if c.tag = .equal then c.beginning n else c]
  | c :: d :: cs => c :: trimLast n (d :: cs)

/-- The loop of `get_grouped_opcodes`, `group` being the current one: a
large part without changes ends it, and begins the next. -/
def groupLoop (n : Nat) : List Opcode → List Opcode → List (List Opcode)
  | group, [] => if group = [] ∨ group.length = 1 ∧ group.all (!·.changed) then [] else [group]
  | group, c :: cs =>
      if c.tag = .equal ∧ n + n < c.i2 - c.i1 then
        (group ++ [c.beginning n]) :: groupLoop n [c.ending n] cs
      else groupLoop n (group ++ [c]) cs

/-- `get_grouped_opcodes`. -/
def groupedOpcodes (n : Nat) (codes : List Opcode) : List (List Opcode) :=
  groupLoop n [] (trimLast n (trimFirst n (if codes = [] then [⟨.equal, 0, 1, 0, 1⟩] else codes)))

/-- Groups of opcodes with equal parts before, between and behind them; the
one in front of a group is not empty where `apart`, and none between two
groups is. -/
def Grouped (a b : List α) : Bool → Nat → Nat → List (List Opcode) → Nat → Nat → Prop
  | _, i, j, [], i', j' => Gap a b i j i' j'
  | apart, i, j, g :: gs, i', j' => ∃ k l m o, Gap a b i j k l ∧ (apart = true → i < k) ∧ g ≠ [] ∧
      Walk a b k l g m o ∧ Grouped a b true m o gs i' j'

theorem Grouped.after_gap {gs : List (List Opcode)} {i j k l i' j' : Nat} {apart : Bool}
    (hgap : Gap a b i j k l) (hapart : apart = true → i < k) (h : Grouped a b false k l gs i' j') :
    Grouped a b apart i j gs i' j' := by
  cases gs with
  | nil => exact hgap.trans h
  | cons g gs =>
      obtain ⟨k', l', m, o, hgap', -, hrest⟩ := h
      exact ⟨k', l', m, o, hgap.trans hgap', fun h => Nat.lt_of_lt_of_le (hapart h) hgap'.left, hrest⟩

theorem Grouped.before_gap {k l i' j' : Nat} (hgap : Gap a b k l i' j') :
    ∀ {gs : List (List Opcode)} {i j : Nat} {apart : Bool}, Grouped a b apart i j gs k l →
      Grouped a b apart i j gs i' j'
  | [], _, _, _, h => Gap.trans h hgap
  | g :: gs, _, _, _, h => by
      obtain ⟨k', l', m, o, hfirst, hapart, hne, hwalk, hrest⟩ := h
      exact ⟨k', l', m, o, hfirst, hapart, hne, hwalk, hrest.before_gap hgap⟩

section Equal

variable {c : Opcode} (hgap : Gap a b c.i1 c.j1 c.i2 c.j2) (n : Nat)
include hgap

theorem ending_gap : Gap a b (c.ending n).i1 (c.ending n).j1 c.i2 c.j2 ∧
    Gap a b c.i1 c.j1 (c.ending n).i1 (c.ending n).j1 := by
  have hl := hgap.left
  have hr := hgap.right
  have hs := hgap.same
  obtain ⟨m, hm, hi, hj⟩ : ∃ m, m ≤ c.i2 - c.i1 ∧ (c.ending n).i1 = c.i1 + m ∧
      (c.ending n).j1 = c.j1 + m := by
    refine ⟨c.i2 - c.i1 - n, by omega, ?_, ?_⟩
    · show max c.i1 (c.i2 - n) = _
      omega
    · show max c.j1 (c.j2 - n) = _
      omega
  rw [hi, hj]
  exact ⟨hgap.back hm, hgap.front hm⟩

theorem beginning_gap : Gap a b c.i1 c.j1 (c.beginning n).i2 (c.beginning n).j2 ∧
    Gap a b (c.beginning n).i2 (c.beginning n).j2 c.i2 c.j2 := by
  have hl := hgap.left
  have hr := hgap.right
  have hs := hgap.same
  obtain ⟨m, hm, hi, hj⟩ : ∃ m, m ≤ c.i2 - c.i1 ∧ (c.beginning n).i2 = c.i1 + m ∧
      (c.beginning n).j2 = c.j1 + m := by
    refine ⟨min n (c.i2 - c.i1), by omega, ?_, ?_⟩
    · show min c.i2 (c.i1 + n) = _
      omega
    · show min c.j2 (c.j1 + n) = _
      omega
  rw [hi, hj]
  exact ⟨hgap.front hm, hgap.back hm⟩

end Equal

theorem fits_of_gap {c : Opcode} (htag : c.tag = .equal) (h : Gap a b c.i1 c.j1 c.i2 c.j2) :
    c.Fits a b := by
  refine ⟨h.left, h.right, h.bound, h.bound', ?_⟩
  rw [htag]
  exact h

theorem Opcode.Fits.gap {c : Opcode} (h : c.Fits a b) (htag : c.tag = .equal) :
    Gap a b c.i1 c.j1 c.i2 c.j2 := by
  have hequal := h.2.2.2.2
  rwa [htag] at hequal

theorem grouped_groupLoop (n : Nat) : ∀ {codes group : List Opcode} {i j k l i' j' : Nat},
    i' ≤ a.length → j' ≤ b.length → Walk a b i j group k l → Walk a b k l codes i' j' →
      Grouped a b false i j (groupLoop n group codes) i' j' := by
  intro codes
  induction codes with
  | nil =>
      intro group i j k l i' j' hi hj hgroup hcodes
      obtain ⟨rfl, rfl⟩ := hcodes
      have hle := hgroup.le
      have hend : Gap a b i' j' i' j' := Gap.refl hi hj
      have hstart : Gap a b i j i j := Gap.refl (Nat.le_trans hle.1 hi) (Nat.le_trans hle.2 hj)
      rw [groupLoop]
      split
      next hdrop =>
        rcases hdrop with rfl | ⟨hlength, hequal⟩
        · obtain ⟨rfl, rfl⟩ := hgroup
          exact hend
        · -- a part without changes alone is no group
          obtain ⟨c, rfl⟩ := List.length_eq_one_iff.1 hlength
          obtain ⟨rfl, rfl, hfits, rfl, rfl⟩ := hgroup
          have htag : c.tag = .equal := by
            simpa [Opcode.changed] using hequal
          exact hfits.gap htag
      next hkeep =>
        exact ⟨i, j, i', j', hstart, fun h => (by cases h), fun hnil => hkeep (.inl hnil), hgroup,
          hend⟩
  | cons c codes ih =>
      intro group i j k l i' j' hi hj hgroup hcodes
      obtain ⟨rfl, rfl, hfits, hrest⟩ := hcodes
      have hle := hgroup.le
      rw [groupLoop]
      split
      next hlarge =>
        have hgap := hfits.gap hlarge.1
        obtain ⟨hlate, hskipped⟩ := ending_gap hgap n
        obtain ⟨hearly, hskipped'⟩ := beginning_gap hgap n
        have hnext : Grouped a b false (c.ending n).i1 (c.ending n).j1
            (groupLoop n [c.ending n] codes) i' j' :=
          ih hi hj ⟨rfl, rfl, fits_of_gap hlarge.1 hlate, rfl, rfl⟩ hrest
        have hfarther : (c.beginning n).i2 < (c.ending n).i1 := by
          show min c.i2 (c.i1 + n) < max c.i1 (c.i2 - n)
          have hlarge' := hlarge.2
          omega
        have hbetween : Gap a b (c.beginning n).i2 (c.beginning n).j2
            (c.ending n).i1 (c.ending n).j1 := by
          have hfar : (c.beginning n).i2 - c.i1 ≤ (c.ending n).i1 - c.i1 :=
            Nat.sub_le_sub_right (Nat.le_of_lt hfarther) _
          have hrest' := hskipped.back hfar
          have hli := hearly.left
          have hlj := hearly.right
          have hsame := hearly.same
          have hi2 : c.i1 + ((c.beginning n).i2 - c.i1) = (c.beginning n).i2 := by omega
          have hj2 : c.j1 + ((c.beginning n).i2 - c.i1) = (c.beginning n).j2 := by omega
          rwa [hi2, hj2] at hrest'
        refine ⟨i, j, _, _, Gap.refl ?_ ?_, fun h => (by cases h),
          List.append_ne_nil_of_right_ne_nil _ (List.cons_ne_nil _ _),
          walk_append.2 ⟨c.i1, c.j1, hgroup, rfl, rfl, fits_of_gap hlarge.1 hearly, rfl, rfl⟩,
          hnext.after_gap hbetween fun _ => hfarther⟩
        · exact Nat.le_trans hle.1 (Nat.le_trans hfits.1 hfits.2.2.1)
        · exact Nat.le_trans hle.2 (Nat.le_trans hfits.2.1 hfits.2.2.2.1)
      next =>
        exact ih hi hj (walk_append.2 ⟨c.i1, c.j1, hgroup, rfl, rfl, hfits, rfl, rfl⟩) hrest

theorem walk_trimFirst (n : Nat) {codes : List Opcode} {i j i' j' : Nat} (hne : codes ≠ [])
    (h : Walk a b i j codes i' j') :
    ∃ k l, Gap a b i j k l ∧ Walk a b k l (trimFirst n codes) i' j' := by
  cases codes with
  | nil => exact absurd rfl hne
  | cons c codes =>
      obtain ⟨rfl, rfl, hfits, hrest⟩ := h
      rw [trimFirst]
      split
      next htag =>
        obtain ⟨hlate, hskipped⟩ := ending_gap (hfits.gap htag) n
        exact ⟨_, _, hskipped, rfl, rfl, fits_of_gap htag hlate, hrest⟩
      next =>
        refine ⟨c.i1, c.j1, Gap.refl ?_ ?_, rfl, rfl, hfits, hrest⟩
        · exact Nat.le_trans hfits.1 hfits.2.2.1
        · exact Nat.le_trans hfits.2.1 hfits.2.2.2.1

theorem walk_trimLast (n : Nat) : ∀ {codes : List Opcode} {i j i' j' : Nat}, codes ≠ [] →
    Walk a b i j codes i' j' →
      ∃ k l, Walk a b i j (trimLast n codes) k l ∧ Gap a b k l i' j'
  | [], _, _, _, _, hne, _ => absurd rfl hne
  | [c], i, j, i', j', _, h => by
      obtain ⟨rfl, rfl, hfits, rfl, rfl⟩ := h
      rw [trimLast]
      split
      next htag =>
        obtain ⟨hearly, hskipped⟩ := beginning_gap (hfits.gap htag) n
        exact ⟨_, _, ⟨rfl, rfl, fits_of_gap htag hearly, rfl, rfl⟩, hskipped⟩
      next => exact ⟨c.i2, c.j2, ⟨rfl, rfl, hfits, rfl, rfl⟩, Gap.refl hfits.2.2.1 hfits.2.2.2.1⟩
  | c :: d :: codes, i, j, i', j', _, h => by
      obtain ⟨hi, hj, hfits, hrest⟩ := h
      obtain ⟨k, l, hwalk, hgap⟩ := walk_trimLast n (List.cons_ne_nil d codes) hrest
      exact ⟨k, l, ⟨hi, hj, hfits, hwalk⟩, hgap⟩

theorem grouped_groupedOpcodes {codes : List Opcode} (h : Walk a b 0 0 codes a.length b.length)
    (n : Nat) : Grouped a b false 0 0 (groupedOpcodes n codes) a.length b.length := by
  unfold groupedOpcodes
  by_cases hne : codes = []
  · obtain ⟨ha, hb⟩ : a.length = 0 ∧ b.length = 0 := by
      rw [hne] at h
      exact h
    have hnone : groupLoop n [] (trimLast n (trimFirst n [⟨.equal, 0, 1, 0, 1⟩])) = [] := by
      have hsmall : ¬n + n < min 1 (max 0 (1 - n) + n) - max 0 (1 - n) := by omega
      exact if_neg fun hlarge => hsmall hlarge.2
    rw [if_pos hne, hnone]
    have hstart : Gap a b 0 0 0 0 := Gap.refl (Nat.zero_le _) (Nat.zero_le _)
    rw [ha, hb]
    exact hstart
  · rw [if_neg hne]
    obtain ⟨i, j, hgap, hfirst⟩ := walk_trimFirst n hne h
    have hne' : trimFirst n codes ≠ [] := by
      cases codes with
      | nil => exact absurd rfl hne
      | cons c codes => exact List.cons_ne_nil _ _
    obtain ⟨k, l, hwalk, hgap'⟩ := walk_trimLast n hne' hfirst
    have hloop : Grouped a b false i j (groupLoop n [] (trimLast n (trimFirst n codes))) k l :=
      grouped_groupLoop n (Nat.le_trans hgap'.left (Nat.le_refl _))
        (Nat.le_trans hgap'.right (Nat.le_refl _)) ⟨rfl, rfl⟩ hwalk
    exact (hloop.before_gap hgap').after_gap hgap fun h => (by cases h)

-- ===== what is covered

theorem changed_ending (n : Nat) (c : Opcode) : (c.ending n).changed = c.changed := rfl

theorem changed_beginning (n : Nat) (c : Opcode) : (c.beginning n).changed = c.changed := rfl

theorem changed_equal {c : Opcode} (h : c.tag = .equal) : c.changed = false := by
  rw [Opcode.changed, h]
  rfl

theorem flatten_groupLoop (n : Nat) : ∀ (codes group : List Opcode),
    (groupLoop n group codes).flatten.filter (·.changed) = (group ++ codes).filter (·.changed)
  | [], group => by
      rw [groupLoop, List.append_nil]
      split
      next hdrop =>
        rcases hdrop with rfl | ⟨-, hequal⟩
        · rfl
        · refine (List.filter_eq_nil_iff.2 fun c hc => ?_).symm
          have hc' := List.all_eq_true.1 hequal c hc
          simpa using hc'
      next => rw [List.flatten_singleton]
  | c :: codes, group => by
      rw [groupLoop]
      split
      next hlarge =>
        have hcut : ∀ d : Opcode, d.tag = .equal → [d].filter (·.changed) = [] := by
          intro d hd
          rw [List.filter_cons_of_neg (by rw [changed_equal hd]; exact Bool.false_ne_true)]
          rfl
        have hearly := hcut (c.beginning n) hlarge.1
        have hlate := hcut (c.ending n) hlarge.1
        have hc := hcut c hlarge.1
        rw [List.flatten_cons, List.filter_append, flatten_groupLoop n codes, List.filter_append,
          List.filter_append, hearly, hlate, List.append_nil, List.nil_append]
        rw [List.append_cons, List.filter_append, List.filter_append, hc, List.append_nil]
      next =>
        rw [flatten_groupLoop n codes, List.append_assoc]
        rfl

theorem filter_trimFirst (n : Nat) (codes : List Opcode) :
    (trimFirst n codes).filter (·.changed) = codes.filter (·.changed) := by
  cases codes with
  | nil => rfl
  | cons c codes =>
      rw [trimFirst]
      split
      next htag =>
        have hc := changed_equal htag
        rw [List.filter_cons_of_neg (by rw [changed_ending, hc]; exact Bool.false_ne_true),
          List.filter_cons_of_neg (by rw [hc]; exact Bool.false_ne_true)]
      next => rfl

theorem filter_trimLast (n : Nat) : ∀ codes : List Opcode,
    (trimLast n codes).filter (·.changed) = codes.filter (·.changed)
  | [] => rfl
  | [c] => by
      rw [trimLast]
      split
      next htag =>
        have hc := changed_equal htag
        rw [List.filter_cons_of_neg (by rw [changed_beginning, hc]; exact Bool.false_ne_true),
          List.filter_cons_of_neg (by rw [hc]; exact Bool.false_ne_true)]
      next => rfl
  | c :: d :: codes => by
      have ih := filter_trimLast n (d :: codes)
      show (c :: trimLast n (d :: codes)).filter (·.changed) = _
      rw [List.filter_cons, List.filter_cons, ih]

theorem flatten_groupedOpcodes (n : Nat) (codes : List Opcode) :
    (groupedOpcodes n codes).flatten.filter (·.changed) = codes.filter (·.changed) := by
  unfold groupedOpcodes
  rw [flatten_groupLoop, List.nil_append, filter_trimLast, filter_trimFirst]
  split
  next hnil =>
    rw [hnil]
    rfl
  next => rfl

def InOrder : Nat → List Opcode → Prop
  | _, [] => True
  | i, c :: cs => i ≤ c.i1 ∧ c.i1 ≤ c.i2 ∧ InOrder c.i2 cs

theorem inOrder_append {cs ds : List Opcode} : ∀ {i j k l : Nat}, Walk a b i j cs k l →
    InOrder k ds → InOrder i (cs ++ ds) := by
  induction cs with
  | nil =>
      intro i j k l hwalk hds
      obtain ⟨rfl, rfl⟩ := hwalk
      exact hds
  | cons c cs ih =>
      intro i j k l hwalk hds
      obtain ⟨rfl, rfl, hfits, hrest⟩ := hwalk
      exact ⟨Nat.le_refl _, hfits.1, ih hrest hds⟩

-- ===== where groups stand

/-- `group[0]`. -/
def first (g : List Opcode) : Opcode := g.headD ⟨.equal, 0, 0, 0, 0⟩

/-- `group[-1]`. -/
def last (g : List Opcode) : Opcode := g.getLastD ⟨.equal, 0, 0, 0, 0⟩

theorem walk_ends : ∀ {g : List Opcode} {i j i' j' : Nat}, g ≠ [] → Walk a b i j g i' j' →
    (first g).i1 = i ∧ (first g).j1 = j ∧ (last g).i2 = i' ∧ (last g).j2 = j'
  | [], _, _, _, _, hne, _ => absurd rfl hne
  | [c], _, _, _, _, _, h => by
      obtain ⟨rfl, rfl, -, rfl, rfl⟩ := h
      exact ⟨rfl, rfl, rfl, rfl⟩
  | c :: d :: g, _, _, _, _, _, h => by
      obtain ⟨rfl, rfl, -, hrest⟩ := h
      obtain ⟨-, -, hi, hj⟩ := walk_ends (List.cons_ne_nil d g) hrest
      exact ⟨rfl, rfl, hi, hj⟩

theorem Grouped.walk_of_mem : ∀ {gs : List (List Opcode)} {i j i' j' : Nat} {apart : Bool},
    Grouped a b apart i j gs i' j' → ∀ g ∈ gs, g ≠ [] ∧ ∃ k l m o, Walk a b k l g m o
  | [], _, _, _, _, _, _, g, hg => absurd hg List.not_mem_nil
  | g' :: gs, _, _, _, _, _, h, g, hg => by
      obtain ⟨k, l, m, o, -, -, hne, hwalk, hrest⟩ := h
      rcases List.mem_cons.1 hg with rfl | hg
      · exact ⟨hne, k, l, m, o, hwalk⟩
      · exact hrest.walk_of_mem g hg

theorem Grouped.le : ∀ {gs : List (List Opcode)} {i j i' j' : Nat} {apart : Bool},
    Grouped a b apart i j gs i' j' → i ≤ i' ∧ j ≤ j'
  | [], _, _, _, _, _, h => ⟨h.left, h.right⟩
  | g :: gs, i, j, i', j', _, h => by
      obtain ⟨k, l, m, o, hgap, -, -, hwalk, hrest⟩ := h
      have hl := hgap.left
      have hr := hgap.right
      have hle := hwalk.le
      have hle' := hrest.le
      exact ⟨by omega, by omega⟩

theorem Grouped.le_first : ∀ {gs : List (List Opcode)} {i j i' j' : Nat} {apart : Bool},
    Grouped a b apart i j gs i' j' → ∀ g ∈ gs, i ≤ (first g).i1
  | [], _, _, _, _, _, _, g, hg => absurd hg List.not_mem_nil
  | g' :: gs, _, _, _, _, _, h, g, hg => by
      obtain ⟨k, l, m, o, hgap, -, hne, hwalk, hrest⟩ := h
      rcases List.mem_cons.1 hg with rfl | hg
      · rw [(walk_ends hne hwalk).1]
        exact hgap.left
      · exact Nat.le_trans (Nat.le_trans hgap.left hwalk.le.1) (hrest.le_first g hg)

theorem Grouped.behind {gs : List (List Opcode)} {i j i' j' : Nat}
    (h : Grouped a b true i j gs i' j') : ∀ g ∈ gs, 0 < (first g).i1 ∧ 0 < (last g).i2 := by
  intro g hg
  cases gs with
  | nil => exact absurd hg List.not_mem_nil
  | cons g' gs =>
      obtain ⟨k, l, m, o, -, hapart, hne, hwalk, hrest⟩ := h
      have hk := hapart rfl
      have hkm := hwalk.le.1
      rcases List.mem_cons.1 hg with rfl | hg
      · obtain ⟨hfirst, -, hlast, -⟩ := walk_ends hne hwalk
        omega
      · have hlater := hrest.le_first g hg
        obtain ⟨hne', k', l', m', o', hwalk'⟩ := hrest.walk_of_mem g hg
        obtain ⟨hfirst, -, hlast, -⟩ := walk_ends hne' hwalk'
        have hle := hwalk'.le.1
        omega

theorem Grouped.last_le : ∀ {gs : List (List Opcode)} {i j i' j' : Nat} {apart : Bool},
    Grouped a b apart i j gs i' j' → ∀ g ∈ gs, (first g).i1 ≤ (last g).i2 ∧ (last g).i2 ≤ i'
  | [], _, _, _, _, _, _, g, hg => absurd hg List.not_mem_nil
  | g' :: gs, _, _, _, _, _, h, g, hg => by
      obtain ⟨k, l, m, o, -, -, hne, hwalk, hrest⟩ := h
      rcases List.mem_cons.1 hg with rfl | hg
      · obtain ⟨hfirst, -, hlast, -⟩ := walk_ends hne hwalk
        rw [hfirst, hlast]
        exact ⟨hwalk.le.1, hrest.le.1⟩
      · exact hrest.last_le g hg

/-- An equal part keeps some of its lines when it is cut, if there is to be
context. -/
theorem kept_groupLoop {n : Nat} (hn : 1 ≤ n) : ∀ (codes group : List Opcode),
    (∀ c ∈ group ++ codes, c.tag = .equal → c.i1 < c.i2) →
      ∀ g ∈ groupLoop n group codes, ∀ c ∈ g, c.tag = .equal → c.i1 < c.i2
  | [], group, h, g, hg => by
      rw [groupLoop] at hg
      split at hg
      next => exact absurd hg List.not_mem_nil
      next =>
        rw [List.mem_singleton.1 hg]
        exact fun c hc => h c (List.mem_append_left _ hc)
  | c :: codes, group, h, g, hg => by
      have hc := h c (List.mem_append_right _ List.mem_cons_self)
      rw [groupLoop] at hg
      split at hg
      next hlarge =>
        have hc' := hc hlarge.1
        rcases List.mem_cons.1 hg with rfl | hg
        · intro d hd htag
          rcases List.mem_append.1 hd with hd | hd
          · exact h d (List.mem_append_left _ hd) htag
          · rw [List.mem_singleton.1 hd]
            show c.i1 < min c.i2 (c.i1 + n)
            omega
        · refine kept_groupLoop hn codes [c.ending n] (fun d hd htag => ?_) g hg
          rcases List.mem_append.1 hd with hd | hd
          · rw [List.mem_singleton.1 hd]
            show max c.i1 (c.i2 - n) < c.i2
            omega
          · exact h d (List.mem_append_right _ (List.mem_cons_of_mem c hd)) htag
      next => exact kept_groupLoop hn codes (group ++ [c]) (by rwa [← List.append_cons]) g hg

/-- Only where there are no equal parts at all is there a group without
one. -/
theorem changed_groupLoop (n : Nat) : ∀ (codes group : List Opcode), ∀ g ∈ groupLoop n group codes,
    (∀ c ∈ g, c.changed = true) → ∀ c ∈ group ++ codes, c.changed = true
  | [], group, g, hg, h => by
      rw [groupLoop] at hg
      split at hg
      next => exact absurd hg List.not_mem_nil
      next =>
        rw [List.append_nil, ← List.mem_singleton.1 hg]
        exact h
  | c :: codes, group, g, hg, h => by
      rw [groupLoop] at hg
      split at hg
      next hlarge =>
        have hequal := changed_equal hlarge.1
        rcases List.mem_cons.1 hg with rfl | hg
        · have hchanged := h _ (List.mem_append_right _ (List.mem_singleton_self (c.beginning n)))
          rw [changed_beginning, hequal] at hchanged
          cases hchanged
        · have hchanged := changed_groupLoop n codes [c.ending n] g hg h _ List.mem_cons_self
          rw [changed_ending, hequal] at hchanged
          cases hchanged
      next =>
        rw [List.append_cons]
        exact changed_groupLoop n codes (group ++ [c]) g hg h

theorem map_tag_trimFirst (n : Nat) (codes : List Opcode) :
    (trimFirst n codes).map (·.tag) = codes.map (·.tag) := by
  cases codes with
  | nil => rfl
  | cons c codes =>
      rw [trimFirst]
      split <;> rfl

theorem map_tag_trimLast (n : Nat) : ∀ codes : List Opcode,
    (trimLast n codes).map (·.tag) = codes.map (·.tag)
  | [] => rfl
  | [c] => by
      rw [trimLast]
      split <;> rfl
  | c :: d :: codes => congrArg (c.tag :: ·) (map_tag_trimLast n (d :: codes))

theorem kept_trimFirst {n : Nat} (hn : 1 ≤ n) {codes : List Opcode}
    (h : ∀ c ∈ codes, c.tag = .equal → c.i1 < c.i2) :
    ∀ c ∈ trimFirst n codes, c.tag = .equal → c.i1 < c.i2 := by
  cases codes with
  | nil => exact h
  | cons c codes =>
      obtain ⟨hc, hcodes⟩ := List.forall_mem_cons.1 h
      refine List.forall_mem_cons.2 ⟨?_, hcodes⟩
      split
      next htag =>
        have hc' := hc htag
        intro _
        show max c.i1 (c.i2 - n) < c.i2
        omega
      next => exact hc

theorem kept_trimLast {n : Nat} (hn : 1 ≤ n) : ∀ {codes : List Opcode},
    (∀ c ∈ codes, c.tag = .equal → c.i1 < c.i2) →
      ∀ c ∈ trimLast n codes, c.tag = .equal → c.i1 < c.i2
  | [], h => h
  | [c], h => by
      have hc := h c List.mem_cons_self
      intro d hd
      rw [trimLast, List.mem_singleton] at hd
      rw [hd]
      split
      next htag =>
        have hc' := hc htag
        intro _
        show c.i1 < min c.i2 (c.i1 + n)
        omega
      next => exact hc
  | c :: d :: codes, h => by
      obtain ⟨hc, hcodes⟩ := List.forall_mem_cons.1 h
      exact List.forall_mem_cons.2 ⟨hc, kept_trimLast hn hcodes⟩

theorem old_nonempty {codes : List Opcode} (h : Script a b codes) (ha : a ≠ []) {n : Nat}
    (hn : 1 ≤ n) : ∀ g ∈ groupedOpcodes n codes, (first g).i1 < (last g).i2 := by
  intro g hg
  obtain ⟨hne, k, l, m, o, hwalk⟩ := (grouped_groupedOpcodes h.walk n).walk_of_mem g hg
  obtain ⟨hk, -, hm, -⟩ := walk_ends hne hwalk
  rw [hk, hm]
  have hcodes : codes ≠ [] := by
    intro hnil
    have hwalk := h.walk
    rw [hnil] at hwalk
    exact ha (List.eq_nil_of_length_eq_zero hwalk.1)
  unfold groupedOpcodes at hg
  rw [if_neg hcodes] at hg
  by_contra hempty
  -- then all of the group is inserted
  have hflat : ∀ c ∈ g, c.i1 = c.i2 := by
    intro c hc
    obtain ⟨before, after, rfl⟩ := List.append_of_mem hc
    obtain ⟨k', l', hbefore, rfl, rfl, hfits, hafter⟩ := walk_append.1 hwalk
    have hle := hbefore.le.1
    have hle' := hafter.le.1
    have hc := hfits.1
    omega
  have hchanged : ∀ c ∈ g, c.changed = true := by
    intro c hc
    by_contra hequal
    have htag : c.tag = .equal := by simpa [Opcode.changed] using hequal
    have hkept := kept_groupLoop hn _ [] (kept_trimLast hn (kept_trimFirst hn h.kept)) g hg c hc htag
    exact absurd (hflat c hc) (Nat.ne_of_lt hkept)
  have hall : ∀ c ∈ codes, c.changed = true := by
    have htrimmed := changed_groupLoop n _ [] g hg hchanged
    have htags : (trimLast n (trimFirst n codes)).map (·.tag) = codes.map (·.tag) := by
      rw [map_tag_trimLast, map_tag_trimFirst]
    intro c hc
    have hmem : c.tag ∈ (trimLast n (trimFirst n codes)).map (·.tag) := by
      rw [htags]
      exact List.mem_map_of_mem hc
    obtain ⟨d, hd, htag⟩ := List.mem_map.1 hmem
    have hd' := htrimmed d hd
    rwa [Opcode.changed, htag] at hd'
  -- and there is nothing else
  obtain ⟨c, rfl⟩ : ∃ c, codes = [c] := by
    cases codes with
    | nil => exact absurd rfl hcodes
    | cons c rest =>
        cases rest with
        | nil => exact ⟨c, rfl⟩
        | cons d rest =>
            have hturn := h.turns.1
            rw [hall c List.mem_cons_self, hall d (List.mem_cons_of_mem c List.mem_cons_self)] at hturn
            exact absurd rfl hturn
  obtain ⟨d, hd⟩ := List.exists_mem_of_ne_nil g hne
  have hmem : d ∈ (groupedOpcodes n [c]).flatten.filter (·.changed) := by
    refine List.mem_filter.2 ⟨List.mem_flatten.2 ⟨g, ?_, hd⟩, hchanged d hd⟩
    unfold groupedOpcodes
    rw [if_neg hcodes]
    exact hg
  rw [flatten_groupedOpcodes] at hmem
  have hdc : d = c := List.mem_singleton.1 (List.mem_of_mem_filter hmem)
  obtain ⟨hi, -, -, hend, -⟩ := h.walk
  have hflat' := hflat d hd
  rw [hdc, hi, ← hend] at hflat'
  exact ha (List.eq_nil_of_length_eq_zero hflat'.symm)

-- ===== patches

/-- A list with parts of it replaced, from `pos` on: the places of each
part, and what stands there then. -/
def patch (l : List α) : Nat → List (Nat × Nat × List α) → List α
  | pos, [] => l.drop pos
  | pos, (i, j, new) :: edits => slice l pos i ++ (new ++ patch l j edits)

theorem slice_append_patch (l : List α) {pos k : Nat} (hk : pos ≤ k) :
    ∀ {edits : List (Nat × Nat × List α)}, (∀ e ∈ edits.head?, k ≤ e.1) →
      slice l pos k ++ patch l k edits = patch l pos edits
  | [], _ => by
      show slice l pos k ++ l.drop k = l.drop pos
      by_cases hlong : k ≤ l.length
      · rw [← slice_end l k, ← slice_end l pos, slice_append_slice l hk hlong]
      · have hle : l.length ≤ k := Nat.le_of_lt (Nat.lt_of_not_le hlong)
        rw [List.drop_eq_nil_of_le hle, List.append_nil, slice, List.take_of_length_le hle]
  | (i, j, new) :: edits, h => by
      have hki : k ≤ i := h _ rfl
      show slice l pos k ++ (slice l k i ++ (new ++ patch l j edits)) = _
      rw [← List.append_assoc, slice_append_slice l hk hki]
      rfl

theorem flatMap_left : ∀ {cs : List Opcode} {i j i' j' : Nat}, Walk a b i j cs i' j' →
    cs.flatMap (fun c => slice a c.i1 c.i2) = slice a i i'
  | [], _, _, _, _, h => by
      rw [h.1, slice_self]
      rfl
  | c :: cs, _, _, _, _, h => by
      obtain ⟨rfl, rfl, hfits, hrest⟩ := h
      rw [List.flatMap_cons, flatMap_left hrest, slice_append_slice a hfits.1 hrest.le.1]

theorem flatMap_right : ∀ {cs : List Opcode} {i j i' j' : Nat}, Walk a b i j cs i' j' →
    cs.flatMap (fun c => slice b c.j1 c.j2) = slice b j j'
  | [], _, _, _, _, h => by
      rw [h.2, slice_self]
      rfl
  | c :: cs, _, _, _, _, h => by
      obtain ⟨rfl, rfl, hfits, hrest⟩ := h
      rw [List.flatMap_cons, flatMap_right hrest, slice_append_slice b hfits.2.1 hrest.le.2]

theorem Walk.le_of_mem : ∀ {cs : List Opcode} {i j i' j' : Nat}, Walk a b i j cs i' j' →
    ∀ c ∈ cs, i ≤ c.i1 ∧ j ≤ c.j1 ∧ c.Fits a b
  | [], _, _, _, _, _, c, hc => absurd hc List.not_mem_nil
  | d :: cs, _, _, _, _, h, c, hc => by
      obtain ⟨rfl, rfl, hfits, hrest⟩ := h
      rcases List.mem_cons.1 hc with rfl | hc
      · exact ⟨Nat.le_refl _, Nat.le_refl _, hfits⟩
      · obtain ⟨hi, hj, hc⟩ := hrest.le_of_mem c hc
        exact ⟨Nat.le_trans hfits.1 hi, Nat.le_trans hfits.2.1 hj, hc⟩

theorem Opcode.Fits.moves {c : Opcode} (h : c.Fits a b) (hc : c.changed = true) :
    c.i1 + c.j1 < c.i2 + c.j2 := by
  obtain ⟨hi, hj, -, -, htag⟩ := h
  unfold Opcode.changed at hc
  cases hkind : c.tag with
  | equal =>
      rw [hkind] at hc
      cases hc
  | replace =>
      rw [hkind] at htag
      exact Nat.add_lt_add_of_lt_of_le htag.1 hj
  | delete =>
      rw [hkind] at htag
      exact Nat.add_lt_add_of_lt_of_le htag.1 hj
  | insert =>
      rw [hkind] at htag
      exact Nat.add_lt_add_of_le_of_lt hi htag.2

theorem Walk.nodup : ∀ {cs : List Opcode} {i j i' j' : Nat}, Walk a b i j cs i' j' →
    (cs.filter (·.changed)).Nodup
  | [], _, _, _, _, _ => List.nodup_nil
  | c :: cs, _, _, _, _, h => by
      obtain ⟨rfl, rfl, hfits, hrest⟩ := h
      rw [List.filter_cons]
      split
      next hc =>
        refine List.nodup_cons.2 ⟨fun hmem => ?_, hrest.nodup⟩
        obtain ⟨hi, hj, -⟩ := hrest.le_of_mem c (List.mem_of_mem_filter hmem)
        have hmoves := hfits.moves hc
        omega
      next => exact hrest.nodup

-- ===== unified diffs

/-- `_format_range_unified`: the number of the first line and how many
there are; an empty range is at the line in front of it. -/
def formatRange (start stop : Nat) : List Char :=
  if stop - start = 1 then Nat.toDigits 10 (start + 1)
  else
    Nat.toDigits 10 (if stop - start = 0 then start else start + 1)
      ++ ',' :: Nat.toDigits 10 (stop - start)

def hunkHeader (g : List Opcode) : List Char :=
  "@@ -".toList ++ formatRange (first g).i1 (last g).i2 ++ " +".toList
    ++ formatRange (first g).j1 (last g).j2 ++ " @@\n".toList

def opcodeLines (a b : List (List Char)) (c : Opcode) : List (List Char) :=
  match c.tag with
  | .equal => (slice a c.i1 c.i2).map (' ' :: ·)
  | .replace => (slice a c.i1 c.i2).map ('-' :: ·) ++ (slice b c.j1 c.j2).map ('+' :: ·)
  | .delete => (slice a c.i1 c.i2).map ('-' :: ·)
  | .insert => (slice b c.j1 c.j2).map ('+' :: ·)

/-- What `unified_diff` yields behind its first two lines, put together. -/
def unifiedHunks (a b : List (List Char)) (groups : List (List Opcode)) : List Char :=
  groups.flatMap fun g => hunkHeader g ++ (g.flatMap (opcodeLines a b)).flatten

end Lib.Diff
