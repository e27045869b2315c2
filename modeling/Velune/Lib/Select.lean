/-
What a `SELECT` fixes and what it leaves open. Rows of equal keys come in
no particular order, so the result of an `ORDER BY` is any rearrangement
that is sorted (`Ordered`); it is one list exactly where the keys rise
(`ordered_unique`, `rising_of_unique`). `LIKE` is the matching of a
pattern with two wildcards, without regard to ASCII case.
-/
import Mathlib.Data.Char
import Mathlib.Data.List.Infix
import Mathlib.Data.List.Lex
import Mathlib.Data.List.Sort

namespace Lib.Select

-- ===== ordering

section Ordering

variable {α κ : Type} [LinearOrder κ] {key : α → κ} {rows target : List α}

/-- A result of `ORDER BY key`. -/
def Ordered (key : α → κ) (rows result : List α) : Prop :=
  result.Perm rows ∧ result.Pairwise (key · ≤ key ·)

/-- `LIMIT`; a negative one is none. -/
def limitRows (limit : Int) (rows : List α) : List α :=
  if limit < 0 then rows else rows.take limit.toNat

theorem limitRows_nat (limit : Nat) (rows : List α) : limitRows limit rows = rows.take limit := by
  unfold limitRows
  rw [if_neg (Int.not_lt.2 (Int.natCast_nonneg limit)), Int.toNat_natCast]

theorem exists_ordered (key : α → κ) (rows : List α) : ∃ result, Ordered key rows result := by
  have htrans : ∀ a b c : α, decide (key a ≤ key b) = true → decide (key b ≤ key c) = true →
      decide (key a ≤ key c) = true :=
    fun a b c hab hbc => decide_eq_true (le_trans (of_decide_eq_true hab) (of_decide_eq_true hbc))
  have htotal : ∀ a b : α, (decide (key a ≤ key b) || decide (key b ≤ key a)) = true :=
    fun a b => by simpa using le_total (key a) (key b)
  have hsorted := List.pairwise_mergeSort htrans htotal rows
  exact ⟨_, List.mergeSort_perm rows _, hsorted.imp fun h => of_decide_eq_true h⟩

theorem ordered_unique (hrising : target.Pairwise (key · < key ·)) (hperm : target.Perm rows)
    {result : List α} (h : Ordered key rows result) : result = target := by
  refine (h.1.trans hperm.symm).eq_of_pairwise (fun a b ha hb hab hba => ?_) h.2
    (hrising.imp le_of_lt)
  have hnodup : (target.map key).Nodup := List.pairwise_map.2 (hrising.imp ne_of_lt)
  have hmem := (h.1.trans hperm.symm).mem_iff.1 ha
  exact List.inj_on_of_nodup_map hnodup hmem hb (le_antisymm hab hba)

/-- Where two neighbours of equal keys could change places, there would be
two results. -/
theorem rising_of_unique (hnodup : target.Nodup) (hperm : target.Perm rows)
    (h : ∀ result, Ordered key rows result → result = target) :
    target.Pairwise (key · < key ·) := by
  obtain ⟨result, hresult⟩ := exists_ordered key rows
  have hsorted : target.Pairwise (key · ≤ key ·) := h result hresult ▸ hresult.2
  have hneighbours : ∀ before a b after, target = before ++ a :: b :: after → key a < key b := by
    intro before a b after htarget
    subst htarget
    obtain ⟨hbefore, hrest, hcross⟩ := List.pairwise_append.1 hsorted
    obtain ⟨ha, hrest'⟩ := List.pairwise_cons.1 hrest
    obtain ⟨hb, hafter⟩ := List.pairwise_cons.1 hrest'
    refine lt_of_le_of_ne (ha b (List.mem_cons_self ..)) fun heq => ?_
    have hswapped : Ordered key rows (before ++ b :: a :: after) := by
      refine ⟨((List.Perm.swap a b after).append_left before).trans hperm, ?_⟩
      refine List.pairwise_append.2 ⟨hbefore, List.pairwise_cons.2 ⟨?_, List.pairwise_cons.2 ⟨?_, hafter⟩⟩, ?_⟩
      · intro x hx
        rcases List.mem_cons.1 hx with rfl | hx
        · exact le_of_eq heq.symm
        · exact hb x hx
      · exact fun x hx => ha x (List.mem_cons_of_mem _ hx)
      · intro x hx y hy
        refine hcross x hx y ?_
        simp only [List.mem_cons] at hy ⊢
        exact or_left_comm.1 hy
    have hsame := List.append_cancel_left (h _ hswapped)
    have hab : b = a := (List.cons.inj hsame).1
    have hrepeat := (List.nodup_cons.1 (List.nodup_append.1 hnodup).2.1).1
    exact hrepeat (hab ▸ List.mem_cons_self ..)
  have hsuffix : ∀ rest before, target = before ++ rest → rest.Pairwise (key · < key ·) := by
    intro rest
    induction rest with
    | nil => exact fun _ _ => List.Pairwise.nil
    | cons a rest ih =>
        intro before htarget
        have hrest := ih (before ++ [a]) (by rw [htarget, List.append_assoc, List.singleton_append])
        refine List.pairwise_cons.2 ⟨fun x hx => ?_, hrest⟩
        cases rest with
        | nil => cases hx
        | cons b after =>
            have hab := hneighbours before a b after htarget
            rcases List.mem_cons.1 hx with rfl | hx
            · exact hab
            · exact lt_trans hab ((List.pairwise_cons.1 hrest).1 x hx)
  exact hsuffix target [] rfl

theorem eq_of_take_perm : ∀ {l m : List α}, (∀ n, (l.take n).Perm (m.take n)) → l = m
  | [], [], _ => rfl
  | [], b :: m, h => by cases (h 1).length_eq
  | a :: l, [], h => by cases (h 1).length_eq
  | a :: l, b :: m, h => by
      have hone : [a].Perm [b] := h 1
      have hab : a = b := List.singleton_perm_singleton.1 hone
      subst hab
      rw [eq_of_take_perm fun n => (List.perm_cons a).1 (h (n + 1))]

end Ordering

-- ===== LIKE

/-- `text LIKE pattern`. -/
def like : List Char → List Char → Bool
  | [], text => text.isEmpty
  | c :: pattern, text =>
      if c = '%' then text.tails.any (like pattern)
      else
        match text with
        | [] => false
        | d :: rest => (c = '_' || c.toLower = d.toLower) && like pattern rest

def Contains (text query : List Char) : Prop :=
  query.map Char.toLower <:+: text.map Char.toLower

instance (text query : List Char) : Decidable (Contains text query) :=
  inferInstanceAs (Decidable (_ <:+: _))

def containing (query : List Char) : List Char := '%' :: query ++ ['%']

theorem like_percent {pattern text : List Char} :
    like ('%' :: pattern) text = true ↔ ∃ tail, tail <:+ text ∧ like pattern tail = true := by
  have hany : like ('%' :: pattern) text = text.tails.any (like pattern) := if_pos rfl
  rw [hany, List.any_eq_true]
  exact exists_congr fun tail => and_congr_left fun _ => List.mem_tails _ _

theorem like_any (text : List Char) : like ['%'] text = true :=
  like_percent.2 ⟨[], List.nil_suffix, rfl⟩

theorem like_prefix : ∀ (query text rest : List Char),
    text.map Char.toLower = query.map Char.toLower → like (query ++ ['%']) (text ++ rest) = true
  | [], text, rest, h => by
      rw [List.map_eq_nil_iff.1 h]
      exact like_any rest
  | c :: query, [], rest, h => by cases h
  | c :: query, d :: text, rest, h => by
      obtain ⟨hc, htext⟩ := List.cons.inj h
      have ih := like_prefix query text rest htext
      rw [List.cons_append, List.cons_append, like]
      split
      · exact List.any_eq_true.2 ⟨text ++ rest, (List.mem_tails _ _).2 (List.suffix_cons d _), ih⟩
      · rw [ih, hc]
        simp

/-- A text that contains the query matches its pattern, whatever is in
it. -/
theorem like_of_contains {text query : List Char} (h : Contains text query) :
    like (containing query) text = true := by
  obtain ⟨before, after, heq⟩ := h
  obtain ⟨front, back, rfl, hfront, -⟩ := List.map_eq_append_iff.1 heq.symm
  obtain ⟨head, middle, rfl, -, hmiddle⟩ := List.map_eq_append_iff.1 hfront
  refine like_percent.2 ⟨middle ++ back, ⟨head, by rw [List.append_assoc]⟩, ?_⟩
  exact like_prefix query middle back hmiddle

def Plain (query : List Char) : Prop := ∀ c ∈ query, c ≠ '%' ∧ c ≠ '_'

theorem prefix_of_like : ∀ (query text : List Char), Plain query →
    like (query ++ ['%']) text = true → query.map Char.toLower <+: text.map Char.toLower
  | [], _, _, _ => List.nil_prefix
  | c :: query, [], hplain, h => by
      rw [List.cons_append, like, if_neg (hplain c (List.mem_cons_self ..)).1] at h
      cases h
  | c :: query, d :: text, hplain, h => by
      obtain ⟨hpercent, hunderscore⟩ := hplain c (List.mem_cons_self ..)
      rw [List.cons_append, like, if_neg hpercent] at h
      simp only [hunderscore, decide_false, Bool.false_or, Bool.and_eq_true, decide_eq_true_eq] at h
      have ih := prefix_of_like query text (fun x hx => hplain x (List.mem_cons_of_mem c hx)) h.2
      rw [List.map_cons, List.map_cons, h.1]
      exact List.cons_prefix_cons.2 ⟨rfl, ih⟩

theorem contains_of_like {text query : List Char} (hplain : Plain query)
    (h : like (containing query) text = true) : Contains text query := by
  obtain ⟨tail, ⟨head, hhead⟩, hlike⟩ := like_percent.1 h
  refine (prefix_of_like query tail hplain hlike).isInfix.trans ?_
  exact ⟨head.map Char.toLower, [], by rw [List.append_nil, ← List.map_append, hhead]⟩

end Lib.Select
