/-
The segment matcher finds a split whenever there is one.

The loop keeps one free item, and so one fact about all the others
(`Stands`): to split the whole list is to split what is left of it from
the last free item on, at the mark or behind it. A later free item takes
over from the earlier one, because what stands between them takes one
segment for one item wherever it starts (`stands_free`).
-/
import Velune.Ignore.Segments

namespace Velune.Ignore

open Lib Lib.Wildcard

variable {items : List (Option (PyStr → Bool))} {parts : List PyStr} {c : Place}

-- ===== invariant

/-- What the place says about the whole pattern. Without a free item behind
it, all items up to here took a segment each; with one, all items since
then did, from the mark on, and an earlier mark splits nothing. -/
def Stands (items : List (Option (PyStr → Bool))) (parts : List PyStr) (c : Place) : Prop :=
  match c.star with
  | none => Splits items parts ↔ Splits (items.drop c.item) (parts.drop c.part)
  | some star =>
      (Splits items parts ↔ ∃ n, c.mark ≤ n ∧ n ≤ parts.length ∧
        Splits (items.drop (star + 1)) (parts.drop n)) ∧
      c.part ≤ parts.length ∧
      ∃ block taken, items.drop (star + 1) = block ++ items.drop c.item ∧
        parts.drop c.mark = taken ++ parts.drop c.part ∧ Walks block taken

theorem stands_start : Stands items parts Place.start := Iff.rfl

theorem splits_mark {block : List (Option (PyStr → Bool))} {taken : List PyStr} {star : Nat}
    (hitems : items.drop (star + 1) = block ++ items.drop c.item)
    (hparts : parts.drop c.mark = taken ++ parts.drop c.part) (hwalks : Walks block taken) :
    Splits (items.drop (star + 1)) (parts.drop c.mark) ↔
      Splits (items.drop c.item) (parts.drop c.part) := by
  rw [hitems, hparts]
  exact splits_block hwalks

/-- Behind the mark, what stands before the next item takes as many
segments as it did. -/
theorem splits_later {block : List (Option (PyStr → Bool))} {taken : List PyStr} {star n : Nat}
    (hitems : items.drop (star + 1) = block ++ items.drop c.item)
    (hparts : parts.drop c.mark = taken ++ parts.drop c.part) (hwalks : Walks block taken)
    (hpart : c.part ≤ parts.length) (hmark : c.mark ≤ n) (hn : n ≤ parts.length)
    (h : Splits (items.drop (star + 1)) (parts.drop n)) :
    ∃ m, c.part ≤ m ∧ m ≤ parts.length ∧ Splits (items.drop c.item) (parts.drop m) := by
  rw [hitems] at h
  obtain ⟨run, rest, hrun, hlength, hrest⟩ := splits_predicates hwalks h
  have hlengths := congrArg List.length hparts
  have htotal := congrArg List.length hrun
  simp only [List.length_append, List.length_drop] at hlengths htotal
  have hle := c.mark_le
  refine ⟨n + run.length, by omega, by omega, ?_⟩
  rw [← List.drop_drop, hrun, List.drop_left]
  exact hrest

-- ===== steps

theorem drop_item {item : Option (PyStr → Bool)} {i : Nat} (h : items[i]? = some item) :
    items.drop i = item :: items.drop (i + 1) := by
  obtain ⟨hi, hitem⟩ := List.getElem?_eq_some_iff.1 h
  rw [List.drop_eq_getElem_cons hi, hitem]

theorem drop_part (h : c.part < parts.length) :
    parts.drop c.part = parts[c.part] :: parts.drop (c.part + 1) :=
  List.drop_eq_getElem_cons h

theorem stands_free (h : Stands items parts c) (hpart : c.part < parts.length)
    (hitem : items[c.item]? = some none) : Stands items parts c.free := by
  have hdrop := drop_item hitem
  have hhere : Splits (items.drop c.item) (parts.drop c.part) ↔
      ∃ n, c.part ≤ n ∧ n ≤ parts.length ∧ Splits (items.drop (c.item + 1)) (parts.drop n) := by
    rw [hdrop, splits_free]
    constructor
    · intro ⟨n, hn, hsplits⟩
      rw [List.length_drop] at hn
      rw [List.drop_drop] at hsplits
      exact ⟨c.part + n, by omega, by omega, hsplits⟩
    · intro ⟨n, hle, hn, hsplits⟩
      refine ⟨n - c.part, by rw [List.length_drop]; omega, ?_⟩
      rw [List.drop_drop, Nat.add_sub_cancel' hle]
      exact hsplits
  refine ⟨?_, Nat.le_of_lt hpart, [], [], rfl, rfl, List.Forall₂.nil⟩
  rcases hstar : c.star with _ | star
  · unfold Stands at h
    rw [hstar] at h
    exact h.trans hhere
  · unfold Stands at h
    rw [hstar] at h
    obtain ⟨hwhole, hlast, block, taken, hitems, hparts, hwalks⟩ := h
    rw [hwhole]
    constructor
    · intro ⟨n, hle, hn, hsplits⟩
      obtain ⟨m, hm, hmlen, hlater⟩ := splits_later hitems hparts hwalks hlast hle hn hsplits
      rw [hdrop, splits_free] at hlater
      obtain ⟨k, hk, hrest⟩ := hlater
      rw [List.length_drop] at hk
      rw [List.drop_drop] at hrest
      exact ⟨m + k, Nat.le_trans hm (Nat.le_add_right m k), by omega, hrest⟩
    · intro hlater
      exact ⟨c.mark, Nat.le_refl _, Nat.le_trans c.mark_le hlast, (splits_mark hitems hparts hwalks).2 (hhere.2 hlater)⟩

theorem stands_accept {accepts : PyStr → Bool} (h : Stands items parts c)
    (hpart : c.part < parts.length) (hitem : items[c.item]? = some (some accepts))
    (haccepts : accepts parts[c.part] = true) : Stands items parts c.accept := by
  have hdropItem := drop_item hitem
  have hdropPart := drop_part hpart
  unfold Stands at h ⊢
  show match c.star with | none => _ | some star => _
  rcases hstar : c.star with _ | star
  · rw [hstar] at h
    refine h.trans ?_
    rw [hdropItem, hdropPart]
    have hone : Walks [some accepts] [parts[c.part]] :=
      List.Forall₂.cons ⟨accepts, rfl, haccepts⟩ List.Forall₂.nil
    exact splits_block hone
  · rw [hstar] at h
    obtain ⟨hwhole, hlast, block, taken, hitems, hparts, hwalks⟩ := h
    refine ⟨hwhole, hpart, block ++ [some accepts], taken ++ [parts[c.part]], ?_, ?_,
      hwalks.concat haccepts⟩
    · rw [hitems, hdropItem, List.append_assoc]
      rfl
    · show parts.drop c.mark = _
      rw [hparts, hdropPart, List.append_assoc]
      rfl

/-- Where nothing splits what is left here, the last free item takes one
segment more. -/
theorem stands_back {star : Nat} (h : Stands items parts c) (hpart : c.part < parts.length)
    (hstar : c.star = some star) (hnot : ¬Splits (items.drop c.item) (parts.drop c.part)) :
    Stands items parts (c.back star) := by
  unfold Stands at h
  rw [hstar] at h
  obtain ⟨hwhole, hlast, block, taken, hitems, hparts, hwalks⟩ := h
  have hle := c.mark_le
  refine ⟨?_, by show c.mark + 1 ≤ _; omega, [], [], rfl, rfl, List.Forall₂.nil⟩
  rw [hwhole]
  constructor
  · intro ⟨n, hn, hlen, hsplits⟩
    refine ⟨n, ?_, hlen, hsplits⟩
    show c.mark + 1 ≤ n
    rcases Nat.eq_or_lt_of_le hn with heq | hlt
    · rw [← heq] at hsplits
      exact absurd ((splits_mark hitems hparts hwalks).1 hsplits) hnot
    · exact hlt
  · intro ⟨n, hn, hlen, hsplits⟩
    exact ⟨n, Nat.le_of_succ_le hn, hlen, hsplits⟩

theorem stands_stuck (h : Stands items parts c) (hstar : c.star = none)
    (hnot : ¬Splits (items.drop c.item) (parts.drop c.part)) : ¬Splits items parts := by
  unfold Stands at h
  rw [hstar] at h
  exact fun hsplits => hnot (h.1 hsplits)

theorem stands_end (h : Stands items parts c) (hpart : ¬c.part < parts.length) :
    finished items (some c.item) = true ↔ Splits items parts := by
  have hnil : parts.drop c.part = [] := List.drop_eq_nil_of_le (Nat.not_lt.1 hpart)
  have hhere : finished items (some c.item) = true ↔
      Splits (items.drop c.item) (parts.drop c.part) := by
    rw [hnil, splits_nil, finished, List.all_eq_true]
    simp only [Option.isNone_iff_eq_none]
  rw [hhere]
  unfold Stands at h
  rcases hstar : c.star with _ | star
  · rw [hstar] at h
    exact h.symm
  · rw [hstar] at h
    obtain ⟨hwhole, hlast, block, taken, hitems, hparts, hwalks⟩ := h
    rw [hwhole]
    constructor
    · intro hsplits
      exact ⟨c.mark, Nat.le_refl _, Nat.le_trans c.mark_le hlast, (splits_mark hitems hparts hwalks).2 hsplits⟩
    · intro hlater
      obtain ⟨n, hn, hlen, hsplits⟩ := hlater
      obtain ⟨m, hm, hmlen, hrest⟩ := splits_later hitems hparts hwalks hlast hn hlen hsplits
      rw [List.drop_eq_nil_of_le (Nat.le_trans (Nat.not_lt.1 hpart) hm)] at hrest
      rw [hnil]
      exact hrest

-- ===== runs

theorem segmentLoop_iff (c : Place) (h : Stands items parts c) :
    finished items (segmentLoop items parts c) = true ↔ Splits items parts := by
  induction c using segmentLoop.induct items parts with
  | case1 c hpart hitem hfree ih =>
      rw [segmentLoop, dif_pos hpart, dif_pos hitem, hfree]
      exact ih (stands_free h hpart (List.getElem?_eq_some_iff.2 ⟨hitem, hfree⟩))
  | case2 c hpart hitem accepts hsome haccepts ih =>
      rw [segmentLoop, dif_pos hpart, dif_pos hitem, hsome]
      simp only [haccepts, if_true]
      exact ih (stands_accept h hpart (List.getElem?_eq_some_iff.2 ⟨hitem, hsome⟩) haccepts)
  | case3 c hpart hitem accepts hsome hrejects star hstar ih =>
      rw [segmentLoop, dif_pos hpart, dif_pos hitem, hsome]
      simp only [hrejects, hstar, Bool.false_eq_true, if_false]
      refine ih (stands_back h hpart hstar ?_)
      rw [drop_item (List.getElem?_eq_some_iff.2 ⟨hitem, hsome⟩), drop_part hpart]
      exact not_splits_rejected (Bool.not_eq_true _ ▸ hrejects)
  | case4 c hpart hitem accepts hsome hrejects hstar =>
      rw [segmentLoop, dif_pos hpart, dif_pos hitem, hsome]
      simp only [hrejects, hstar, Bool.false_eq_true, if_false]
      refine iff_of_false (by simp [finished]) (stands_stuck h hstar ?_)
      rw [drop_item (List.getElem?_eq_some_iff.2 ⟨hitem, hsome⟩), drop_part hpart]
      exact not_splits_rejected (Bool.not_eq_true _ ▸ hrejects)
  | case5 c hpart hitem star hstar ih =>
      rw [segmentLoop, dif_pos hpart, dif_neg hitem]
      simp only [hstar]
      refine ih (stands_back h hpart hstar ?_)
      rw [List.drop_eq_nil_of_le (Nat.not_lt.1 hitem), drop_part hpart]
      exact fun hnil => List.cons_ne_nil _ _ hnil
  | case6 c hpart hitem hstar =>
      rw [segmentLoop, dif_pos hpart, dif_neg hitem]
      simp only [hstar]
      refine iff_of_false (by simp [finished]) (stands_stuck h hstar ?_)
      rw [List.drop_eq_nil_of_le (Nat.not_lt.1 hitem), drop_part hpart]
      exact fun hnil => List.cons_ne_nil _ _ hnil
  | case7 c hpart =>
      rw [segmentLoop, dif_neg hpart]
      exact stands_end h hpart

/-- The matcher answers yes exactly when the segments can be split so that
each free item takes a run of them, and each other one that it accepts. -/
theorem segmentsMatch_iff (items : List (Option (PyStr → Bool))) (parts : List PyStr) :
    segmentsMatch items parts = true ↔ Splits items parts :=
  segmentLoop_iff Place.start stands_start

-- ===== the rules

def predicates (flags : Flags) (items : List (Option Item)) : List (Option (PyStr → Bool)) :=
  items.map (Option.map (Item.accepts flags))

def Place.left (items : List (Option Item)) (parts : List PyStr) (c : Place) : Nat :=
  (parts.length - c.mark) * (items.length + 1) + (items.length - c.item)

theorem left_back {rules : List (Option Item)} (hpart : c.part < parts.length) (star : Nat) :
    (c.back star).left rules parts < c.left rules parts := by
  have hmark := c.mark_le
  obtain ⟨n, hn⟩ : ∃ n, parts.length - c.mark = n + 1 := ⟨parts.length - c.mark - 1, by omega⟩
  have hback : parts.length - (c.mark + 1) = n := by omega
  unfold Place.left Place.back
  simp only [hn, hback, Nat.succ_mul]
  omega

theorem left_free {rules : List (Option Item)} (hitem : c.item < rules.length) :
    c.free.left rules parts < c.left rules parts := by
  unfold Place.left Place.free
  have hmark := Nat.mul_le_mul_right (rules.length + 1) (Nat.sub_le_sub_left c.mark_le parts.length)
  simp only
  omega

theorem left_accept {rules : List (Option Item)} (hitem : c.item < rules.length) :
    c.accept.left rules parts < c.left rules parts := by
  unfold Place.left Place.accept
  simp only
  omega

theorem matchLoop_eq {flags : Flags} {rules : List (Option Item)} : ∀ {fuel : Nat} (c : Place),
    c.left rules parts < fuel →
      matchLoop flags rules parts fuel ⟨c.item, c.part, c.star, c.mark⟩
        = segmentLoop (predicates flags rules) parts c := by
  intro fuel
  induction fuel with
  | zero => exact fun c h => absurd h (Nat.not_lt_zero _)
  | succ fuel ih =>
      intro c h
      have hlength : (predicates flags rules).length = rules.length := List.length_map _
      have hback : ∀ star, c.part < parts.length →
          matchLoop flags rules parts fuel
              ⟨(c.back star).item, (c.back star).part, (c.back star).star, (c.back star).mark⟩
            = segmentLoop (predicates flags rules) parts (c.back star) :=
        fun star hpart => ih _ (Nat.lt_of_lt_of_le (left_back hpart star) (Nat.le_of_lt_succ h))
      rw [matchLoop, segmentLoop]
      rcases Nat.lt_or_ge c.part parts.length with hpart | hpart
      · rw [dif_pos hpart, List.drop_eq_getElem_cons hpart]
        rcases Nat.lt_or_ge c.item rules.length with hitem | hitem
        · have hpred : c.item < (predicates flags rules).length := hlength.symm ▸ hitem
          rw [dif_pos hpred, List.getElem?_eq_getElem hitem]
          have hget : (predicates flags rules)[c.item] = rules[c.item].map (Item.accepts flags) :=
            List.getElem_map _
          rw [hget]
          rcases rules[c.item] with _ | item
          · exact ih c.free (Nat.lt_of_lt_of_le (left_free hitem) (Nat.le_of_lt_succ h))
          · simp only [Option.map_some]
            split
            · exact ih c.accept (Nat.lt_of_lt_of_le (left_accept hitem) (Nat.le_of_lt_succ h))
            · unfold Cursor.retry
              rcases hstar : c.star with _ | star
              · rfl
              · exact hback star hpart
        · rw [dif_neg (by rw [hlength]; exact Nat.not_lt.2 hitem), List.getElem?_eq_none hitem]
          unfold Cursor.retry
          rcases hstar : c.star with _ | star
          · rfl
          · exact hback star hpart
      · rw [dif_neg (Nat.not_lt.2 hpart), List.drop_eq_nil_of_le hpart]

theorem matchSegments_iff (flags : Flags) (rules : List (Option Item)) (parts : List PyStr) :
    matchSegments flags rules parts = true ↔ Splits (predicates flags rules) parts := by
  have hfuel : Place.start.left rules parts < (rules.length + 1) * (parts.length + 1) + 1 := by
    unfold Place.left Place.start
    have := Nat.mul_comm (rules.length + 1) (parts.length + 1)
    simp only [Nat.sub_zero, Nat.succ_mul] at this ⊢
    omega
  have hloop := @matchLoop_eq _ flags _ _ Place.start hfuel
  have heq : matchSegments flags rules parts = segmentsMatch (predicates flags rules) parts := by
    unfold matchSegments segmentsMatch
    rw [show (⟨0, 0, none, 0⟩ : Cursor) = ⟨Place.start.item, Place.start.part, Place.start.star,
      Place.start.mark⟩ from rfl, hloop]
    rcases segmentLoop (predicates flags rules) parts Place.start with _ | i
    · rfl
    · show (rules.drop i).all (· == none) = ((predicates flags rules).drop i).all (·.isNone)
      rw [predicates, ← List.map_drop, List.all_map]
      congr 1
      funext item
      cases item with
      | none => rfl
      | some item => rfl
  rw [heq]
  exact segmentLoop_iff Place.start stands_start

end Velune.Ignore
