/-
The first place of a text where a line begins and a pattern matches: the
search of a regular expression that begins with `^` under the flag that
makes `^` match at every line. The pattern is any function of what stands
behind the place.

`search` goes through the text once; `First` says what it finds, and
`search_eq_some_iff` that it finds exactly that.
-/
import Mathlib.Data.List.Basic

namespace Lib.Lines

variable {β : Type*} {here : List Char → Option β}

/-- A line begins behind `p`; `b` says whether one begins at the front. -/
def LineStart (b : Bool) (p : List Char) : Prop :=
  (p = [] ∧ b = true) ∨ ∃ q, p = q ++ ['\n']

def search (here : List Char → Option β) : Bool → List Char → Option (List Char × β)
  | b, [] => if b then (here []).map fun m => ([], m) else none
  | b, c :: cs =>
      match (if b then here (c :: cs) else none) with
      | some m => some ([], m)
      | none => (search here (c == '\n') cs).map fun found => (c :: found.1, found.2)

/-- The pattern matches behind `p`, and at no line start before. -/
structure First (here : List Char → Option β) (b : Bool) (s p : List Char) (m : β) : Prop where
  start : LineStart b p
  found : ∃ v, s = p ++ v ∧ here v = some m
  earlier : ∀ p' v, s = p' ++ v → p'.length < p.length → LineStart b p' → here v = none

theorem lineStart_cons {b : Bool} {c : Char} {p : List Char} :
    LineStart b (c :: p) ↔ LineStart (c == '\n') p := by
  unfold LineStart
  constructor
  · rintro (⟨h, -⟩ | ⟨q, hq⟩)
    · cases h
    · cases q with
      | nil =>
          obtain ⟨hc, hp⟩ := List.cons.inj hq
          exact .inl ⟨hp, beq_iff_eq.2 hc⟩
      | cons d q => exact .inr ⟨q, (List.cons.inj hq).2⟩
  · rintro (⟨h, hc⟩ | ⟨q, hq⟩)
    · refine .inr ⟨[], ?_⟩
      rw [h, beq_iff_eq.1 hc]
      rfl
    · exact .inr ⟨c :: q, by rw [hq]; rfl⟩

theorem search_eq_none_iff : ∀ {s : List Char} {b : Bool},
    search here b s = none ↔ ∀ p v, s = p ++ v → LineStart b p → here v = none
  | [], b => by
      constructor
      · intro h p v hs hp
        obtain ⟨hp₀, hv⟩ := List.append_eq_nil_iff.1 hs.symm
        subst hp₀ hv
        rcases hp with ⟨-, hb⟩ | ⟨q, hq⟩
        · rw [search, if_pos hb] at h
          exact Option.map_eq_none_iff.1 h
        · exact absurd hq (by simp)
      · intro h
        rw [search]
        split
        next hb => exact Option.map_eq_none_iff.2 (h [] [] rfl (.inl ⟨rfl, hb⟩))
        next => rfl
  | c :: cs, b => by
      have ih := search_eq_none_iff (s := cs) (b := c == '\n')
      rw [search]
      constructor
      · intro h p v hs hp
        split at h
        next => cases h
        next hnone =>
            cases p with
            | nil =>
                rcases hp with ⟨-, hb⟩ | ⟨q, hq⟩
                · rw [if_pos hb] at hnone
                  have hv : c :: cs = v := hs
                  exact hv ▸ hnone
                · exact absurd hq (by simp)
            | cons d p =>
                obtain ⟨hc, hcs⟩ := List.cons.inj hs
                exact ih.1 (Option.map_eq_none_iff.1 h) p v hcs (hc ▸ lineStart_cons.1 hp)
      · intro h
        have hfront : (if b then here (c :: cs) else none) = none := by
          split
          next hb => exact h [] (c :: cs) rfl (.inl ⟨rfl, hb⟩)
          next => rfl
        rw [hfront]
        refine Option.map_eq_none_iff.2 (ih.2 fun p v hs hp => ?_)
        exact h (c :: p) v (by rw [hs]; rfl) (lineStart_cons.2 hp)

theorem first_of_search : ∀ {s : List Char} {b : Bool} {p : List Char} {m : β},
    search here b s = some (p, m) → First here b s p m
  | [], b, p, m, h => by
      rw [search] at h
      split at h
      next hb =>
          obtain ⟨m', hm, heq⟩ := Option.map_eq_some_iff.1 h
          cases heq
          exact ⟨.inl ⟨rfl, hb⟩, ⟨[], rfl, hm⟩, fun p' v _ hlt => absurd hlt (Nat.not_lt_zero _)⟩
      next => cases h
  | c :: cs, b, p, m, h => by
      rw [search] at h
      split at h
      next m' hfound =>
          cases h
          split at hfound
          next hb =>
              exact ⟨.inl ⟨rfl, hb⟩, ⟨c :: cs, rfl, hfound⟩,
                fun p' v _ hlt => absurd hlt (Nat.not_lt_zero _)⟩
          next => cases hfound
      next hnone =>
          obtain ⟨⟨p₁, m₁⟩, hrest, heq⟩ := Option.map_eq_some_iff.1 h
          cases heq
          obtain ⟨hstart, ⟨v, hv, hm⟩, hearlier⟩ := first_of_search hrest
          refine ⟨lineStart_cons.2 hstart, ⟨v, by rw [hv]; rfl, hm⟩, fun p' v' hs hlt hp' => ?_⟩
          cases p' with
          | nil =>
              rcases hp' with ⟨-, hb⟩ | ⟨q, hq⟩
              · rw [if_pos hb] at hnone
                have hv' : c :: cs = v' := hs
                exact hv' ▸ hnone
              · exact absurd hq (by simp)
          | cons d p' =>
              obtain ⟨hc, hcs⟩ := List.cons.inj hs
              exact hearlier p' v' hcs (Nat.lt_of_succ_lt_succ hlt) (hc ▸ lineStart_cons.1 hp')

theorem search_eq_some_iff {s : List Char} {b : Bool} {p : List Char} {m : β} :
    search here b s = some (p, m) ↔ First here b s p m := by
  refine ⟨first_of_search, fun h => ?_⟩
  obtain ⟨hstart, ⟨v, hs, hm⟩, hearlier⟩ := h
  cases hsearch : search here b s with
  | none =>
      rw [search_eq_none_iff.1 hsearch p v hs hstart] at hm
      cases hm
  | some found =>
      obtain ⟨p', m'⟩ := found
      obtain ⟨hstart', ⟨v', hs', hm'⟩, hearlier'⟩ := first_of_search hsearch
      rcases Nat.lt_trichotomy p'.length p.length with hlt | heq | hlt
      · rw [hearlier p' v' hs' hlt hstart'] at hm'
        cases hm'
      · obtain ⟨hp, hv⟩ := List.append_inj (hs'.symm.trans hs) heq
        subst hp hv
        rw [hm] at hm'
        cases hm'
        rfl
      · rw [hearlier' p v hs hlt hstart] at hm
        cases hm

end Lib.Lines
