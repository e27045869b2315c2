/-
Committing to the first place of a middle piece loses no match.

A segment's expression goes from one place of a text to another exactly
when the text between them is the pieces with runs between (`Around`),
whether the middle pieces are committed to or not (`takes_segRe`,
`takes_plainRe`). What the first place of a piece leaves over has no slash,
and so the next run can have it (`takes_tailRe`). Whatever follows the
segment then finds a match behind the one expression when it does behind
the other.
-/
import Velune.Ignore.Segments

namespace Velune.Ignore

open Lib Lib.Regex

-- ===== property

/-- The pieces in order, with a run of other characters than the slash
between each two. -/
def Around (flags : Flags) : Seg → PyStr → Prop
  | [], s => s = []
  | [piece], s => Fits (piece.map (·.holds flags)) s
  | piece :: rest, s => ∃ t run u, s = t ++ (run ++ u) ∧ Fits (piece.map (·.holds flags)) t ∧
      (∀ c ∈ run, notSlash c = true) ∧ Around flags rest u

def SlashAlone (flags : Flags) : Prop := ∀ c ∈ flags.variants '/', c = '/'

-- ===== pieces

section Pieces

variable {flags : Flags} {prev prev' : Option Char} {s s' : PyStr} {g g' : Groups}

theorem takes_pieceRe {piece : List CharPat} :
    Takes noWords (pieceRe flags piece) prev s g prev' s' g' ↔
      ∃ t, s = t ++ s' ∧ Fits (piece.map (·.holds flags)) t ∧ prev' = lastOf prev t ∧ g' = g := by
  have hre : pieceRe flags piece = .cat ((piece.map (·.holds flags)).map .cls) := by
    rw [pieceRe, List.map_map]
    rfl
  rw [hre]
  exact takes_classes

theorem takes_plainRe : ∀ {seg : Seg} {prev : Option Char} {s : PyStr},
    Takes noWords (plainRe flags seg) prev s g prev' s' g' ↔
      ∃ t, s = t ++ s' ∧ Around flags seg t ∧ prev' = lastOf prev t ∧ g' = g
  | [], prev, s => by
      constructor
      · rintro ⟨rfl, rfl, rfl⟩
        exact ⟨[], rfl, rfl, rfl, rfl⟩
      · rintro ⟨t, rfl, ht, rfl, rfl⟩
        cases ht
        exact ⟨rfl, rfl, rfl⟩
  | [piece], prev, s => takes_pieceRe
  | piece :: next :: rest, prev, s => by
      have hcat : plainRe flags (piece :: next :: rest)
          = .cat (pieceRe flags piece :: anyInSegment
              :: ((next :: rest).map (pieceRe flags)).intersperse anyInSegment) := rfl
      have ih := @takes_plainRe (next :: rest)
      rw [hcat, takes_cat_cons]
      constructor
      · rintro ⟨q, s₁, h, hpiece, hrest⟩
        obtain ⟨t, rfl, hfits, rfl, rfl⟩ := takes_pieceRe.1 hpiece
        obtain ⟨q₂, s₂, h₂, ⟨run, hrun, rfl, rfl, rfl⟩, hnext⟩ := takes_cat_cons.1 hrest
        obtain ⟨u, rfl, haround, rfl, rfl⟩ := ih.1 hnext
        refine ⟨t ++ (run ++ u), ?_, ⟨t, run, u, rfl, hfits, hrun, haround⟩, ?_, rfl⟩
        · simp only [List.append_assoc]
        · rw [lastOf_append, lastOf_append]
      · rintro ⟨_, rfl, ⟨t, run, u, rfl, hfits, hrun, haround⟩, rfl, rfl⟩
        refine ⟨lastOf prev t, run ++ (u ++ s'), _, takes_pieceRe.2 ⟨t, ?_, hfits, rfl, rfl⟩, ?_⟩
        · simp only [List.append_assoc]
        · refine takes_cat_cons.2 ⟨lastOf (lastOf prev t) run, u ++ s', _,
            ⟨run, hrun, rfl, rfl, rfl⟩, ?_⟩
          refine ih.2 ⟨u, rfl, haround, ?_, rfl⟩
          rw [lastOf_append, lastOf_append]

end Pieces

-- ===== committing

section Committing

variable {flags : Flags} {prev' : Option Char} {s' : PyStr} {g g' : Groups}

def Slashless (flags : Flags) (seg : Seg) : Prop :=
  ∀ piece ∈ seg, ∀ p ∈ piece, p.holds flags '/' = false

theorem notSlash_of_fits {piece : List CharPat} (h : ∀ p ∈ piece, p.holds flags '/' = false)
    {t : PyStr} (hfits : Fits (piece.map (·.holds flags)) t) : ∀ c ∈ t, notSlash c = true := by
  induction piece generalizing t with
  | nil =>
      cases hfits
      exact fun c hc => absurd hc List.not_mem_nil
  | cons p piece ih =>
      cases hfits with
      | cons hc hfits =>
          obtain ⟨hp, hpiece⟩ := List.forall_mem_cons.1 h
          refine List.forall_mem_cons.2 ⟨bne_iff_ne.2 fun heq => ?_, ih hpiece hfits⟩
          rw [heq] at hc
          exact absurd (hp.symm.trans hc) (by decide)

/-- A star and the pieces behind it, the last piece not committed to. -/
def tailRe (flags : Flags) : Seg → List Re
  | [] => []
  | [piece] => [anyInSegment, pieceRe flags piece]
  | piece :: rest => .firstAt notSlash (piece.map (·.holds flags)) :: tailRe flags rest

theorem tailRe_eq : ∀ {seg : Seg}, seg ≠ [] → tailRe flags seg
    = seg.dropLast.map (fun piece => .firstAt notSlash (piece.map (·.holds flags)))
        ++ [anyInSegment, pieceRe flags (seg.getLastD [])]
  | [], hne => absurd rfl hne
  | [_], _ => rfl
  | piece :: next :: rest, _ => by
      have ih := tailRe_eq (List.cons_ne_nil next rest)
      have hcons : tailRe flags (piece :: next :: rest)
          = .firstAt notSlash (piece.map (·.holds flags)) :: tailRe flags (next :: rest) := rfl
      rw [hcons, ih]
      rfl

/-- The way through committed pieces: a run, and the pieces behind it with
runs between. -/
theorem takes_tailRe : ∀ {seg : Seg} {prev : Option Char} {s : PyStr}, seg ≠ [] →
    Slashless flags seg → (Takes noWords (.cat (tailRe flags seg)) prev s g prev' s' g' ↔
      ∃ run t, s = run ++ (t ++ s') ∧ (∀ c ∈ run, notSlash c = true) ∧ Around flags seg t ∧
        prev' = lastOf prev (run ++ t) ∧ g' = g)
  | [], _, _, hne, _ => absurd rfl hne
  | [piece], prev, s, _, _ => by
      rw [tailRe, takes_cat_cons]
      constructor
      · rintro ⟨q, s₁, h, ⟨run, hrun, rfl, rfl, rfl⟩, hpiece⟩
        obtain ⟨t, rfl, hfits, rfl, rfl⟩ := takes_pieceRe.1 hpiece
        exact ⟨run, t, rfl, hrun, hfits, (lastOf_append ..).symm, rfl⟩
      · rintro ⟨run, t, rfl, hrun, hfits, rfl, rfl⟩
        exact ⟨lastOf prev run, t ++ s', _, ⟨run, hrun, rfl, rfl, rfl⟩,
          takes_pieceRe.2 ⟨t, rfl, hfits, lastOf_append .., rfl⟩⟩
  | piece :: next :: rest, prev, s, _, hslash => by
      obtain ⟨hpiece, hrest⟩ := List.forall_mem_cons.1 hslash
      have htail : tailRe flags (piece :: next :: rest)
          = .firstAt notSlash (piece.map (·.holds flags)) :: tailRe flags (next :: rest) := rfl
      have ih := fun prev s => @takes_tailRe (next :: rest) prev s (List.cons_ne_nil _ _) hrest
      rw [htail, takes_cat_cons]
      constructor
      · rintro ⟨q, s₁, h, ⟨hplace, rfl⟩, hway⟩
        obtain ⟨run, t, rfl, hrun, hfits, rfl⟩ := firstPlace_sound hplace
        obtain ⟨run', u, rfl, hrun', haround, rfl, rfl⟩ := (ih _ _).1 hway
        refine ⟨run, t ++ (run' ++ u), ?_, hrun, ⟨t, run', u, rfl, hfits, hrun', haround⟩, ?_, rfl⟩
        · simp only [List.append_assoc]
        · simp only [lastOf_append]
      · rintro ⟨run, _, rfl, hrun, ⟨t, run', u, rfl, hfits, hrun', haround⟩, rfl, rfl⟩
        have htext : run ++ (t ++ (run' ++ u) ++ s') = run ++ (t ++ (run' ++ (u ++ s'))) := by
          simp only [List.append_assoc]
        rw [htext]
        obtain ⟨q, x, hplace, hx⟩ := @firstPlace_first _ _ _ (run' ++ (u ++ s')) hfits _ prev hrun
        have hxs : ∀ c ∈ x ++ run', notSlash c = true := by
          intro c hc
          rcases List.mem_append.1 hc with hc | hc
          · rcases List.mem_append.1 (hx.subset hc) with hc | hc
            · exact hrun c hc
            · exact notSlash_of_fits hpiece hfits c hc
          · exact hrun' c hc
        refine ⟨q, x ++ (run' ++ (u ++ s')), _, ⟨hplace, rfl⟩, ?_⟩
        refine (ih _ _).2 ⟨x ++ run', u, by simp only [List.append_assoc], hxs, haround, ?_, rfl⟩
        -- the character before the end is one of the text's either way
        obtain ⟨v, w, htaken, -, -, hq⟩ := firstPlace_sound hplace
        rw [hq, ← lastOf_append]
        have hsame : (v ++ w) ++ (x ++ run' ++ u) = run ++ (t ++ (run' ++ u)) := by
          refine List.append_cancel_right (?_ : _ ++ s' = _ ++ s')
          simpa only [List.append_assoc] using htaken.symm
        rw [hsame]

/-- Committed or not, a segment's expression takes the pieces with runs
between. -/
theorem takes_segRe {seg : Seg} (hslash : Slashless flags seg) {prev : Option Char} {s : PyStr} :
    Takes noWords (segRe flags seg) prev s g prev' s' g' ↔
      ∃ t, s = t ++ s' ∧ Around flags seg t ∧ prev' = lastOf prev t ∧ g' = g := by
  by_cases hshort : seg.length ≤ 3
  · have hre : segRe flags seg = plainRe flags seg := by
      unfold segRe
      rw [if_pos hshort, plainRe]
    rw [hre]
    exact takes_plainRe
  · cases seg with
    | nil => exact absurd (Nat.zero_le 3) hshort
    | cons first rest =>
        obtain ⟨-, hrest⟩ := List.forall_mem_cons.1 hslash
        obtain ⟨next, rest, rfl⟩ := List.exists_cons_of_ne_nil (l := rest) fun hnil => by
          rw [hnil] at hshort
          exact hshort (Nat.le_add_left 1 2)
        have hre : segRe flags (first :: next :: rest)
            = .cat (pieceRe flags first :: tailRe flags (next :: rest)) := by
          unfold segRe
          rw [if_neg hshort, tailRe_eq (List.cons_ne_nil next rest)]
          rfl
        rw [hre, takes_cat_cons]
        constructor
        · intro h
          obtain ⟨q, s₁, g₁, hfirst, htail⟩ := h
          obtain ⟨t, rfl, hfits, rfl, rfl⟩ := takes_pieceRe.1 hfirst
          obtain ⟨run, u, rfl, hrun, haround, rfl, rfl⟩ :=
            (takes_tailRe (List.cons_ne_nil next rest) hrest).1 htail
          refine ⟨t ++ (run ++ u), ?_, ⟨t, run, u, rfl, hfits, hrun, haround⟩, ?_, rfl⟩
          · simp only [List.append_assoc]
          · simp only [lastOf_append]
        · intro h
          obtain ⟨_, rfl, ⟨t, run, u, rfl, hfits, hrun, haround⟩, rfl, rfl⟩ := h
          refine ⟨lastOf prev t, run ++ (u ++ s'), _, takes_pieceRe.2 ⟨t, ?_, hfits, rfl, rfl⟩, ?_⟩
          · simp only [List.append_assoc]
          · refine (takes_tailRe (List.cons_ne_nil next rest) hrest).2
              ⟨run, u, rfl, hrun, haround, ?_, rfl⟩
            simp only [lastOf_append]

end Committing

-- ===== translating

theorem ok_map {ε α γ : Type} {x : Except ε α} {f : α → γ} {r : γ} (h : x.map f = .ok r) :
    ∃ a, x = .ok a ∧ r = f a := by
  cases x with
  | error e => cases h
  | ok a =>
      cases h
      exact ⟨a, rfl, rfl⟩

theorem suffix_of_posixName {c : Char} {s name rest : PyStr}
    (h : posixName s.tail = some (name, rest)) : rest <:+ c :: s := by
  unfold posixName at h
  obtain ⟨i, -, hi⟩ := Option.map_eq_some_iff.1 h
  cases hi
  exact (List.drop_suffix ..).trans ((List.tail_suffix s).trans (List.suffix_cons c s))

theorem suffix_of_classItems : ∀ {fuel : Nat} {first : Bool} {s : PyStr}
    {r : List (Char × Char) × PyStr}, classItems first fuel s = .ok r → r.2 <:+ s := by
  intro fuel
  induction fuel with
  | zero =>
      intro first s r h
      cases h
  | succ fuel ih =>
      intro first s r h
      cases s with
      | nil => cases h
      | cons c s =>
          -- what is read behind items
          have hmore : ∀ {f : List (Char × Char) → List (Char × Char)} {rest t : PyStr}, rest <:+ t →
              ((classItems false fuel rest).map fun y => (f y.1, y.2)) = .ok r → r.2 <:+ t := by
            intro f rest t hrest hmap
            obtain ⟨y, hread, rfl⟩ := ok_map hmap
            exact (ih hread).trans hrest
          unfold classItems at h
          extract_lets more item at h
          have hitem : ∀ {d : Char} {t : PyStr}, item d t = .ok r → r.2 <:+ t := by
            intro d t h
            simp only [item] at h
            split at h
            next hi rest =>
              split at h
              next => exact hmore List.suffix_rfl h
              next =>
                split at h
                next =>
                  cases rest with
                  | nil => cases h
                  | cons hi rest =>
                      simp only at h
                      split at h
                      next => cases h
                      next => exact hmore ⟨['-', _, hi], rfl⟩ h
                next =>
                  split at h
                  next => cases h
                  next => exact hmore ⟨['-', hi], rfl⟩ h
            next => exact hmore List.suffix_rfl h
          split at h
          next =>
            cases h
            exact List.suffix_cons c s
          next =>
            split at h
            next name rest hname =>
              have hrest : rest <:+ c :: s := by
                split at hname
                next => exact suffix_of_posixName hname
                next => cases hname
              split at h
              next => cases h
              next => exact hmore hrest h
            next =>
              split at h
              next =>
                cases s with
                | nil => cases h
                | cons d s => exact (hitem h).trans ⟨[c, d], rfl⟩
              next => exact (hitem h).trans (List.suffix_cons c s)

theorem translateClass_eq {s : PyStr} {p : CharPat} {rest : PyStr}
    (h : translateClass s = .ok (p, rest)) : (∃ negate ranges, p = .set negate ranges) ∧ rest <:+ s := by
  unfold translateClass at h
  split at h
  case h_3 =>
    cases hread : classItems true (s.length + 1) s with
    | error e =>
        rw [hread] at h
        cases h
    | ok r =>
        rw [hread] at h
        cases h
        exact ⟨⟨_, _, rfl⟩, suffix_of_classItems hread⟩
  all_goals
    next rest' =>
    cases hread : classItems true (rest'.length + 1) rest' with
    | error e =>
        rw [hread] at h
        cases h
    | ok r =>
        rw [hread] at h
        cases h
        exact ⟨⟨_, _, rfl⟩, (suffix_of_classItems hread).trans (List.suffix_cons _ _)⟩

section Translating

variable {flags : Flags}

theorem holds_slash (hslash : SlashAlone flags) {d : Char} (hd : d ≠ '/') :
    (CharPat.lit d).holds flags '/' = false := by
  rw [CharPat.holds, ← Bool.not_eq_true, List.contains_iff_mem]
  exact fun hmem => hd (hslash d hmem)

theorem Slashless.push {p : CharPat} {seg : Seg} (hp : p.holds flags '/' = false)
    (hseg : Slashless flags seg) : Slashless flags (seg.push p) := by
  cases seg with
  | nil =>
      intro piece hpiece q hq
      rw [List.mem_singleton.1 hpiece] at hq
      rw [List.mem_singleton.1 hq]
      exact hp
  | cons piece pieces =>
      obtain ⟨hpiece, hpieces⟩ := List.forall_mem_cons.1 hseg
      exact List.forall_mem_cons.2 ⟨List.forall_mem_cons.2 ⟨hp, hpiece⟩, hpieces⟩

theorem slashless_of_translateLoop (hslash : SlashAlone flags) : ∀ {fuel : Nat} {text : PyStr}
    {seg : Seg}, '/' ∉ text → translateLoop fuel text = .ok seg → Slashless flags seg := by
  -- one segment with one empty piece
  have hempty : Slashless flags [[]] := by
    intro piece hpiece p hp
    rw [List.mem_singleton.1 hpiece] at hp
    cases hp
  intro fuel
  induction fuel with
  | zero =>
      intro text seg _ h
      cases h
      exact hempty
  | succ fuel ih =>
      intro text seg hfree h
      cases text with
      | nil =>
          cases h
          exact hempty
      | cons c s =>
          have hc : c ≠ '/' := fun heq => hfree (heq ▸ List.mem_cons_self)
          have hs : '/' ∉ s := fun hmem => hfree (List.mem_cons_of_mem c hmem)
          have hpush : ∀ {p : CharPat} {rest : PyStr}, rest <:+ s → p.holds flags '/' = false →
              (translateLoop fuel rest).map (Seg.push p) = .ok seg → Slashless flags seg := by
            intro p rest hrest hp hmap
            obtain ⟨seg', hread, rfl⟩ := ok_map hmap
            exact (ih (fun hmem => hs (hrest.subset hmem)) hread).push hp
          unfold translateLoop at h
          split at h
          next =>
            cases s with
            | nil => cases h
            | cons d s =>
                refine hpush (List.suffix_cons d s) (holds_slash hslash fun heq => hs ?_) h
                exact heq ▸ List.mem_cons_self
          next =>
            split at h
            next =>
              obtain ⟨seg', hread, rfl⟩ := ok_map h
              have hrest := ih (fun hmem => hs ((List.dropWhile_suffix _).subset hmem)) hread
              exact List.forall_mem_cons.2 ⟨fun p hp => absurd hp List.not_mem_nil, hrest⟩
            next =>
              split at h
              next => exact hpush List.suffix_rfl rfl h
              next =>
                split at h
                next =>
                  split at h
                  next => cases h
                  next p rest hclass =>
                    obtain ⟨⟨negate, ranges, rfl⟩, hrest⟩ := translateClass_eq hclass
                    exact hpush hrest rfl h
                next => exact hpush List.suffix_rfl (holds_slash hslash hc) h

end Translating

-- ===== as it is written

section Written

variable {flags : Flags} {β : Type} {k : Option Char → PyStr → Groups → Option β}

/-- The middle pieces as they are written lead where their first places
do. -/
theorem middles_isSome {rs : List Re} (hk : Blind k) : ∀ {ms : Seg} {name : Nat}
    {prev : Option Char} {s : PyStr} {g h : Groups},
    (middles flags name ms prev s g fun prev s g => run noWords (.cat rs) prev s g k).isSome
      = (run noWords
          (.cat (ms.map (fun piece => .firstAt notSlash (piece.map (·.holds flags))) ++ rs))
          prev s h k).isSome
  | [], name, prev, s, g, h => hk.run (.cat rs) prev s g h
  | middle :: ms, name, prev, s, g, h => by
      have hpiece : pieceRe flags middle = .cat ((middle.map (·.holds flags)).map .cls) := by
        rw [pieceRe, List.map_map]
        rfl
      have ih := @middles_isSome rs hk ms (name + 1)
      rw [middles, committed, hpiece, committed_eq, List.map_cons, List.cons_append, run_cat_cons]
      rw [Regex.run]
      cases firstPlace notSlash (middle.map (·.holds flags)) prev s with
      | none => rfl
      | some r => exact ih

theorem runSegment_isSome (hk : Blind k) {name : Nat} {seg : Seg} {prev : Option Char} {s : PyStr}
    {g : Groups} :
    (runSegment flags name seg prev s g k).isSome
      = (run noWords (segRe flags seg) prev s g k).isSome := by
  unfold runSegment segRe
  split
  · rfl
  · cases seg with
    | nil => rw [run_eps]
    | cons first rest =>
        show (run noWords (pieceRe flags first) prev s g fun prev s g =>
            middles flags name rest.dropLast prev s g fun prev s g =>
              run noWords (.cat [anyInSegment, pieceRe flags (rest.getLastD [])])
                prev s g k).isSome
          = (run noWords (.cat (pieceRe flags first
              :: (rest.dropLast.map (fun piece => .firstAt notSlash (piece.map (·.holds flags)))
                ++ [anyInSegment, pieceRe flags (rest.getLastD [])]))) prev s g k).isSome
        rw [run_cat_cons]
        exact run_isSome_congr fun prev s g => middles_isSome hk

/-- The stars of a segment, told three ways. A whole name is matched by the
committed expression when it is by the plain one, which is when it is the
pieces with runs between; and in front of anything that goes on the same
whatever the groups, the committed expression finds a match when the plain
one does. -/
theorem translateSegment_exact (hslash : SlashAlone flags) {text : PyStr} (hfree : '/' ∉ text)
    {seg : Seg} (htranslate : translateSegment text = .ok seg) :
    (∀ name s, '/' ∉ s →
        (matchesWhole (runSegment flags name seg) s = true ↔
          matchesWhole (run noWords (plainRe flags seg)) s = true) ∧
        (matchesWhole (run noWords (plainRe flags seg)) s = true ↔ Around flags seg s)) ∧
      ∀ {γ : Type} (rest : Option Char → PyStr → Groups → Option γ), Blind rest →
        ∀ name prev s g, (runSegment flags name seg prev s g rest).isSome
          = (run noWords (plainRe flags seg) prev s g rest).isSome := by
  have hpieces : Slashless flags seg := slashless_of_translateLoop hslash hfree htranslate
  have hany : ∀ {γ : Type} (rest : Option Char → PyStr → Groups → Option γ), Blind rest →
      ∀ name prev s g, (runSegment flags name seg prev s g rest).isSome
        = (run noWords (plainRe flags seg) prev s g rest).isSome := by
    intro γ rest hrest name prev s g
    rw [runSegment_isSome hrest, Bool.eq_iff_iff, run_isSome_iff, run_isSome_iff]
    simp only [takes_segRe hpieces, takes_plainRe]
  refine ⟨fun name s _ => ⟨?_, ?_⟩, hany⟩
  · have hend : Blind fun (_ : Option Char) (rest : PyStr) (_ : Groups) =>
        if rest = [] then some () else none := fun prev s g h => rfl
    unfold matchesWhole
    rw [hany _ hend]
  · unfold matchesWhole
    rw [run_isSome_iff]
    constructor
    · intro h
      obtain ⟨prev', s', g', hway, hend⟩ := h
      obtain ⟨t, rfl, haround, -, -⟩ := takes_plainRe.1 hway
      split at hend
      next hnil => rwa [hnil, List.append_nil]
      next => cases hend
    · intro haround
      exact ⟨_, [], _, takes_plainRe.2 ⟨s, (List.append_nil s).symm, haround, rfl, rfl⟩, rfl⟩

/-- `a*ab*b*c` is committed to at its first places in `aababbc`. -/
theorem translateSegment_exact_three :
    matchesWhole (runSegment ⟨⟨id, fun c => [c]⟩, true⟩ 0
      [[.lit 'a'], [.lit 'a', .lit 'b'], [.lit 'b'], [.lit 'c']]) "aababbc".toList = true := by
  have hslash : SlashAlone ⟨⟨id, fun c => [c]⟩, true⟩ := fun c hc => List.mem_singleton.1 hc
  have htranslate : translateSegment "a*ab*b*c".toList
      = .ok [[.lit 'a'], [.lit 'a', .lit 'b'], [.lit 'b'], [.lit 'c']] := rfl
  exact ((translateSegment_exact hslash (by decide) htranslate).1 0 "aababbc".toList
    (by decide)).1.2 rfl

end Written

end Velune.Ignore
