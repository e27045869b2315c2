/-
Texts whose single blanks have been widened, and what an expression that
matches the narrow text makes of the wide one.

`Widened blank trail t s` says that `s` is `t`, one line, with a run of
blanks for each of its spaces, and `trail` behind it. An expression survives that
(`survives`) when wherever it takes a space it can take a run of blanks:
by a repetition that takes them all, or by a class that takes one of them
right behind a repetition that takes the others (`late`). The way through
such an expression carries over from the narrow text to the wide one
(`takes_widened`), and with it the search (`search_widened`).
-/
import Velune.Lib.Regex

namespace Lib.Regex

-- ===== widening

/-- `s` is `t` with runs of blanks for its spaces and `trail` behind. -/
inductive Widened (blank : Char → Bool) (trail : List Char) : List Char → List Char → Prop
  | nil : Widened blank trail [] trail
  | char {c : Char} {t s : List Char} (hc : c ≠ ' ' ∧ c ≠ '\n') (h : Widened blank trail t s) :
      Widened blank trail (c :: t) (c :: s)
  | gap {u t s : List Char} (hne : u ≠ []) (hu : ∀ c ∈ u, blank c = true)
      (h : Widened blank trail t s) : Widened blank trail (' ' :: t) (u ++ s)

/-- Two characters before a place are both part of a word, or neither. -/
def SameEdge (isWord : Char → Bool) (p q : Option Char) : Prop := p.any isWord = q.any isWord

variable {isWord : Char → Bool} {blank : Char → Bool} {trail : List Char}
variable {t s : List Char} {blanks : List Char}

theorem Widened.mono {blank' : Char → Bool} (h : Widened blank [] t s)
    (hblank : ∀ c ∈ s, blank c = true → blank' c = true) : Widened blank' trail t (s ++ trail) := by
  induction h with
  | nil => exact .nil
  | char hc _ ih => exact .char hc (ih fun c hc' => hblank c (List.mem_cons_of_mem _ hc'))
  | @gap u t s hne hu _ ih =>
      rw [List.append_assoc]
      refine .gap hne (fun c hc => hblank c (List.mem_append_left _ hc) (hu c hc)) ?_
      exact ih fun c hc => hblank c (List.mem_append_right _ hc)

theorem Widened.not_mem_newline (h : Widened blank trail t s) : '\n' ∉ t := by
  induction h with
  | nil => simp
  | char hc _ ih => simp [ih, Ne.symm hc.2]
  | gap _ _ _ ih => simp [ih]

theorem Widened.eq_nil {s : List Char} (h : Widened blank [] [] s) : s = [] := by
  cases h
  rfl

theorem Widened.nil_of_wide (h : Widened blank [] t s) (hs : s = []) : t = [] := by
  cases h with
  | nil => rfl
  | char _ _ => cases hs
  | gap hne _ _ => exact absurd (List.append_eq_nil_iff.mp hs).1 hne

/-- A part of the wide text without blanks is one of the narrow text. -/
theorem Widened.plain {f x : List Char} (hf : ∀ c ∈ f, blank c = false) :
    ∀ {t : List Char}, Widened blank [] t (f ++ x) → ∃ t', t = f ++ t' ∧ Widened blank [] t' x := by
  induction f with
  | nil => exact fun {t} h => ⟨t, rfl, h⟩
  | cons c f ih =>
      intro t h
      generalize hs : c :: f ++ x = s at h
      cases h with
      | nil => cases hs
      | char hc h =>
          obtain ⟨rfl, rfl⟩ := List.cons.inj hs
          obtain ⟨t', rfl, htail⟩ := ih (fun d hd => hf d (List.mem_cons_of_mem c hd)) h
          exact ⟨t', rfl, htail⟩
      | gap hne hu h =>
          obtain ⟨b, u, rfl⟩ := List.exists_cons_of_ne_nil hne
          obtain ⟨rfl, -⟩ := List.cons.inj hs
          have hblank := hu c (List.mem_cons_self ..)
          rw [hf c (List.mem_cons_self ..)] at hblank
          cases hblank

/-- A space of the wide text is one of the narrow text, where it begins a
run of blanks. -/
theorem Widened.space {t x : List Char} (h : Widened blank [] t (' ' :: x)) :
    ∃ t' u x', t = ' ' :: t' ∧ x = u ++ x' ∧ (∀ c ∈ u, blank c = true) ∧
      Widened blank [] t' x' := by
  generalize hs : ' ' :: x = s at h
  cases h with
  | nil => cases hs
  | char hc h => exact absurd (List.cons.inj hs).1.symm hc.1
  | gap hne hu h =>
      obtain ⟨b, u, rfl⟩ := List.exists_cons_of_ne_nil hne
      obtain ⟨rfl, rfl⟩ := List.cons.inj hs
      exact ⟨_, u, _, rfl, rfl, fun c hc => hu c (List.mem_cons_of_mem _ hc), h⟩

theorem Widened.head? (h : Widened blank [] t s) (hspace : t.head? ≠ some ' ') :
    t.head? = s.head? := by
  cases h with
  | nil => rfl
  | char _ _ => rfl
  | gap _ _ _ => exact absurd rfl hspace

theorem Widened.getLast? (h : Widened blank [] t s)
    (hends : t.getLast? ≠ some ' ' ∨ ∀ c ∈ s.getLast?, blank c = false) :
    t.getLast? = s.getLast? := by
  induction h with
  | nil => rfl
  | @char c t s _ h ih =>
      cases s with
      | nil =>
          obtain rfl := h.nil_of_wide rfl
          rfl
      | cons d s =>
          have ht : t ≠ [] := fun hnil => by
            subst hnil
            cases h.eq_nil
          obtain ⟨e, t, rfl⟩ := List.exists_cons_of_ne_nil ht
          rw [List.getLast?_cons_cons, List.getLast?_cons_cons] at hends ⊢
          exact ih hends
  | @gap u t s hne hu h ih =>
      have ht : t ≠ [] := fun hnil => by
        subst hnil
        obtain rfl := h.eq_nil
        obtain ⟨v, b, rfl⟩ := (List.eq_nil_or_concat' u).resolve_left hne
        have hb := hu b (by simp)
        rcases hends with hends | hends
        · exact hends rfl
        · rw [hends b (by simp)] at hb
          cases hb
      have hs : s ≠ [] := fun hnil => ht (h.nil_of_wide hnil)
      obtain ⟨e, t, rfl⟩ := List.exists_cons_of_ne_nil ht
      rw [List.getLast?_append_of_ne_nil u hs, List.getLast?_cons_cons] at hends ⊢
      exact ih hends

theorem SameEdge.dropWhile {x : List Char} (h : SameEdge isWord none (lastOf none x))
    (p : Char → Bool) : SameEdge isWord none (lastOf none (x.dropWhile p)) := by
  by_cases hnil : x.dropWhile p = []
  · rw [hnil]
    rfl
  · rw [← List.takeWhile_append_dropWhile (p := p) (l := x)] at h
    rwa [lastOf, List.getLast?_append_of_ne_nil _ hnil] at h

def TakesBlanks (blank : Char → Bool) (p : Char → Bool) : Prop :=
  p ' ' = true → ∀ c, blank c = true → p c = true

theorem Widened.all {p : Char → Bool} (hp : TakesBlanks blank p)
    (htrail : ∀ c ∈ trail, p c = true) (h : Widened blank trail t s)
    (hall : ∀ c ∈ t, p c = true) : ∀ c ∈ s, p c = true := by
  induction h with
  | nil => exact htrail
  | char _ _ ih =>
      intro c hc
      rcases List.mem_cons.mp hc with rfl | hc
      · exact hall c (List.mem_cons_self ..)
      · exact ih (fun d hd => hall d (List.mem_cons_of_mem _ hd)) c hc
  | gap _ hu _ ih =>
      intro c hc
      rcases List.mem_append.mp hc with hc | hc
      · exact hp (hall ' ' (List.mem_cons_self ..)) c (hu c hc)
      · exact ih (fun d hd => hall d (List.mem_cons_of_mem _ hd)) c hc

theorem Widened.append {t₀ t₁ : List Char} (hblank : ∀ c, blank c = true → isWord c = false)
    (hspace : isWord ' ' = false) : ∀ {s : List Char}, Widened blank trail (t₀ ++ t₁) s →
      ∃ s₀ s₁, s = s₀ ++ s₁ ∧ Widened blank [] t₀ s₀ ∧ Widened blank trail t₁ s₁ ∧
        ∀ p q, SameEdge isWord p q → SameEdge isWord (lastOf p t₀) (lastOf q s₀) := by
  induction t₀ with
  | nil => exact fun {s} h => ⟨[], s, rfl, .nil, h, fun _ _ hpq => hpq⟩
  | cons c t₀ ih =>
      intro s h
      cases h with
      | char hc h =>
          obtain ⟨s₀, s₁, rfl, hfront, hwide, hedge⟩ := ih h
          refine ⟨c :: s₀, s₁, rfl, .char hc hfront, hwide, fun p q _ => ?_⟩
          rw [lastOf_cons, lastOf_cons]
          exact hedge (some c) (some c) rfl
      | @gap u _ s hne hu h =>
          obtain ⟨s₀, s₁, rfl, hfront, hwide, hedge⟩ := ih h
          refine ⟨u ++ s₀, s₁, (List.append_assoc ..).symm, .gap hne hu hfront, hwide,
            fun p q _ => ?_⟩
          rw [lastOf_cons, lastOf_append]
          refine hedge (some ' ') (lastOf q u) ?_
          obtain ⟨v, b, rfl⟩ := (List.eq_nil_or_concat' u).resolve_left hne
          have hb : isWord b = false := hblank b (hu b (by simp))
          simp [SameEdge, lastOf, hspace, hb]

-- ===== survival

def runsOver (blanks : List Char) : Re → Bool
  | .many _ p => blanks.all p
  | _ => false

def isPlus (blanks : List Char) : Re → Re → Bool
  | .cls p, .many _ q => blanks.all p && blanks.all q
  | _, _ => false

/-- An expression that survives widening; when `late`, behind a repetition
that may take some of the blanks for it. `atEnd` says that the end of the
narrow text is one of the wide text. -/
def survives (blanks : List Char) (atEnd : Bool) : Bool → Re → Bool
  | _, .eps => true
  | late, .cls p => !p ' ' || (late && blanks.all p)
  | late, .seq a b =>
      (survives blanks atEnd late a && survives blanks atEnd false b) ||
        (runsOver blanks a && survives blanks atEnd true b) || isPlus blanks a b
  | late, .alt a b => survives blanks atEnd late a && survives blanks atEnd late b
  | _, .many _ p => !p ' ' || blanks.all p
  | _, .wordEdge => true
  | _, .textEnd => atEnd
  | _, _ => false

structure Widening (isWord : Char → Bool) (blanks trail : List Char) (atEnd : Bool) : Prop where
  space_edge : isWord ' ' = false
  blanks_edge : ∀ c ∈ blanks, isWord c = false
  trail_edge : ∀ c ∈ trail, isWord c = false
  ends : atEnd = true → trail = [] ∨ trail = ['\n']

def isIn (blanks : List Char) (c : Char) : Bool := blanks.contains c

theorem takesBlanks_of_all {p : Char → Bool}
    (h : (!p ' ' || blanks.all p) = true) : TakesBlanks (isIn blanks) p := by
  intro hspace c hc
  rw [hspace, Bool.not_true, Bool.false_or, List.all_eq_true] at h
  exact h c (List.contains_iff_mem.mp hc)

/-- The wide text begins with a part of a word where the narrow one does. -/
theorem head_widened {atEnd : Bool} (hw : Widening isWord blanks trail atEnd)
    (h : Widened (isIn blanks) trail t s) : t.head?.any isWord = s.head?.any isWord := by
  cases h with
  | nil =>
      cases trail with
      | nil => rfl
      | cons c _ => simp [hw.trail_edge c (List.mem_cons_self ..)]
  | char _ _ => rfl
  | @gap u _ s hne hu _ =>
      obtain ⟨b, v, rfl⟩ := List.exists_cons_of_ne_nil hne
      have hb := hw.blanks_edge b (List.contains_iff_mem.mp (hu b (List.mem_cons_self ..)))
      simp [hw.space_edge, hb]

/-- What a character and a repetition that take the blanks make of the
first character of a text. -/
theorem exists_of_plus {atEnd : Bool}
    (hw : Widening isWord blanks trail atEnd) {f f' : Char → Bool} (hf : blanks.all f = true)
    (hf' : blanks.all f' = true) {c : Char} (hc : f c = true)
    (h : Widened (isIn blanks) trail (c :: t) s) :
    ∃ d u s₁, s = d :: (u ++ s₁) ∧ f d = true ∧ (∀ x ∈ u, f' x = true) ∧
      Widened (isIn blanks) trail t s₁ ∧ SameEdge isWord (some c) (lastOf (some d) u) := by
  cases h with
  | @char _ _ s _ h => exact ⟨c, [], s, rfl, hc, by simp, h, rfl⟩
  | @gap u _ s hne hu h =>
      have hmem : ∀ x ∈ u, x ∈ blanks := fun x hx => List.contains_iff_mem.mp (hu x hx)
      obtain ⟨d, v, rfl⟩ := List.exists_cons_of_ne_nil hne
      refine ⟨d, v, s, rfl, List.all_eq_true.mp hf d (hmem d (by simp)),
        fun x hx => List.all_eq_true.mp hf' x (hmem x (by simp [hx])), h, ?_⟩
      obtain ⟨w, b, hw'⟩ := (List.eq_nil_or_concat' (d :: v)).resolve_left (by simp)
      have hb := hw.blanks_edge b (hmem b (by rw [hw']; simp))
      rw [← lastOf_cons none d v, hw']
      simp [SameEdge, lastOf, hw.space_edge, hb]

/-- The way through an expression that survives widening, in the wide
text. -/
theorem takes_widened {atEnd : Bool} (hw : Widening isWord blanks trail atEnd) (r : Re) :
    ∀ {late : Bool} {p q p' : Option Char} {t s t' : List Char} {g g' : Groups},
      survives blanks atEnd late r = true → Widened (isIn blanks) trail t s →
      SameEdge isWord p q → Takes isWord r p t g p' t' g' →
      ∃ u s₀ q' s', s = u ++ s₀ ∧ (late = false → u = []) ∧ (∀ c ∈ u, c ∈ blanks) ∧
        (∀ h, ∃ h', Takes isWord r (lastOf q u) s₀ h q' s' h') ∧
        Widened (isIn blanks) trail t' s' ∧ SameEdge isWord p' q' := by
  have hblank : ∀ c, isIn blanks c = true → isWord c = false := fun c hc =>
    hw.blanks_edge c (List.contains_iff_mem.mp hc)
  induction r with
  | eps =>
      rintro late p q _ t s _ g _ - hwide hedge ⟨rfl, rfl, rfl⟩
      exact ⟨[], s, q, s, rfl, fun _ => rfl, by simp, fun h => ⟨h, rfl, rfl, rfl⟩, hwide, hedge⟩
  | cls f =>
      rintro late p q _ t s t' g _ hr hwide hedge ⟨c, hc, rfl, rfl, rfl⟩
      cases hwide with
      | @char _ _ s hne h =>
          exact ⟨[], c :: s, some c, s, rfl, fun _ => rfl, by simp,
            fun h' => ⟨h', c, hc, rfl, rfl, rfl⟩, h, rfl⟩
      | @gap u _ s hne hu h =>
          -- of the run only the last blank is taken
          obtain ⟨hlate, hall⟩ : late = true ∧ blanks.all f = true := by
            simpa [survives, hc] using hr
          obtain ⟨v, b, rfl⟩ := (List.eq_nil_or_concat' u).resolve_left hne
          have hmem : ∀ d ∈ v ++ [b], d ∈ blanks := fun d hd => List.contains_iff_mem.mp (hu d hd)
          have hb : f b = true := List.all_eq_true.mp hall b (hmem b (by simp))
          refine ⟨v, b :: s, some b, s, by simp, by simp [hlate], fun d hd => hmem d (by simp [hd]),
            fun h' => ⟨h', b, hb, rfl, rfl, rfl⟩, h, ?_⟩
          simp [SameEdge, hw.space_edge, hw.blanks_edge b (hmem b (by simp))]
  | seq a b iha ihb =>
      rintro late p q p' t s t' g g' hr hwide hedge ⟨p₁, t₁, g₁, ha, hb⟩
      simp only [survives, Bool.or_eq_true, Bool.and_eq_true] at hr
      rcases hr with (⟨hra, hrb⟩ | ⟨hruns, hrb⟩) | hplus
      · obtain ⟨u, s₀, q₁, s₁, rfl, hlate, hu, hway, hwide₁, hedge₁⟩ := iha hra hwide hedge ha
        obtain ⟨v, s₂, q', s', rfl, hv, -, hway', hwide', hedge'⟩ := ihb hrb hwide₁ hedge₁ hb
        obtain rfl : v = [] := hv rfl
        refine ⟨u, s₀, q', s', rfl, hlate, hu, fun h => ?_, hwide', hedge'⟩
        obtain ⟨h₁, hway⟩ := hway h
        obtain ⟨h', hway'⟩ := hway' h₁
        exact ⟨h', q₁, _, h₁, hway, hway'⟩
      · cases a with
        | many lazy f =>
            obtain ⟨w, hall, rfl, rfl, rfl⟩ := ha
            obtain ⟨s₀, s₁, rfl, hfront, hwide₁, hedge₁⟩ := hwide.append hblank hw.space_edge
            have hf : blanks.all f = true := hruns
            obtain ⟨v, s₂, q', s', rfl, -, hv, hway, hwide', hedge'⟩ :=
              ihb hrb hwide₁ (hedge₁ p q hedge) hb
            have hs₀ := hfront.all (takesBlanks_of_all (by simp [hf])) (by simp) hall
            refine ⟨[], s₀ ++ (v ++ s₂), q', s', rfl, fun _ => rfl, by simp, fun h => ?_, hwide', hedge'⟩
            obtain ⟨h', hway⟩ := hway h
            refine ⟨h', lastOf q (s₀ ++ v), s₂, h, ⟨s₀ ++ v, fun c hc => ?_, by simp, rfl, rfl⟩, ?_⟩
            · rcases List.mem_append.mp hc with hc | hc
              · exact hs₀ c hc
              · exact List.all_eq_true.mp hf c (hv c hc)
            · rw [lastOf_append]
              exact hway
        | _ => cases hruns
      · cases a with
        | cls f =>
            cases b with
            | many lazy f' =>
                obtain ⟨hf, hf'⟩ : blanks.all f = true ∧ blanks.all f' = true := by
                  simpa [isPlus] using hplus
                obtain ⟨c, hc, rfl, rfl, rfl⟩ := ha
                obtain ⟨w, hall, rfl, rfl, rfl⟩ := hb
                obtain ⟨d, u, s₁, rfl, hd, hu, hwide, hedge⟩ := exists_of_plus hw hf hf' hc hwide
                obtain ⟨s₀, s', rfl, hfront, hwide', hedge'⟩ := hwide.append hblank hw.space_edge
                have hs₀ := hfront.all (takesBlanks_of_all (by simp [hf'])) (by simp) hall
                refine ⟨[], d :: (u ++ (s₀ ++ s')), lastOf (some d) (u ++ s₀), s', rfl, fun _ => rfl,
                  by simp, fun h => ?_, hwide', ?_⟩
                · refine ⟨h, some d, _, h, ⟨d, hd, rfl, rfl, rfl⟩, u ++ s₀, fun x hx => ?_,
                    by simp, rfl, rfl⟩
                  exact (List.mem_append.mp hx).elim (hu x) (hs₀ x)
                · rw [lastOf_append]
                  exact hedge' (some c) (lastOf (some d) u) hedge
            | _ => cases hplus
        | _ => cases hplus
  | alt a b iha ihb =>
      rintro late p q p' t s t' g g' hr hwide hedge hway
      simp only [survives, Bool.and_eq_true] at hr
      rcases hway with ha | hb
      · obtain ⟨u, s₀, q', s', hs, hlate, hu, hway, hwide', hedge'⟩ := iha hr.1 hwide hedge ha
        exact ⟨u, s₀, q', s', hs, hlate, hu, fun h => (hway h).imp fun _ => Or.inl, hwide', hedge'⟩
      · obtain ⟨u, s₀, q', s', hs, hlate, hu, hway, hwide', hedge'⟩ := ihb hr.2 hwide hedge hb
        exact ⟨u, s₀, q', s', hs, hlate, hu, fun h => (hway h).imp fun _ => Or.inr, hwide', hedge'⟩
  | many lazy f =>
      rintro late p q _ t s t' g _ hr hwide hedge ⟨w, hall, rfl, rfl, rfl⟩
      obtain ⟨s₀, s₁, rfl, hfront, hwide₁, hedge₁⟩ := hwide.append hblank hw.space_edge
      have hs₀ := hfront.all (takesBlanks_of_all hr) (by simp) hall
      exact ⟨[], s₀ ++ s₁, lastOf q s₀, s₁, rfl, fun _ => rfl, by simp,
        fun h => ⟨h, s₀, hs₀, rfl, rfl, rfl⟩, hwide₁, hedge₁ p q hedge⟩
  | star a => rintro late p q p' t s t' g g' hr; cases hr
  | firstAt f piece => rintro late p q p' t s t' g g' hr; cases hr
  | group i a => rintro late p q p' t s t' g g' hr; cases hr
  | textStart => rintro late p q p' t s t' g g' hr; cases hr
  | textEnd =>
      rintro late p q _ t s _ g _ hr hwide hedge ⟨hend, rfl, rfl, rfl⟩
      have hs : s = [] ∨ s = ['\n'] := by
        cases hwide with
        | nil => exact hw.ends hr
        | char hc _ => simp [hc.2] at hend
        | gap _ _ _ => simp at hend
      exact ⟨[], s, q, s, rfl, fun _ => rfl, by simp, fun h => ⟨h, hs, rfl, rfl, rfl⟩, hwide, hedge⟩
  | wordEdge =>
      rintro late p q _ t s _ g _ - hwide hedge ⟨hne, rfl, rfl, rfl⟩
      have hhead := head_widened hw hwide
      refine ⟨[], s, q, s, rfl, fun _ => rfl, by simp, fun h => ⟨h, ?_, rfl, rfl, rfl⟩, hwide, hedge⟩
      have hedge : _ = q.any isWord := hedge
      rw [lastOf_nil, ← hhead, ← hedge]
      exact hne

/-- An expression that survives widening and occurs in the narrow text
occurs in the wide one, whatever stands in front of it that is no part of
a word. -/
theorem search_widened {atEnd : Bool}
    (hw : Widening isWord blanks trail atEnd) {r : Re} (hr : survives blanks atEnd false r = true)
    (h : Widened (isIn blanks) trail t s) {before : List Char}
    (hbefore : SameEdge isWord none (lastOf none before)) (hfound : search isWord r t = true) :
    search isWord r (before ++ s) = true := by
  obtain ⟨t₀, t₁, rfl, p', t', g', hway⟩ := search_iff.mp hfound
  obtain ⟨s₀, s₁, rfl, -, hwide, hedge⟩ := h.append
    (fun c hc => hw.blanks_edge c (List.contains_iff_mem.mp hc)) hw.space_edge
  obtain ⟨u, s₂, q', s', rfl, hu, -, hwayS, -, -⟩ :=
    takes_widened hw r hr hwide (hedge none (lastOf none before) hbefore) hway
  obtain rfl : u = [] := hu rfl
  obtain ⟨h', hwayS⟩ := hwayS []
  rw [lastOf_nil, ← lastOf_append] at hwayS
  exact search_iff.mpr ⟨before ++ s₀, s₂, by simp, q', s', h', hwayS⟩

end Lib.Regex
