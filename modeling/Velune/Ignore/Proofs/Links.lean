/-
Where a path that the matcher shows really leads.

Whatever the rules say, a path is shown only when it has a relative form
and its last step is no link that leads outside (`shown_cases`), and a
matcher without rules shows all of these (`shown_iff`). What lies above
the last step is never looked at: so the real place of a shown path is
in the workspace exactly when its directory's is (`StaysByParent`),
provided that taking back `..` by the text has not moved it (`Kept`).
-/
import Velune.Ignore.Proofs.Reference

namespace Velune.Ignore

open Lib FileTree

-- ===== places

variable (t : FileTree Stored) (root : List Name)

def written (path : PyStr) : List Name :=
  let parts := (PurePath.parse path).parts
  if PurePath.rootOf path = [] then root ++ parts else parts

def lexical (path : PyStr) : List Name :=
  if PurePath.rootOf path = [] then root ++ normparts path else normparts path

def location (path : PyStr) : List Name := t.real (written root path)

/-- Normalising the text of a path does not change where it leads: no
`..` goes back over a link. -/
def Kept (path : PyStr) : Prop := location t root path = t.real (lexical root path)

/-- A relative form leads where its directory lies: its last step is a
link (which is followed and checked), or the directory really lies in the
workspace, or the form leads back to the root itself. Nothing but `..`
leads out of any root but the root of the tree. -/
def StaysByParent (rel : List PyStr) : Prop :=
  ∀ dir name, rel = dir ++ [name] →
    if name = up then root = []
    else name = here ∨ t.isLinkAt (root ++ rel) = true ∨ root <+: t.real (root ++ dir) ∨
      t.real (root ++ dir) ++ [name] = root

-- ===== what is shown

variable {t root}

theorem shown_cases {v : VeluneIgnore} {q : Query} {memo : Memo}
    (h : (isIgnored v q memo).1 = false) :
    ∃ rel, relative v q.path = some rel ∧ (rel = [] ∨ linkEscapes v (v.root ++ rel) = false) := by
  unfold isIgnored at h
  cases hrel : relative v q.path with
  | none =>
      rw [hrel] at h
      cases h
  | some rel =>
      rw [hrel] at h
      refine ⟨rel, rfl, ?_⟩
      by_cases hnil : rel = []
      · exact .inl hnil
      simp only at h
      rw [if_neg hnil] at h
      cases hlink : linkEscapes v (v.root ++ rel) with
      | false => exact .inr rfl
      | true =>
          simp only [hlink, if_true, ite_self] at h
          cases h

def VeluneIgnore.bare (v : VeluneIgnore) : VeluneIgnore := { v with defaults := [], useFiles := false }

theorem judged_bare (v : VeluneIgnore) (rel : List PyStr) (isDir : Bool) :
    judged v.bare all rel isDir = false := by
  have hnone : ∀ l : List (List PyStr),
      (l.findSome? fun d => verdictIn v.bare d rel isDir) = none := by
    intro l
    rw [List.findSome?_eq_none_iff]
    exact fun _ _ => rfl
  rw [judged, hnone]
  rfl

theorem anyJudged_bare (v : VeluneIgnore) (rel : List PyStr) : anyJudged v.bare rel = false := by
  rw [anyJudged, List.any_eq_false]
  intro above _
  rw [judged_bare]
  simp

theorem shown_bare {v : VeluneIgnore} {q : Query} {rel : List PyStr}
    (hrel : relative v q.path = some rel)
    (h : rel = [] ∨ linkEscapes v (v.root ++ rel) = false) :
    (isIgnored v.bare q .init).1 = false := by
  have hmemo := Memo.Coherent.init v.bare
  have hrel' : relative v.bare q.path = some rel := hrel
  unfold isIgnored
  rw [hrel']
  simp only
  by_cases hnil : rel = []
  · rw [if_pos hnil]
  rw [if_neg hnil]
  have hparent : ∀ parent : Bool × Memo, parent = (if rel.dropLast = [] then (false, .init)
      else parentExcluded v.bare rel.dropLast .init) →
      parent.1 = false ∧ parent.2.Coherent v.bare := by
    rintro parent rfl
    split
    next => exact ⟨rfl, hmemo⟩
    next =>
      obtain ⟨hany, hmemo'⟩ := parentExcluded_spec hmemo rel.dropLast
      exact ⟨hany.trans (anyJudged_bare v _), hmemo'⟩
  obtain ⟨hfalse, hmemo'⟩ := hparent _ rfl
  have hlink : linkEscapes v.bare (v.bare.root ++ rel) = false := h.resolve_left hnil
  rw [hfalse, if_neg (by simp), hlink, if_neg (by simp), (decideRel_spec hmemo' _ _).1,
    judged_bare]

-- ===== normalised paths

theorem isPart_ne_here {path : PyStr} : ∀ name ∈ (PurePath.parse path).parts, name ≠ here := by
  intro name hname
  have := (List.mem_filter.1 hname).2
  simp only [PurePath.isPart, Bool.and_eq_true, bne_iff_ne] at this
  exact this.2

/-- The shape of a relative form: `.` is one only alone, and `..` ends
one only after other `..`. -/
structure RelForm (rel : List PyStr) : Prop where
  of_here : ∀ dir, rel = dir ++ [here] → dir = []
  of_up : ∀ dir, rel = dir ++ [up] → ∃ k, rel = List.replicate (k + 1) up

theorem relForm_of_plain {rel : List PyStr} (hhere : here ∉ rel) (hup : up ∉ rel) : RelForm rel where
  of_here dir h := absurd (h ▸ by simp) hhere
  of_up dir h := absurd (h ▸ by simp) hup

theorem relForm_normparts (path : PyStr) : RelForm (normparts path) := by
  obtain ⟨k, names, hnormal, hup, hnames, -⟩ :=
    normal_form (PurePath.rootOf path != []) (PurePath.parse path).parts
  have hhere : here ∉ normparts path := by
    rw [normparts, hnormal]
    intro h
    rcases List.mem_append.1 h with h | h
    · exact absurd (List.eq_of_mem_replicate h) (by decide)
    · exact isPart_ne_here here (hnames here h) rfl
  refine ⟨fun dir h => absurd (h ▸ by simp) hhere, fun dir h => ?_⟩
  rw [normparts, hnormal] at h
  rcases List.eq_nil_or_concat' names with rfl | ⟨names, name, rfl⟩
  · rw [List.append_nil] at h
    cases k with
    | zero => simp at h
    | succ k => exact ⟨k, by rw [normparts, hnormal, List.append_nil]⟩
  · rw [← List.append_assoc] at h
    have hlast := List.append_inj_right' h rfl
    simp only [List.cons.injEq, and_true] at hlast
    exact absurd (by simp [hlast]) hup

theorem normparts_absolute {path : PyStr} (h : PurePath.rootOf path ≠ []) :
    up ∉ normparts path ∧ here ∉ normparts path := by
  obtain ⟨k, names, hnormal, hup, hnames, habsolute⟩ :=
    normal_form (PurePath.rootOf path != []) (PurePath.parse path).parts
  rw [habsolute (by simpa using h), List.replicate_zero, List.nil_append] at hnormal
  rw [normparts, hnormal]
  exact ⟨hup, fun hmem => isPart_ne_here here (hnames here hmem) rfl⟩

/-- A physical place has neither `.` nor `..`. -/
theorem physical_plain {place : List Name} (h : Physical t.node place) :
    up ∉ place ∧ here ∉ place := by
  constructor
  · intro hmem
    obtain ⟨before, after, hplace⟩ := List.append_of_mem hmem
    exact (h before up after hplace).1 rfl
  · intro hmem
    obtain ⟨before, after, hplace⟩ := List.append_of_mem hmem
    exact (h before here after hplace).2.1 rfl

theorem relative_form {v : VeluneIgnore} {path : PyStr} {rel : List PyStr}
    (h : relative v path = some rel) :
    v.tree.real (v.root ++ rel) = v.tree.real (lexical v.root path) ∧ RelForm rel := by
  unfold relative at h
  simp only at h
  split at h
  next hrelative =>
    have hlexical : lexical v.root path = v.root ++ normparts path := if_pos hrelative
    rw [hlexical]
    split at h
    next hnil =>
      cases h
      rw [hnil, List.append_nil]
      refine ⟨?_, fun dir h => ?_, fun dir h => ?_⟩
      · rw [real_append]
        rfl
      · cases dir with
        | nil => rfl
        | cons d dir => simp at h
      · have hlast := congrArg List.getLast? h
        rw [List.getLast?_concat] at hlast
        exact absurd hlast (by decide)
    next =>
      cases h
      exact ⟨rfl, relForm_normparts path⟩
  next habsolute =>
    obtain ⟨hup, hhere⟩ := normparts_absolute habsolute
    have hlexical : lexical v.root path = normparts path := if_neg habsolute
    rw [hlexical]
    split at h
    next hbelow =>
      cases h
      refine ⟨congrArg v.tree.real (List.prefix_append_drop hbelow.1).symm, relForm_of_plain ?_ ?_⟩
      · exact fun hmem => hhere (List.mem_of_mem_drop hmem)
      · exact fun hmem => hup (List.mem_of_mem_drop hmem)
    next =>
      split at h
      next hinside =>
        split at h
        next => cases h
        next =>
          cases h
          obtain ⟨hup, hhere⟩ := physical_plain (real_physical (t := v.tree) (normparts path))
          refine ⟨?_, relForm_of_plain ?_ ?_⟩
          · rw [← List.prefix_append_drop hinside]
            exact real_of_physical (real_physical _)
          · exact fun hmem => hhere (List.mem_of_mem_drop hmem)
          · exact fun hmem => hup (List.mem_of_mem_drop hmem)
      next => cases h

-- ===== the law

/-- A form leads into the workspace, or ends in a link, exactly when it
stays by its parent. -/
theorem stays_iff (hroot : Physical t.node root) {rel : List PyStr} (hform : RelForm rel)
    (hne : rel ≠ []) :
    (t.isLinkAt (root ++ rel) = true ∨ root <+: t.real (root ++ rel)) ↔
      StaysByParent t root rel := by
  obtain ⟨dir, name, rfl⟩ : ∃ dir name, rel = dir ++ [name] := by
    rcases List.eq_nil_or_concat' rel with rfl | ⟨dir, name, h⟩
    · exact absurd rfl hne
    · exact ⟨dir, name, h⟩
  have hstays : StaysByParent t root (dir ++ [name]) ↔
      if name = up then root = []
      else name = here ∨ t.isLinkAt (root ++ (dir ++ [name])) = true ∨
        root <+: t.real (root ++ dir) ∨ t.real (root ++ dir) ++ [name] = root := by
    constructor
    · exact fun h => h dir name rfl
    · intro h dir' name' heq
      obtain ⟨rfl, hname⟩ := List.append_inj' heq rfl
      cases hname
      exact h
  rw [hstays]
  by_cases hup : name = up
  · subst hup
    rw [if_pos rfl]
    obtain ⟨k, hk⟩ := hform.of_up dir rfl
    have hnolink : t.isLinkAt (root ++ (dir ++ [up])) = false := by
      rw [← List.append_assoc, isLinkAt_up]
    rw [hnolink]
    constructor
    · rintro (h | h)
      · cases h
      · have hle := h.length_le
        rw [real_below hroot, hk, walk_up] at hle
        exact List.eq_nil_of_length_eq_zero (by omega)
    · rintro rfl
      exact .inr List.nil_prefix
  rw [if_neg hup]
  by_cases hhere : name = here
  · subst hhere
    rw [hform.of_here dir rfl]
    refine iff_of_true (.inr ?_) (.inl rfl)
    have hreal : t.real (root ++ ([] ++ [here])) = root := by
      rw [real_below hroot]
      rfl
    rw [hreal]
  · cases hlink : t.isLinkAt (root ++ (dir ++ [name])) with
    | true => exact iff_of_true (.inl rfl) (.inr (.inl rfl))
    | false =>
        rw [← List.append_assoc] at hlink
        rw [← List.append_assoc, real_concat hup hhere hlink, List.prefix_concat_iff]
        simp only [hhere, Bool.false_eq_true, false_or]
        constructor
        · rintro (h | h)
          · exact .inr h.symm
          · exact .inl h
        · rintro (h | h)
          · exact .inr h
          · exact .inl h.symm

/-- Whatever the rules and the queries before, what is shown of a path is
in the workspace. -/
def ShowsInside (v : VeluneIgnore) (path : PyStr) : Prop :=
  ∀ flags defaults useFiles qs isDir,
    let w := { v with flags := flags, defaults := defaults, useFiles := useFiles }
    (isIgnored w ⟨path, isDir⟩ (runQueries w qs .init).2).1 = false →
      v.root <+: location v.tree v.root path

/-- What is shown of a path has a relative form that is not hidden as a
link leading out. -/
theorem showsInside_iff_forms (v : VeluneIgnore) (path : PyStr) :
    ShowsInside v path ↔ ∀ rel, relative v path = some rel →
      (rel = [] ∨ linkEscapes v (v.root ++ rel) = false) → v.root <+: location v.tree v.root path := by
  constructor
  · intro h rel hrel hshown
    exact h v.flags [] false [] none (shown_bare (q := ⟨path, none⟩) hrel hshown)
  · intro h flags defaults useFiles qs isDir w hshown
    obtain ⟨rel, hrel, hshown⟩ := shown_cases hshown
    exact h rel hrel hshown

/-- A path is shown only when it really leads into the workspace exactly
when normalising keeps where it leads and it stays by its parent; or
when it does not, but leads back all the same, or what is left of it is
hidden as outside. -/
theorem shows_inside_iff (v : VeluneIgnore) (path : PyStr) :
    ShowsInside v path ↔
      (Kept v.tree v.root path ∧
        ∀ rel, relative v path = some rel → StaysByParent v.tree v.root rel) ∨
      (¬ Kept v.tree v.root path ∧
        (v.root <+: location v.tree v.root path ∨
          ∀ rel, relative v path = some rel →
            rel ≠ [] ∧ linkEscapes v (v.root ++ rel) = true)) := by
  rw [showsInside_iff_forms]
  by_cases hkept : Kept v.tree v.root path
  · -- the forms lead where the path does
    have hform : ∀ rel, relative v path = some rel →
        ((rel = [] ∨ linkEscapes v (v.root ++ rel) = false →
            v.root <+: location v.tree v.root path) ↔ StaysByParent v.tree v.root rel) := by
      intro rel hrel
      obtain ⟨hreal, hshape⟩ := relative_form hrel
      have hplace : location v.tree v.root path = v.tree.real (v.root ++ rel) := by
        rw [hreal]
        exact hkept
      by_cases hnil : rel = []
      · subst hnil
        rw [hplace, List.append_nil, real_of_physical v.root_real]
        refine iff_of_true (fun _ => List.prefix_refl _) ?_
        intro dir name h
        simp at h
      · rw [hplace, ← stays_iff v.root_real hshape hnil, linkEscapes]
        simp only [hnil, false_or, Bool.and_eq_false_iff, Bool.not_eq_false', decide_eq_true_eq]
        cases v.tree.isLinkAt (v.root ++ rel) with
        | true => simp
        | false => simp
    simp only [hkept, not_true, false_and, or_false, true_and]
    exact forall₂_congr hform
  · simp only [hkept, not_false_eq_true, false_and, false_or, true_and]
    constructor
    · intro h
      by_cases hinside : v.root <+: location v.tree v.root path
      · exact .inl hinside
      · refine .inr fun rel hrel => ?_
        by_contra hno
        refine hinside (h rel hrel ?_)
        by_cases hnil : rel = []
        · exact .inl hnil
        · exact .inr (by simpa [hnil] using hno)
    · rintro (hinside | hhidden) rel hrel hshown
      · exact hinside
      · obtain ⟨hne, hescapes⟩ := hhidden rel hrel
        rcases hshown with hnil | hshown
        · exact absurd hnil hne
        · rw [hescapes] at hshown
          cases hshown

def linkedNode (place : List Name) : Option (Node Stored) :=
  if place = ["ws".toList, "out".toList] then some (.link ["etc".toList])
  else if place = ["etc".toList, "secret".toList] then some (.file ⟨0, .ok []⟩)
  else none

def linkedTree : FileTree Stored where
  node := linkedNode
  top := rfl
  link_physical {p q} h := by
    unfold linkedNode at h
    split at h
    next =>
      cases h
      exact physical_singleton (by decide) (by decide) (by decide)
    next =>
      split at h
      next => cases h
      next => cases h

def linked : VeluneIgnore where
  tree := linkedTree
  root := ["ws".toList]
  root_real := physical_singleton (by decide) (by decide) (by decide)
  flags := ⟨⟨id, fun c => [c]⟩, true⟩
  defaults := []
  useFiles := true

/-- A relative path that begins with `..` is shown, and so is a file
behind a directory link that leads out. -/
theorem shows_outside :
    ¬ ShowsInside linked "../etc/secret".toList ∧ ¬ ShowsInside linked "/ws/out/secret".toList := by
  constructor
  · intro h
    exact absurd (h linked.flags [] true [] none (by decide +kernel)) (by decide +kernel)
  · intro h
    exact absurd (h linked.flags [] true [] none (by decide +kernel)) (by decide +kernel)

end Velune.Ignore
