/-
Runs of an executable transition system: a state type `σ`, a label type
`α` and a guarded step `step : α → σ → Option σ`, `none` when the label
is disabled. One definition serves replay (a concrete run is evaluated)
and proof (the rules below carry an induction once, so that a client
only ever proves one-step lemmas).

Five rules, in the order a client meets them:

- `run_preserves`: a predicate kept by every step holds at the end of
  every run;
- `run_preserves_of`: the same when only the steps that meet a side
  condition keep it, and the run takes no other (`Meets`);
- `upheld_iff_meets`, `kept_iff_meets`: when only those steps keep it,
  the runs that keep it throughout are exactly those that take no other;
- `run_relates`: a reflexive, transitive relation that every step
  respects relates the two ends of every run (monotone counters,
  entries that never change once settled);
- `countP_add_rank_le`: a rank that every step of a kind lowers bounds how
  many of them a run takes.
-/
import Mathlib.Order.Defs.Unbundled
import Mathlib.Logic.Basic

namespace Lib

variable {σ α : Type*} (step : α → σ → Option σ)

def run : List α → σ → Option σ
  | [], s => some s
  | a :: as, s =>
      match step a s with
      | some s' => run as s'
      | none => none

/-- Every step the run takes meets `C` in the state it is taken from. -/
def Meets (C : α → σ → Prop) : List α → σ → Prop
  | [], _ => True
  | a :: as, s => C a s ∧ ∀ s', step a s = some s' → Meets C as s'

/-- Whether a run meets a condition that can be decided is decided by
replaying it. -/
instance decidableMeets (C : α → σ → Prop) [∀ a s, Decidable (C a s)] :
    ∀ (as : List α) (s : σ), Decidable (Meets step C as s)
  | [], _ => isTrue trivial
  | a :: as, s =>
      have hrest : Decidable (∀ s', step a s = some s' → Meets step C as s') :=
        match step a s with
        | none => isTrue fun _ hs => by cases hs
        | some s' =>
            match decidableMeets C as s' with
            | isTrue hm => isTrue fun _ ht => Option.some.inj ht ▸ hm
            | isFalse hm => isFalse fun hall => hm (hall s' rfl)
      inferInstanceAs (Decidable (_ ∧ _))

variable {step}
variable {as : List α} {s t : σ} {C : α → σ → Prop}

theorem run_cons {a : α} (h : run step (a :: as) s = some t) :
    ∃ s', step a s = some s' ∧ run step as s' = some t := by
  simp only [run] at h
  split at h
  next s' hs => exact ⟨s', hs, h⟩
  next => cases h

theorem run_append {as bs : List α} {s t u : σ} (h₁ : run step as s = some t)
    (h₂ : run step bs t = some u) : run step (as ++ bs) s = some u := by
  induction as generalizing s with
  | nil =>
      have hst : s = t := by simpa [run] using h₁
      exact hst ▸ h₂
  | cons a as ih =>
      obtain ⟨s', hs, hrest⟩ := run_cons h₁
      simp only [List.cons_append, run, hs]
      exact ih hrest

/-- A run meets `C` when its labels do so in every state. -/
theorem meets_of_forall : ∀ {as : List α} (s : σ), (∀ a ∈ as, ∀ s, C a s) → Meets step C as s
  | [], _, _ => trivial
  | a :: _, s, h =>
      ⟨h a (List.mem_cons_self ..) s,
        fun s' _ => meets_of_forall s' fun b hb => h b (List.mem_cons_of_mem a hb)⟩

/-- Side conditions that say the same of every step say the same of every
run. -/
theorem meets_congr {C D : α → σ → Prop} (h : ∀ a s, C a s ↔ D a s) :
    ∀ {as : List α} {s : σ}, Meets step C as s ↔ Meets step D as s
  | [], _ => Iff.rfl
  | a :: _, s => and_congr (h a s) (forall_congr' fun _ => imp_congr_right fun _ => meets_congr h)

theorem Meets.mono {C D : α → σ → Prop} (h : ∀ a s, C a s → D a s) :
    ∀ {as : List α} {s : σ}, Meets step C as s → Meets step D as s
  | [], _, _ => trivial
  | a :: _, s, hC => ⟨h a s hC.1, fun s' hs => (hC.2 s' hs).mono h⟩

/-- A run meets `C` when its first part does and, from where that ends,
its second. -/
theorem meets_append :
    ∀ {as bs : List α} {s : σ}, Meets step C as s →
      (∀ t, run step as s = some t → Meets step C bs t) → Meets step C (as ++ bs) s
  | [], _, s, _, h => h s rfl
  | a :: as, bs, s, hC, h =>
      ⟨hC.1, fun s' hs => meets_append (hC.2 s' hs) fun t ht => h t (by simp [run, hs, ht])⟩

theorem run_drop {as bs : List α} {s t u : σ} (h : run step (as ++ bs) s = some u)
    (hfirst : run step as s = some t) : run step bs t = some u := by
  induction as generalizing s with
  | nil =>
      have hst : s = t := by simpa [run] using hfirst
      exact hst ▸ h
  | cons a as ih =>
      obtain ⟨s', hs, hrest⟩ := run_cons hfirst
      simp only [List.cons_append, run, hs] at h
      exact ih h hrest

theorem meets_drop {as bs : List α} (h : Meets step C (as ++ bs) s)
    (hfirst : run step as s = some t) : Meets step C bs t := by
  induction as generalizing s with
  | nil =>
      have hst : s = t := by simpa [run] using hfirst
      exact hst ▸ h
  | cons a as ih =>
      obtain ⟨s', hs, hrest⟩ := run_cons hfirst
      exact ih (h.2 s' hs) hrest

theorem meets_take : ∀ {as bs : List α} {s : σ}, Meets step C (as ++ bs) s → Meets step C as s
  | [], _, _, _ => trivial
  | _ :: _, _, _, h => ⟨h.1, fun s' hs => meets_take (h.2 s' hs)⟩

theorem Meets.and_kept {P : σ → Prop} (hstep : ∀ a s s', C a s → P s → step a s = some s' → P s') :
    ∀ {as : List α} {s : σ}, Meets step C as s → P s → Meets step (fun a s => C a s ∧ P s) as s
  | [], _, _, _ => trivial
  | a :: _, s, h, hP =>
      ⟨⟨h.1, hP⟩, fun s' hs => (h.2 s' hs).and_kept hstep (hstep a s s' h.1 hP hs)⟩

theorem Meets.and {C D : α → σ → Prop} :
    ∀ {as : List α} {s : σ}, Meets step C as s → Meets step D as s →
      Meets step (fun a s => C a s ∧ D a s) as s
  | [], _, _, _ => trivial
  | _ :: _, _, hC, hD => ⟨⟨hC.1, hD.1⟩, fun s' hs => (hC.2 s' hs).and (hD.2 s' hs)⟩

/-- A predicate kept by every step that meets `C` holds at the end of
every run whose steps all meet `C`. -/
theorem run_preserves_of {P : σ → Prop}
    (hstep : ∀ a s s', C a s → P s → step a s = some s' → P s') (hC : Meets step C as s) (hP : P s)
    (hrun : run step as s = some t) : P t := by
  induction as generalizing s with
  | nil =>
      have hst : s = t := by simpa [run] using hrun
      exact hst ▸ hP
  | cons a as ih =>
      obtain ⟨s', hs, hrest⟩ := run_cons hrun
      exact ih (hC.2 s' hs) (hstep a s s' hC.1 hP hs) hrest

theorem run_preserves {P : σ → Prop}
    (hstep : ∀ a s s', P s → step a s = some s' → P s') (hP : P s) (hrun : run step as s = some t) :
    P t := by
  induction as generalizing s with
  | nil =>
      have hst : s = t := by simpa [run] using hrun
      exact hst ▸ hP
  | cons a as ih =>
      obtain ⟨s', hs, hrest⟩ := run_cons hrun
      exact ih (hstep a s s' hP hs) hrest

/-- A preorder that every step from a state satisfying the invariant `P`
respects relates the two ends of every run that starts in `P`. -/
theorem run_relates {P : σ → Prop} {R : σ → σ → Prop} (hrefl : ∀ s, R s s)
    (htrans : ∀ s t u, R s t → R t u → R s u) (hP : ∀ a s s', P s → step a s = some s' → P s')
    (hR : ∀ a s s', P s → step a s = some s' → R s s') (hs : P s) (hrun : run step as s = some t) :
    R s t := by
  induction as generalizing s with
  | nil =>
      have hst : s = t := by simpa [run] using hrun
      exact hst ▸ hrefl s
  | cons a as ih =>
      obtain ⟨s', hs', hrest⟩ := run_cons hrun
      exact htrans _ _ _ (hR a s s' hs hs') (ih (hP a s s' hs hs') hrest)

/-- Where no step raises a rank and each one that counts lowers it, a run
takes no more of those than its rank allows. -/
theorem countP_add_rank_le {P : σ → Prop} {counts : α → Bool} {rank : σ → Nat}
    (hP : ∀ a s s', C a s → P s → step a s = some s' → P s')
    (hrank : ∀ a s s', C a s → P s → step a s = some s' →
      rank s' + (counts a).toNat ≤ rank s) (hC : Meets step C as s) (hs : P s)
    (hrun : run step as s = some t) : as.countP counts + rank t ≤ rank s := by
  induction as generalizing s with
  | nil =>
      have hst : s = t := by simpa [run] using hrun
      simp [hst]
  | cons a as ih =>
      obtain ⟨s', hs', hrest⟩ := run_cons hrun
      have hone := hrank a s s' hC.1 hs hs'
      have hmore := ih (hC.2 s' hs') (hP a s s' hC.1 hs hs') hrest
      rw [List.countP_cons]
      cases hcount : counts a <;> simp [hcount] at hone ⊢ <;> omega

/-- Where a step keeps `P`, and does `Q`, exactly when it meets `C`, a
run does so throughout exactly when its steps all meet `C`. What else the
step lemma needs (`I`) has to survive only the steps that meet `C`. -/
theorem upheld_iff_meets {C Q : α → σ → Prop} {I P : σ → Prop}
    (hI : ∀ a s s', I s → P s → C a s → step a s = some s' → I s')
    (hstep : ∀ a s s', I s → P s → step a s = some s' → (Q a s ∧ P s' ↔ C a s)) :
    ∀ {as : List α} {s t : σ}, I s → P s → run step as s = some t →
      (Meets step (fun a s => P s ∧ Q a s) as s ∧ P t ↔ Meets step C as s)
  | [], s, t, _, hP, hrun => by
      have hst : s = t := by simpa [run] using hrun
      exact iff_of_true ⟨trivial, hst ▸ hP⟩ trivial
  | a :: as, s, t, hs, hP, hrun => by
      obtain ⟨s', hs', hrest⟩ := run_cons hrun
      have hone := hstep a s s' hs hP hs'
      refine ⟨fun ⟨hall, hend⟩ => ?_, fun hC => ?_⟩
      · have hP' : P s' := by
          cases as with
          | nil =>
              have hst : s' = t := by simpa [run] using hrest
              exact hst ▸ hend
          | cons b bs => exact (hall.2 s' hs').1.1
        have hC := hone.1 ⟨hall.1.2, hP'⟩
        refine ⟨hC, fun u hu => ?_⟩
        cases hs'.symm.trans hu
        have hI' := hI a s s' hs hP hC hs'
        exact (upheld_iff_meets hI hstep hI' hP' hrest).1 ⟨hall.2 s' hs', hend⟩
      · obtain ⟨hQ, hP'⟩ := hone.2 hC.1
        have hI' := hI a s s' hs hP hC.1 hs'
        obtain ⟨hall, hend⟩ := (upheld_iff_meets hI hstep hI' hP' hrest).2 (hC.2 s' hs')
        refine ⟨⟨⟨hP, hQ⟩, fun u hu => ?_⟩, hend⟩
        cases hs'.symm.trans hu
        exact hall

/-- Where a step keeps `P` exactly when it meets `C`, a run keeps it
throughout exactly when its steps all do; the invariant has to survive
only the steps that meet `C`. -/
theorem kept_iff_meets_of {I P : σ → Prop}
    (hI : ∀ a s s', I s → P s → C a s → step a s = some s' → I s')
    (hstep : ∀ a s s', I s → P s → step a s = some s' → (P s' ↔ C a s)) (hs : I s) (hP : P s)
    (hrun : run step as s = some t) :
    Meets step (fun _ s => P s) as s ∧ P t ↔ Meets step C as s := by
  have hstep' : ∀ a s s', I s → P s → step a s = some s' → (True ∧ P s' ↔ C a s) :=
    fun a s s' hs hP hs' => (iff_of_eq (true_and (P s'))).trans (hstep a s s' hs hP hs')
  refine (and_congr_left' (meets_congr fun _ s => ?_)).trans
    (upheld_iff_meets hI hstep' hs hP hrun)
  exact (iff_of_eq (and_true (P s))).symm

/-- Where a step keeps `P` exactly when it meets `C`, a run keeps it
throughout exactly when its steps all do. -/
theorem kept_iff_meets {I P : σ → Prop} (hI : ∀ a s s', I s → step a s = some s' → I s')
    (hstep : ∀ a s s', I s → P s → step a s = some s' → (P s' ↔ C a s)) (hs : I s) (hP : P s)
    (hrun : run step as s = some t) : Meets step (fun _ s => P s) as s ∧ P t ↔ Meets step C as s :=
  kept_iff_meets_of (fun a s s' hs _ _ => hI a s s' hs) hstep hs hP hrun

end Lib
