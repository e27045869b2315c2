/-
When the trust list is what the user decided.

A call writes back the list that it read. While every call that opens the
file still finds there the directories it read, and its write goes
through, the list follows the calls (`trust_follows`); a call that does
not puts a revoked directory back (`revoked_trusted`).
-/
import Velune.Core.Trust

namespace Velune.Core

open Lib

-- ===== entries

/-- What a call makes of a list is its decision on its own directory, and
the list on every other. -/
theorem apply_key (op : Op) (entries : Entries) (key : PyStr) : ((op.apply entries).get? key).isSome
    = if key = op.key then op.decides else (entries.get? key).isSome := by
  cases op with
  | trust own trustedAt =>
      change ((entries.set own _).get? key).isSome = if key = own then true else _
      split
      · rename_i hkey
        rw [hkey, Assoc.get?_set_self]
        rfl
      · rename_i hkey
        rw [Assoc.get?_set_of_ne _ _ hkey]
  | forget own =>
      change ((entries.pop own).get? key).isSome = if key = own then false else _
      split
      · rename_i hkey
        rw [hkey, Assoc.get?_pop_self]
        rfl
      · rename_i hkey
        rw [Assoc.get?_pop_of_ne _ hkey]

-- ===== condition

def TrustState.Writing (s : TrustState) (n : Nat) (op : Op) (entries : Entries) : Prop :=
  s.calls.get? n = some ⟨op, .writing entries⟩

def TrustState.NoWriter (s : TrustState) : Prop := ∀ n op entries, ¬ s.Writing n op entries

def Sound : Step → TrustState → Prop
  | .call .., _ => True
  | .load n readable, s =>
      ∀ op, s.calls.get? n = some ⟨op, .called⟩ → op.saves (s.file.load readable) = false →
        s.NoWriter ∧ ((s.file.load true).get? op.key).isSome = false
  | .openFile n opens, s =>
      ∀ op entries, s.calls.get? n = some ⟨op, .loaded entries⟩ → opens = true ∧ s.NoWriter
        ∧ ∀ key, key ≠ op.key →
          (entries.get? key).isSome = ((s.file.load true).get? key).isSome
  | .write _ written _, _ => written = .whole
  | .crash n _ _, s => ∀ op entries, ¬ s.Writing n op entries

/-- The list is what was decided, but for a write in progress, which makes
it so. -/
structure Follows (s : TrustState) : Prop where
  rest : s.NoWriter → ∀ key, isTrusted false s.file key = s.decided key
  opened : ∀ n op entries, s.Writing n op entries → s.file.isEmpty = true
    ∧ ∀ key, (entries.get? key).isSome = if key = op.key then op.decides else s.decided key
  alone : ∀ n op entries m op' entries', s.Writing n op entries → s.Writing m op' entries' → n = m

-- ===== steps

section Steps

variable {s s' : TrustState} {n m : Nat} {op op' : Op} {entries entries' : Entries} {call : Call}

theorem enter_other (h : m ≠ n) : (s.enter n call).calls.get? m = s.calls.get? m :=
  Assoc.get?_set_of_ne _ _ h

theorem leave_other (h : m ≠ n) : (s.leave n).calls.get? m = s.calls.get? m :=
  Assoc.get?_pop_of_ne _ h

theorem leave_self : (s.leave n).calls.get? n = none := Assoc.get?_pop_self _ _

def Step.who : Step → Nat
  | .call n _ | .load n _ | .openFile n _ | .write n _ _ | .crash n _ _ => n

theorem step_other {step : Step} (hstep : trustStep step s = some s') (h : m ≠ step.who) :
    s'.calls.get? m = s.calls.get? m := by
  cases step with
  | call n op =>
      simp only [trustStep] at hstep
      split at hstep
      · cases hstep
        exact enter_other h
      · cases hstep
  | load n readable =>
      simp only [trustStep] at hstep
      split at hstep
      · cases hstep
        split
        · exact enter_other h
        · exact leave_other h
      · cases hstep
  | openFile n opens =>
      simp only [trustStep] at hstep
      split at hstep
      · cases hstep
        split
        · exact enter_other h
        · exact leave_other h
      · cases hstep
  | write n written covers =>
      simp only [trustStep] at hstep
      split at hstep
      · cases hstep
        exact leave_other h
      · cases hstep
  | crash n written covers =>
      simp only [trustStep] at hstep
      split at hstep
      · cases hstep
        exact leave_other h
      · cases hstep
        exact leave_other h
      · cases hstep

theorem Follows.same (h : Follows s) (hfile : s'.file = s.file) (hdecided : s'.decided = s.decided)
    (hwriting : ∀ n op entries, s'.Writing n op entries ↔ s.Writing n op entries) :
    Follows s' where
  rest hnone key := by
    rw [hfile, hdecided]
    exact h.rest (fun n op entries hw => hnone n op entries ((hwriting n op entries).2 hw)) key
  opened n op entries hw := by
    rw [hfile, hdecided]
    exact h.opened n op entries ((hwriting n op entries).1 hw)
  alone n op entries m op' entries' hw hw' :=
    h.alone n op entries m op' entries' ((hwriting n op entries).1 hw)
      ((hwriting m op' entries').1 hw')

theorem enter_writing (hcall : ∀ entries, call.phase ≠ .writing entries)
    (hbefore : ∀ op entries, ¬ s.Writing n op entries) :
    (s.enter n call).Writing m op entries ↔ s.Writing m op entries := by
  unfold TrustState.Writing
  by_cases hmn : m = n
  · subst hmn
    refine iff_of_false (fun hw => ?_) (hbefore op entries)
    change (s.calls.set m call).get? m = _ at hw
    rw [Assoc.get?_set_self] at hw
    cases hw
    exact hcall entries rfl
  · rw [enter_other hmn]

theorem leave_writing (hbefore : ∀ op entries, ¬ s.Writing n op entries) :
    (s.leave n).Writing m op entries ↔ s.Writing m op entries := by
  unfold TrustState.Writing
  by_cases hmn : m = n
  · subst hmn
    refine iff_of_false (fun hw => ?_) (hbefore op entries)
    rw [leave_self] at hw
    cases hw
  · rw [leave_other hmn]

theorem absent_follows (h : Follows s) (hnone : s.NoWriter) (hsaves : op.saves entries = false)
    (hcall : ∀ op entries, ¬ s.Writing n op entries)
    (habsent : ((s.file.load true).get? op.key).isSome = false) : Follows (s.finish n op) := by
  have hnone' : (s.finish n op).NoWriter :=
    fun m op' entries' hw => hnone m op' entries' ((leave_writing hcall).1 hw)
  have hdecides : op.decides = false := by
    cases op with
    | trust key trustedAt => cases hsaves
    | forget key => rfl
  refine ⟨fun _ key => ?_, fun m op' entries' hw => (hnone' m op' entries' hw).elim,
    fun m op' entries' _ _ _ hw => (hnone' m op' entries' hw).elim⟩
  change isTrusted false s.file key = if key = op.key then op.decides else s.decided key
  split
  · rename_i hkey
    rw [hdecides, hkey]
    exact habsent
  · exact h.rest hnone key

theorem openFile_follows (h : Follows s) (hnone : s.NoWriter) (hread : ∀ key, key ≠ op.key →
      (entries.get? key).isSome = ((s.file.load true).get? key).isSome) :
    Follows { s.enter n ⟨op, .writing (op.apply entries)⟩ with file := .empty } := by
  have hself : ({ s.enter n ⟨op, .writing (op.apply entries)⟩ with file := .empty }
      : TrustState).Writing n op (op.apply entries) := Assoc.get?_set_self _ _ _
  have honly : ∀ m op' entries', (s.enter n ⟨op, .writing (op.apply entries)⟩).Writing m op' entries' →
      m = n := by
    intro m op' entries' hw
    by_contra hmn
    unfold TrustState.Writing at hw
    rw [enter_other hmn] at hw
    exact hnone m op' entries' hw
  refine ⟨fun hquiet => (hquiet n op _ hself).elim, fun m op' entries' hw => ?_,
    fun m op' entries' m' op'' entries'' hw hw' => ?_⟩
  · have hmn := honly m op' entries' hw
    subst hmn
    cases hself.symm.trans hw
    refine ⟨rfl, fun key => ?_⟩
    rw [apply_key]
    change _ = if key = op.key then op.decides else s.decided key
    split
    · rfl
    · rename_i hkey
      rw [hread key hkey]
      exact h.rest hnone key
  · exact (honly m op' entries' hw).trans (honly m' op'' entries'' hw').symm

theorem write_follows (h : Follows s) (hw : s.Writing n op entries) (covers : Bool) :
    Follows { s.finish n op with file := s.file.write .whole covers entries } := by
  obtain ⟨hempty, hentries⟩ := h.opened n op entries hw
  have hfile : s.file.write .whole covers entries = .json (payload entries) := by
    unfold TrustFile.write
    rw [hempty]
    rfl
  have hnone : (s.leave n).NoWriter := by
    intro m op' entries' hw'
    by_cases hmn : m = n
    · subst hmn
      unfold TrustState.Writing at hw'
      rw [leave_self] at hw'
      cases hw'
    · unfold TrustState.Writing at hw'
      rw [leave_other hmn] at hw'
      exact hmn (h.alone m op' entries' n op entries hw' hw)
  refine ⟨fun _ key => ?_, fun m op' entries' hw' => (hnone m op' entries' hw').elim,
    fun m op' entries' _ _ _ hw' => (hnone m op' entries' hw').elim⟩
  change isTrusted false (s.file.write .whole covers entries) key
    = if key = op.key then op.decides else s.decided key
  rw [hfile]
  exact hentries key

theorem step_follows {step : Step} (hsound : Sound step s) (h : Follows s)
    (hstep : trustStep step s = some s') : Follows s' := by
  cases step with
  | call n op =>
      cases hcall : s.calls.get? n with
      | some call =>
          simp only [trustStep, hcall] at hstep
          cases hstep
      | none =>
          simp only [trustStep, hcall] at hstep
          cases hstep
          have hbefore : ∀ op entries, ¬ s.Writing n op entries :=
            fun _ _ hw => by cases hcall.symm.trans hw
          exact h.same rfl rfl fun _ _ _ => enter_writing (fun _ hphase => by cases hphase) hbefore
  | load n readable =>
      simp only [trustStep] at hstep
      split at hstep
      · rename_i op hcall
        cases hstep
        have hbefore : ∀ op entries, ¬ s.Writing n op entries :=
          fun _ _ hw => by cases hcall.symm.trans hw
        split
        · exact h.same rfl rfl fun _ _ _ => enter_writing (fun _ hphase => by cases hphase) hbefore
        · rename_i hsaves
          obtain ⟨hnone, habsent⟩ := hsound op hcall (Bool.eq_false_iff.2 hsaves)
          exact absent_follows h hnone (Bool.eq_false_iff.2 hsaves) hbefore habsent
      · cases hstep
  | openFile n opens =>
      simp only [trustStep] at hstep
      split at hstep
      · rename_i op entries hcall
        cases hstep
        obtain ⟨hopens, hnone, hread⟩ := hsound op entries hcall
        rw [if_pos hopens]
        exact openFile_follows h hnone hread
      · cases hstep
  | write n written covers =>
      simp only [trustStep] at hstep
      split at hstep
      · rename_i op entries hcall
        cases hstep
        have hwritten : written = .whole := hsound
        rw [hwritten]
        exact write_follows h hcall covers
      · cases hstep
  | crash n written covers =>
      simp only [trustStep] at hstep
      have hbefore : ∀ op entries, ¬ s.Writing n op entries := hsound
      split at hstep
      · rename_i op entries hcall
        exact (hbefore op entries hcall).elim
      · cases hstep
        exact h.same rfl rfl fun _ _ _ => leave_writing hbefore
      · cases hstep

end Steps

-- ===== claim

def TrustState.Quiet (s : TrustState) : Prop := ∀ n, s.calls.get? n = none

/-- A directory is trusted exactly when the last call for it that was
completed was a trust. -/
def TrustState.Decided (s : TrustState) : Prop := ∀ key, isTrusted false s.file key = s.decided key

/-- After any steps that are sound, the list is what was decided. -/
theorem trust_follows {steps : List Step} {s t : TrustState} (hquiet : s.Quiet) (hstart : s.Decided)
    (hrun : run trustStep steps s = some t) (hsound : Meets trustStep Sound steps s)
    (hend : t.Quiet) : t.Decided := by
  have hfollows : Follows s := by
    have hnone : s.NoWriter := fun n op entries hw => by cases (hquiet n).symm.trans hw
    exact ⟨fun _ => hstart, fun n op entries hw => (hnone n op entries hw).elim,
      fun n op entries _ _ _ hw => (hnone n op entries hw).elim⟩
  have hlast : Follows t :=
    run_preserves_of (fun _ _ _ hsound h hstep => step_follows hsound h hstep) hsound hfollows hrun
  exact hlast.rest fun n op entries hw => by cases (hend n).symm.trans hw

def alone (turn : Nat × Op) : List Step :=
  [.call turn.1 turn.2, .load turn.1 true, .openFile turn.1 true, .write turn.1 .whole false]

theorem enter_noWriter {s : TrustState} {n : Nat} {call : Call} (hquiet : s.Quiet)
    (hcall : ∀ entries, call.phase ≠ .writing entries) : (s.enter n call).NoWriter := by
  have hnone : s.NoWriter := fun m op entries hw => by cases (hquiet m).symm.trans hw
  exact fun m op entries hw => hnone m op entries ((enter_writing hcall (hnone n)).1 hw)

theorem alone_sound (turn : Nat × Op) {s : TrustState} (hquiet : s.Quiet) :
    Meets trustStep Sound (alone turn) s := by
  obtain ⟨n, op⟩ := turn
  refine ⟨trivial, fun s₁ hs₁ => ?_⟩
  simp only [trustStep, hquiet n] at hs₁
  cases hs₁
  have hcalled : (s.enter n ⟨op, .called⟩).calls.get? n = some ⟨op, .called⟩ :=
    Assoc.get?_set_self _ _ _
  have hnone : (s.enter n ⟨op, .called⟩).NoWriter :=
    enter_noWriter hquiet fun _ hphase => by cases hphase
  refine ⟨fun op' hop' hsaves => ?_, fun s₂ hs₂ => ?_⟩
  · cases hcalled.symm.trans hop'
    refine ⟨hnone, ?_⟩
    cases op with
    | trust key trustedAt => cases hsaves
    | forget key => exact hsaves
  · simp only [trustStep, hcalled] at hs₂
    cases hs₂
    refine ⟨fun op' entries hop' => ?_, fun _ _ => ⟨rfl, fun _ _ => trivial⟩⟩
    split at hop'
    · rename_i hsaves
      cases (Assoc.get?_set_self _ _ _).symm.trans hop'
      rw [if_pos hsaves]
      refine ⟨rfl, fun m op' entries' hw => ?_, fun _ _ => rfl⟩
      have hbefore := (enter_writing (fun _ hphase => by cases hphase) (hnone n)).1 hw
      exact hnone m op' entries' hbefore
    · cases leave_self.symm.trans hop'

theorem alone_quiet (turn : Nat × Op) {s t : TrustState} (hquiet : s.Quiet)
    (hrun : run trustStep (alone turn) s = some t) : t.Quiet := by
  obtain ⟨n, op⟩ := turn
  obtain ⟨s₁, hs₁, hrun⟩ := run_cons hrun
  obtain ⟨s₂, hs₂, hrun⟩ := run_cons hrun
  obtain ⟨s₃, hs₃, hrun⟩ := run_cons hrun
  obtain ⟨s₄, hs₄, hrun⟩ := run_cons hrun
  have hother : ∀ m, m ≠ n → s₃.calls.get? m = none := fun m hmn =>
    (step_other hs₃ hmn).trans ((step_other hs₂ hmn).trans
      ((step_other hs₁ hmn).trans (hquiet m)))
  cases hrun
  simp only [trustStep] at hs₄
  split at hs₄
  · cases hs₄
    intro m
    by_cases hmn : m = n
    · rw [hmn]
      exact leave_self
    · exact (leave_other hmn).trans (hother m hmn)
  · cases hs₄

theorem turns_sound : ∀ (turns : List (Nat × Op)) {s : TrustState}, s.Quiet →
    Meets trustStep Sound (turns.flatMap alone) s
  | [], _, _ => trivial
  | turn :: turns, _, hquiet =>
      meets_append (alone_sound turn hquiet) fun _ ht => turns_sound turns (alone_quiet turn hquiet ht)

def cloned : PyStr := "/work/cloned".toList

def own : PyStr := "/work/own".toList

def noTrust : TrustState := ⟨.missing, [], fun _ => false⟩

theorem noTrust_decided : noTrust.Quiet ∧ noTrust.Decided := ⟨fun _ => rfl, fun _ => rfl⟩

def turns : List (Nat × Op) := [(1, .trust cloned []), (2, .trust own []), (1, .forget cloned)]

def turned : TrustState := (run trustStep (turns.flatMap alone) noTrust).getD noTrust

theorem turned_decided : run trustStep (turns.flatMap alone) noTrust = some turned ∧ turned.Decided :=
  ⟨rfl, trust_follows noTrust_decided.1 noTrust_decided.2 rfl
    (turns_sound turns noTrust_decided.1) fun _ => rfl⟩

/-- A directory is revoked while a call about another has read the list. -/
def overlap : List Step :=
  alone (1, .trust cloned []) ++ [.call 2 (.trust own []), .load 2 true]
    ++ alone (1, .forget cloned) ++ [.openFile 2 true, .write 2 .whole false]

def overlapped : TrustState := (run trustStep overlap noTrust).getD noTrust

theorem revoked_trusted : noTrust.Quiet ∧ noTrust.Decided
    ∧ run trustStep overlap noTrust = some overlapped ∧ overlapped.Quiet
    ∧ ¬ overlapped.Decided := by
  refine ⟨noTrust_decided.1, noTrust_decided.2, rfl, fun _ => rfl, fun h => ?_⟩
  have htrusted : isTrusted false overlapped.file cloned = true := by decide
  exact Bool.false_ne_true ((h cloned).symm.trans htrusted)

-- ===== no directory of its own accord

section Unasked

variable {s s' : TrustState} {n : Nat} {call : Call} {key : PyStr}

def Phase.entries : Phase → Entries
  | .called => []
  | .loaded entries | .writing entries => entries

/-- A call neither is about to trust a directory nor has read that it is. -/
def Call.Without (key : PyStr) (call : Call) : Prop :=
  (∀ trustedAt, call.op ≠ .trust key trustedAt) ∧ call.phase.entries.get? key = none

def TrustState.Without (key : PyStr) (s : TrustState) : Prop :=
  (s.file.load true).get? key = none ∧
    ∀ n call, s.calls.get? n = some call → call.Without key

theorem without_enter (h : s.Without key) (hcall : call.Without key) :
    (s.enter n call).Without key := by
  refine ⟨h.1, fun m other hother => ?_⟩
  rcases Assoc.get?_set_cases hother with ⟨-, rfl⟩ | ⟨-, hold⟩
  · exact hcall
  · exact h.2 m other hold

theorem without_leave (h : s.Without key) : (s.leave n).Without key := by
  refine ⟨h.1, fun m other hother => ?_⟩
  rcases eq_or_ne m n with rfl | hne
  · cases leave_self.symm.trans hother
  · exact h.2 m other ((leave_other hne).symm.trans hother)

theorem without_write {written : Written} {covers : Bool} {file : TrustFile} {entries : Entries}
    (h : (file.load true).get? key = none) (hentries : entries.get? key = none) :
    ((file.write written covers entries).load true).get? key = none := by
  cases written with
  | nothing => exact h
  | partly => rfl
  | whole =>
      unfold TrustFile.write
      dsimp only
      split
      · exact hentries
      · rfl

theorem without_apply {op : Op} {entries : Entries} (hop : ∀ trustedAt, op ≠ .trust key trustedAt)
    (h : entries.get? key = none) : (op.apply entries).get? key = none := by
  cases op with
  | trust own trustedAt =>
      exact (Assoc.get?_set_of_ne _ _ fun heq => hop trustedAt (by rw [heq])).trans h
  | forget own =>
      rcases eq_or_ne key own with rfl | hne
      · exact Assoc.get?_pop_self _ _
      · exact (Assoc.get?_pop_of_ne _ hne).trans h

theorem without_step {step : Step} (hask : ∀ n trustedAt, step ≠ .call n (.trust key trustedAt))
    (h : s.Without key) (hstep : trustStep step s = some s') : s'.Without key := by
  cases step with
  | call n op =>
      simp only [trustStep] at hstep
      split at hstep <;> cases hstep
      exact without_enter h ⟨fun trustedAt hop => hask n trustedAt (by rw [← hop]), rfl⟩
  | load n readable =>
      simp only [trustStep] at hstep
      split at hstep <;> cases hstep
      rename_i op hcall
      split
      · refine without_enter h ⟨(h.2 n _ hcall).1, ?_⟩
        cases readable with
        | true => exact h.1
        | false => cases s.file <;> rfl
      · exact without_leave h
  | openFile n opens =>
      simp only [trustStep] at hstep
      split at hstep <;> cases hstep
      rename_i op entries hcall
      obtain ⟨hop, hentries⟩ := h.2 n _ hcall
      split
      · have henter : (s.enter n ⟨op, .writing (op.apply entries)⟩).Without key :=
          without_enter h ⟨hop, without_apply hop hentries⟩
        exact ⟨rfl, henter.2⟩
      · exact without_leave h
  | write n written covers =>
      simp only [trustStep] at hstep
      split at hstep <;> cases hstep
      rename_i hcall
      exact ⟨without_write h.1 (h.2 n _ hcall).2, (without_leave h).2⟩
  | crash n written covers =>
      simp only [trustStep] at hstep
      split at hstep <;> cases hstep
      · rename_i hcall
        exact ⟨without_write h.1 (h.2 n _ hcall).2, (without_leave h).2⟩
      · exact without_leave h

end Unasked

/-- However the calls overlap, fail or tear the file, a directory that is
trusted was so at the start or some call was to trust it. -/
theorem trusted_asked {steps : List Step} {s t : TrustState} {key : PyStr} (hquiet : s.Quiet)
    (hrun : run trustStep steps s = some t) (htrusted : isTrusted false t.file key = true) :
    isTrusted false s.file key = true ∨ ∃ n trustedAt, Step.call n (.trust key trustedAt) ∈ steps := by
  by_contra hnot
  rw [not_or, not_exists] at hnot
  have hstart : s.Without key := by
    refine ⟨Option.not_isSome_iff_eq_none.1 hnot.1, fun n call hcall => ?_⟩
    cases (hquiet n).symm.trans hcall
  have hmeets : Meets trustStep
      (fun step _ => ∀ n trustedAt, step ≠ .call n (.trust key trustedAt)) steps s :=
    meets_of_forall s fun step hstep _ n trustedAt heq => hnot.2 n ⟨trustedAt, heq ▸ hstep⟩
  have hend := run_preserves_of (P := TrustState.Without key)
    (fun _ _ _ hask h hstep => without_step hask h hstep) hmeets hstart hrun
  exact Option.not_isSome_iff_eq_none.2 hend.1 htrusted

theorem trusted_asked_overlap : isTrusted false noTrust.file cloned = true ∨
    ∃ n trustedAt, Step.call n (.trust cloned trustedAt) ∈ overlap :=
  trusted_asked noTrust_decided.1 (t := overlapped) rfl (by decide)

end Velune.Core
