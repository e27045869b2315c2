/-
What the lifecycle journal keeps.

Nothing holds the path between a call's second look and its `os.replace`, so
the journal is never overwritten in exactly the runs in which no call
replaces what another has put there in between (`kept_iff`). What is written
is read back as it was if it is not too large, up to pairs of surrogates,
which `json` joins (`reads_back_iff`), and the reader gives one of its states
unless the text is nested too deep for the interpreter (`readJournal_isOk_iff`).
-/
import Velune.Lifecycle.Journal

namespace Velune.Lifecycle

open Lib
open Lib.JsonText (Str Value CodePoint LoadError ofText Unpaired joined)

-- ===== runs

section

variable {isWord : Char → Bool} {env : PyStr → Option RawStr}

/-- The journal that was there, or the whole entry of the one call that put
its own in the place of nothing; a call that returned is that one, and one
that raised is not. -/
structure Kept (before : AtPath) (s : Sys) : Prop where
  one : ∀ i j, (s.calls i).wrote = true → (s.calls j).wrote = true → i = j
  target : s.target = before ∨ before = .missing ∧
    ∃ i, (s.calls i).wrote = true ∧ s.target = .file (journalBytes (s.calls i).entry)
  returned : ∀ i, (s.calls i).stage = .returned → (s.calls i).wrote = true
  raised : ∀ i e, (s.calls i).stage = .raised e → (s.calls i).wrote = false

structure Sound (before : AtPath) (s : Sys) : Prop where
  wrote : ∀ i, (s.calls i).wrote = true →
    (s.calls i).stage = .replaced ∨ (s.calls i).stage = .returned ∨ (s.calls i).stage = .crashed
  done : ∀ i, (s.calls i).stage = .replaced ∨ (s.calls i).stage = .returned →
    (s.calls i).wrote = true
  /-- what a call put there stays, or another's is put over it -/
  target : (∀ i, (s.calls i).wrote = false) ∧ s.target = before ∨
    ∃ i, (s.calls i).wrote = true ∧ s.target = .file (journalBytes (s.calls i).entry)
  /-- a call goes on only where nothing was -/
  free : before ≠ .missing → ∀ i, (s.calls i).stage ≠ .looked ∧ (s.calls i).stage ≠ .prepared ∧
    (s.calls i).stage ≠ .clear ∧ (s.calls i).wrote = false

def Begun (before : AtPath) (s : Sys) : Prop :=
  s.target = before ∧ ∀ i, (s.calls i).stage = .start ∧ (s.calls i).wrote = false

variable {before : AtPath} {s : Sys}

theorem Begun.sound (h : Begun before s) : Sound before s where
  wrote i hwrote := by
    rw [(h.2 i).2] at hwrote
    cases hwrote
  done i hdone := by
    rw [(h.2 i).1] at hdone
    rcases hdone with hstage | hstage
    · cases hstage
    · cases hstage
  target := Or.inl ⟨fun i => (h.2 i).2, h.1⟩
  free _ i := by
    rw [(h.2 i).1, (h.2 i).2]
    exact ⟨by decide, by decide, by decide, rfl⟩

theorem Begun.kept (h : Begun before s) : Kept before s where
  one i _ hwrote := by
    rw [(h.2 i).2] at hwrote
    cases hwrote
  target := Or.inl h.1
  returned i hstage := by
    rw [(h.2 i).1] at hstage
    cases hstage
  raised i _ _ := (h.2 i).2

-- ------------------------------------------------------------------------ steps

inductive Goes (target : AtPath) : Stage → Stage → Prop
  | looked (h : target = .missing) : Goes target .start .looked
  | prepared : Goes target .looked .prepared
  | clear (h : target = .missing) : Goes target .prepared .clear
  | returned : Goes target .replaced .returned
  | raised {stage} (e : WriteError) (h : stage = .start ∨ stage = .looked ∨ stage = .prepared ∨
      stage = .clear) : Goes target stage (.raised e)
  | crashed {stage} (h : stage ≠ .returned) : Goes target stage .crashed

/-- Call `i` has put its entry there. -/
def Sys.put (s : Sys) (i : Nat) : Sys where
  target := .file (journalBytes (s.calls i).entry)
  calls := Function.update s.calls i { s.calls i with stage := .replaced, wrote := true }

/-- A step moves one call on, or it is the replace of one that saw the path
free. -/
theorem step_cases {a : Nat × Act} {s s' : Sys} (h : step isWord env a s = some s') :
    (a.2 ≠ .replace ∧ ∃ stage, Goes s.target (s.calls a.1).stage stage ∧ s' = s.move a.1 stage) ∨
      (a.2 = .replace ∧ (s.calls a.1).stage = .clear ∧ s' = s.put a.1) := by
  obtain ⟨i, act⟩ := a
  unfold step at h
  cases act with
  | look =>
      refine Or.inl ⟨fun hact => (by cases hact), ?_⟩
      cases hstage : (s.calls i).stage <;> simp only [hstage] at h <;> try cases h
      split at h
      next field _ =>
        cases h
        exact ⟨_, .raised _ (Or.inl rfl), rfl⟩
      next =>
        cases h
        split
        next hfree => exact ⟨_, .looked hfree, rfl⟩
        next => exact ⟨_, .raised _ (Or.inl rfl), rfl⟩
  | prepare =>
      refine Or.inl ⟨fun hact => (by cases hact), ?_⟩
      cases hstage : (s.calls i).stage <;> simp only [hstage] at h <;> cases h
      exact ⟨_, .prepared, rfl⟩
  | lookAgain =>
      refine Or.inl ⟨fun hact => (by cases hact), ?_⟩
      cases hstage : (s.calls i).stage <;> simp only [hstage] at h <;> cases h
      split
      next hfree => exact ⟨_, .clear hfree, rfl⟩
      next => exact ⟨_, .raised _ (Or.inr (Or.inr (Or.inl rfl))), rfl⟩
  | replace =>
      refine Or.inr ⟨rfl, ?_⟩
      cases hstage : (s.calls i).stage <;> simp only [hstage] at h <;> cases h
      exact ⟨rfl, rfl⟩
  | finish =>
      refine Or.inl ⟨fun hact => (by cases hact), ?_⟩
      cases hstage : (s.calls i).stage <;> simp only [hstage] at h <;> cases h
      exact ⟨_, .returned, rfl⟩
  | fail =>
      refine Or.inl ⟨fun hact => (by cases hact), ?_⟩
      cases hstage : (s.calls i).stage <;> simp only [hstage] at h <;> cases h
      · exact ⟨_, .raised _ (Or.inr (Or.inl rfl)), rfl⟩
      · exact ⟨_, .raised _ (Or.inr (Or.inr (Or.inl rfl))), rfl⟩
      · exact ⟨_, .raised _ (Or.inr (Or.inr (Or.inr rfl))), rfl⟩
  | crash =>
      refine Or.inl ⟨fun hact => (by cases hact), ?_⟩
      have hnot : (s.calls i).stage ≠ .returned := by
        intro hstage
        simp only [hstage] at h
        cases h
      refine ⟨.crashed, .crashed hnot, ?_⟩
      cases hstage : (s.calls i).stage <;> simp only [hstage] at h <;> cases h <;> rfl

theorem move_stage (s : Sys) (i j : Nat) (stage : Stage) :
    ((s.move i stage).calls j).stage = if j = i then stage else (s.calls j).stage := by
  unfold Sys.move
  simp only [Function.update_apply]
  split
  · rfl
  · rfl

theorem move_wrote (s : Sys) (i j : Nat) (stage : Stage) :
    ((s.move i stage).calls j).wrote = (s.calls j).wrote := by
  unfold Sys.move
  simp only [Function.update_apply]
  split
  next heq => rw [heq]
  next => rfl

theorem move_entry (s : Sys) (i j : Nat) (stage : Stage) :
    ((s.move i stage).calls j).entry = (s.calls j).entry := by
  unfold Sys.move
  simp only [Function.update_apply]
  split
  next heq => rw [heq]
  next => rfl

theorem put_self (s : Sys) (i : Nat) :
    (s.put i).calls i = { s.calls i with stage := .replaced, wrote := true } :=
  Function.update_self ..

theorem put_other (s : Sys) {i j : Nat} (h : j ≠ i) : (s.put i).calls j = s.calls j :=
  Function.update_of_ne h ..

theorem Sound.unwritten (h : Sound before s) {i : Nat}
    (hstage : (s.calls i).stage = .start ∨ (s.calls i).stage = .looked ∨
      (s.calls i).stage = .prepared ∨ (s.calls i).stage = .clear) : (s.calls i).wrote = false := by
  by_contra hwrote
  rw [Bool.not_eq_false] at hwrote
  rcases h.wrote i hwrote with hdone | hdone | hdone <;> rw [hdone] at hstage <;>
    simp at hstage

theorem Sound.move (h : Sound before s) {i : Nat} {stage : Stage}
    (hgoes : Goes s.target (s.calls i).stage stage) : Sound before (s.move i stage) where
  wrote j hwrote := by
    rw [move_wrote] at hwrote
    rw [move_stage]
    split
    next heq =>
      subst heq
      generalize hfrom : (s.calls j).stage = old at hgoes
      have hdone := h.wrote j hwrote
      rw [hfrom] at hdone
      cases hgoes with
      | returned => exact Or.inr (Or.inl rfl)
      | crashed => exact Or.inr (Or.inr rfl)
      | raised e hold =>
          rw [← hfrom] at hold
          rw [h.unwritten hold] at hwrote
          cases hwrote
      | looked | prepared | clear => simp at hdone
    next => exact h.wrote j hwrote
  done j hdone := by
    rw [move_stage] at hdone
    rw [move_wrote]
    split at hdone
    next heq =>
      subst heq
      generalize hfrom : (s.calls j).stage = old at hgoes
      cases hgoes with
      | returned => exact h.done j (Or.inl hfrom)
      | looked | prepared | clear | crashed | raised => simp at hdone
    next => exact h.done j hdone
  target := by
    rcases h.target with hnone | hsome
    · exact Or.inl ⟨fun j => (move_wrote s i j stage).trans (hnone.1 j), hnone.2⟩
    · obtain ⟨j, hwrote, htarget⟩ := hsome
      refine Or.inr ⟨j, (move_wrote s i j stage).trans hwrote, ?_⟩
      rw [move_entry]
      exact htarget
  free hbefore j := by
    have hfree := h.free hbefore j
    have htarget : s.target ≠ .missing := by
      rcases h.target with hnone | hsome
      · rw [hnone.2]
        exact hbefore
      · obtain ⟨k, hwrote, -⟩ := hsome
        rw [(h.free hbefore k).2.2.2] at hwrote
        cases hwrote
    rw [move_stage, move_wrote]
    split
    next heq =>
      subst heq
      generalize hfrom : (s.calls j).stage = old at hgoes hfree
      refine ⟨?_, ?_, ?_, hfree.2.2.2⟩
      · intro hstage
        subst hstage
        cases hgoes with
        | looked hmissing => exact htarget hmissing
      · intro hstage
        subst hstage
        cases hgoes with
        | prepared => exact hfree.1 rfl
      · intro hstage
        subst hstage
        cases hgoes with
        | clear hmissing => exact htarget hmissing
    next => exact hfree

theorem Kept.move (h : Kept before s) (hsound : Sound before s)
    {i : Nat} {stage : Stage} (hgoes : Goes s.target (s.calls i).stage stage) :
    Kept before (s.move i stage) where
  one j k hj hk := by
    rw [move_wrote] at hj hk
    exact h.one j k hj hk
  target := by
    refine h.target.imp id fun hput => ⟨hput.1, ?_⟩
    obtain ⟨j, hwrote, htarget⟩ := hput.2
    refine ⟨j, (move_wrote s i j stage).trans hwrote, ?_⟩
    rw [move_entry]
    exact htarget
  returned j hstage := (hsound.move hgoes).done j (Or.inr hstage)
  raised j e hstage := by
    rw [move_stage] at hstage
    rw [move_wrote]
    split at hstage
    next heq =>
      subst heq
      subst hstage
      generalize hfrom : (s.calls j).stage = old at hgoes
      cases hgoes with
      | raised e hold => exact hsound.unwritten (hfrom ▸ hold)
    next => exact h.raised j e hstage

theorem Sound.nobody (h : Sound before s) (hfree : s.target = .missing) :
    before = .missing ∧ ∀ i, (s.calls i).wrote = false := by
  rcases h.target with hnone | hsome
  · exact ⟨hnone.2.symm.trans hfree, hnone.1⟩
  · obtain ⟨j, -, htarget⟩ := hsome
    rw [hfree] at htarget
    cases htarget

theorem put_wrote (hnobody : ∀ i, (s.calls i).wrote = false) {i j : Nat}
    (h : ((s.put i).calls j).wrote = true) : j = i := by
  by_contra hne
  rw [put_other s hne, hnobody j] at h
  cases h

theorem Sound.put (h : Sound before s) {i : Nat}
    (hfree : s.target = .missing) : Sound before (s.put i) where
  wrote j hwrote := by
    rw [put_wrote (h.nobody hfree).2 hwrote, put_self]
    exact Or.inl rfl
  done j hdone := by
    by_cases heq : j = i
    · rw [heq, put_self]
    · rw [put_other s heq] at hdone ⊢
      exact h.done j hdone
  target := Or.inr ⟨i, by rw [put_self], by rw [put_self]; rfl⟩
  free hbefore := absurd (h.nobody hfree).1 hbefore

theorem Kept.put (h : Kept before s) (hsound : Sound before s) {i : Nat}
    (hfree : s.target = .missing) : Kept before (s.put i) where
  one j k hj hk := by
    have hnobody := (hsound.nobody hfree).2
    rw [put_wrote hnobody hj, put_wrote hnobody hk]
  target := Or.inr ⟨(hsound.nobody hfree).1, i, by rw [put_self], by rw [put_self]; rfl⟩
  returned := fun j hstage => (hsound.put hfree).done j (Or.inr hstage)
  raised j e hstage := by
    by_cases heq : j = i
    · rw [heq, put_self] at hstage
      cases hstage
    · rw [put_other s heq] at hstage ⊢
      exact h.raised j e hstage

def Alone (a : Nat × Act) (s : Sys) : Prop := a.2 = .replace → s.target = .missing

theorem sound_step {a : Nat × Act} {s s' : Sys} (h : Sound before s)
    (halone : Alone a s) (hstep : step isWord env a s = some s') : Sound before s' := by
  rcases step_cases hstep with ⟨-, stage, hgoes, heq⟩ | ⟨hact, -, heq⟩
  · rw [heq]
    exact h.move hgoes
  · rw [heq]
    exact h.put (halone hact)

theorem kept_step {a : Nat × Act} {s s' : Sys} (hsound : Sound before s)
    (h : Kept before s) (hstep : step isWord env a s = some s') : Kept before s' ↔ Alone a s := by
  rcases step_cases hstep with ⟨hact, stage, hgoes, heq⟩ | ⟨hact, hclear, heq⟩
  · rw [heq]
    exact iff_of_true (h.move hsound hgoes) fun hreplace => absurd hreplace hact
  · rw [heq]
    constructor
    · intro hkept _
      have hunwritten := hsound.unwritten (Or.inr (Or.inr (Or.inr hclear)))
      rcases hsound.target with hnone | hsome
      · rw [hnone.2]
        by_contra hbefore
        exact (hsound.free hbefore a.1).2.2.1 hclear
      · -- what is there was put there by another call, which has then replaced too
        obtain ⟨j, hwrote, -⟩ := hsome
        have hne : j ≠ a.1 := by
          intro hsame
          rw [hsame, hunwritten] at hwrote
          cases hwrote
        refine absurd (hkept.one j a.1 ?_ ?_) hne
        · rw [put_other s hne]
          exact hwrote
        · rw [put_self]
    · exact fun halone => h.put hsound (halone hact)

/-- In a run the journal is kept at every moment if and only if no call
replaces anything. -/
theorem kept_iff {acts : List (Nat × Act)} {s t : Sys} (hbegun : Begun before s)
    (hrun : run (step isWord env) acts s = some t) :
    Meets (step isWord env) (fun _ s => Kept before s) acts s ∧ Kept before t
      ↔ Meets (step isWord env) Alone acts s :=
  kept_iff_meets_of (fun _ _ _ hsound _ halone hstep => sound_step hsound halone hstep)
    (fun _ _ _ hsound hkept hstep => kept_step hsound hkept hstep) hbegun.sound hbegun.kept hrun

end

-- ===== reading back

def JournalEntry.strings (e : JournalEntry) : List Str :=
  [e.operation, e.phase, e.startedAt, e.installer] ++ e.fromVersion.toList ++ e.specifier.toList
    ++ e.extras ++ e.pythonVersion.toList ++ e.pythonBase.toList ++ e.toVersion.toList

/-- An entry as `json` reads it back, its surrogates joined. -/
def JournalEntry.joined (e : JournalEntry) : JournalEntry where
  operation := JsonText.joined e.operation
  phase := JsonText.joined e.phase
  startedAt := JsonText.joined e.startedAt
  fromVersion := e.fromVersion.map JsonText.joined
  specifier := e.specifier.map JsonText.joined
  extras := e.extras.map JsonText.joined
  pythonVersion := e.pythonVersion.map JsonText.joined
  pythonBase := e.pythonBase.map JsonText.joined
  toVersion := e.toVersion.map JsonText.joined
  installer := JsonText.joined e.installer
  schemaVersion := e.schemaVersion

def JournalEntry.sorted (e : JournalEntry) : Assoc Str Value :=
  [(key "extras", .list (e.extras.map .str)), (key "from_version", optional e.fromVersion),
    (key "installer", .str e.installer), (key "operation", .str e.operation),
    (key "phase", .str e.phase), (key "python_base", optional e.pythonBase),
    (key "python_version", optional e.pythonVersion),
    (key "schema_version", .int e.schemaVersion), (key "specifier", optional e.specifier),
    (key "started_at", .str e.startedAt), (key "to_version", optional e.toVersion)]

theorem sortKeys_optional (s : Option Str) : (optional s).sortKeys = optional s := by
  cases s with
  | none => rfl
  | some s => rfl

theorem sortKeys_strings (xs : List Str) :
    (Value.list (xs.map .str)).sortKeys = .list (xs.map .str) := by
  unfold Value.sortKeys
  rw [JsonText.sortItems_eq_map, List.map_map]
  rfl

theorem sortKeys_toJsonDict (e : JournalEntry) :
    (Value.dict e.toJsonDict).sortKeys = .dict e.sorted := by
  unfold Value.sortKeys
  rw [JsonText.sortValues_eq_map]
  unfold JournalEntry.toJsonDict
  simp only [List.map_cons, List.map_nil, sortKeys_optional, sortKeys_strings]
  rfl

-- ------------------------------------------------------------------------- joined

section

variable {style : JsonText.Style}

theorem write_optional_joined (depth : Nat) (s : Option Str) :
    JsonText.write style depth (optional (s.map JsonText.joined))
      = JsonText.write style depth (optional s) := by
  cases s with
  | none => rfl
  | some s => exact JsonText.writeString_joined s

theorem writeItems_joined (depth : Nat) (xs : List Str) :
    JsonText.writeItems style depth ((xs.map JsonText.joined).map .str)
      = JsonText.writeItems style depth (xs.map .str) := by
  induction xs with
  | nil => rfl
  | cons x xs ih => simp only [List.map_cons, JsonText.writeItems, JsonText.write,
      JsonText.writeString_joined, ih]

theorem write_strings_joined (depth : Nat) (xs : List Str) :
    JsonText.write style depth (.list ((xs.map JsonText.joined).map .str))
      = JsonText.write style depth (.list (xs.map .str)) := by
  cases xs with
  | nil => rfl
  | cons x xs => simp only [List.map_cons, JsonText.write, JsonText.writeString_joined,
      writeItems_joined]

end

theorem journalText_joined (e : JournalEntry) : journalText e.joined = journalText e := by
  unfold journalText JsonText.dumps
  rw [sortKeys_toJsonDict, sortKeys_toJsonDict]
  unfold JournalEntry.sorted JournalEntry.joined
  simp only [JsonText.write, JsonText.writeEntries, write_optional_joined, write_strings_joined,
    JsonText.writeString_joined]

theorem map_joined_option {s : Option Str} :
    s.map JsonText.joined = s ↔ ∀ x ∈ s.toList, Unpaired x := by
  cases s with
  | none => simp
  | some s => simp [JsonText.joined_eq_self_iff]

theorem map_joined_list {xs : List Str} : xs.map JsonText.joined = xs ↔ ∀ x ∈ xs, Unpaired x := by
  induction xs with
  | nil => simp
  | cons x xs ih =>
      rw [List.map_cons, List.cons.injEq, JsonText.joined_eq_self_iff, ih, List.forall_mem_cons]

theorem joined_eq_iff (e : JournalEntry) : e.joined = e ↔ ∀ s ∈ e.strings, Unpaired s := by
  obtain ⟨operation, phase, startedAt, fromVersion, specifier, extras, pythonVersion, pythonBase,
    toVersion, installer, schemaVersion⟩ := e
  unfold JournalEntry.joined JournalEntry.strings
  simp only [JournalEntry.mk.injEq, JsonText.joined_eq_self_iff, map_joined_option, map_joined_list,
    List.forall_mem_append, List.forall_mem_cons, List.not_mem_nil, false_imp_iff, implies_true,
    and_true]
  tauto

theorem joined_joined (e : JournalEntry) : e.joined.joined = e.joined := by
  have hcomp : JsonText.joined ∘ JsonText.joined = JsonText.joined := by
    funext s
    exact JsonText.joined_eq_self_iff.2 (JsonText.unpaired_joined s)
  have hjoined (s : Str) : JsonText.joined (JsonText.joined s) = JsonText.joined s := congrFun hcomp s
  unfold JournalEntry.joined
  simp only [hjoined, Option.map_map, List.map_map, hcomp]

-- ------------------------------------------------------------------------ reading

theorem readable_optional {s : Option Str} (h : ∀ x ∈ s.toList, Unpaired x) :
    (optional s).Readable := by
  cases s with
  | none => trivial
  | some s => exact h s List.mem_cons_self

def FIELDS : List Str :=
  ["operation", "phase", "started_at", "from_version", "specifier", "extras", "python_version",
    "python_base", "to_version", "installer", "schema_version"].map fun name => ofText name.toList

theorem unpaired_ofText : ∀ s : List Char, Unpaired (ofText s)
  | [] => trivial
  | _ :: s => unpaired_ofText s

variable {e : JournalEntry}

/-- An entry without pairs of surrogates is a value that can be read back. -/
theorem readable_toJsonDict (h : ∀ s ∈ e.strings, Unpaired s)
    (hschema : e.schemaVersion = SCHEMA_VERSION) : (Value.dict e.toJsonDict).Readable := by
  unfold JournalEntry.strings at h
  simp only [List.forall_mem_append, List.forall_mem_cons, List.not_mem_nil, false_imp_iff,
    implies_true, and_true] at h
  obtain ⟨⟨⟨⟨⟨⟨hfixed, hfrom⟩, hspecifier⟩, hextras⟩, hpython⟩, hbase⟩, hto⟩ := h
  obtain ⟨hoperation, hphase, hstarted, hinstaller⟩ := hfixed
  have hstrings : (Value.list (e.extras.map .str)).Readable := by
    refine JsonText.readableItems_iff.2 fun x hx => ?_
    obtain ⟨s, hs, hx⟩ := List.mem_map.1 hx
    rw [← hx]
    exact hextras s hs
  have hversion : (Value.int e.schemaVersion).Readable := by
    rw [hschema]
    show (Nat.toDigits 10 (Int.natAbs 1)).length ≤ JsonText.MAX_STR_DIGITS
    decide
  have hkeys : e.toJsonDict.map (·.1) = FIELDS := rfl
  refine ⟨?_, JsonText.readableEntries_iff.2 ?_⟩
  · show (e.toJsonDict.map (·.1)).Nodup
    rw [hkeys]
    decide
  · have hvalues : ∀ d ∈ e.toJsonDict, d.2.Readable := by
      unfold JournalEntry.toJsonDict
      simp only [List.forall_mem_cons, List.not_mem_nil, false_imp_iff, implies_true, and_true]
      exact ⟨hoperation, hphase, hstarted, readable_optional hfrom, readable_optional hspecifier,
        hstrings, readable_optional hpython, readable_optional hbase, readable_optional hto,
        hinstaller, hversion⟩
    intro d hd
    refine ⟨?_, hvalues d hd⟩
    have hkey : d.1 ∈ FIELDS := hkeys ▸ List.mem_map_of_mem hd
    obtain ⟨name, -, hname⟩ := List.mem_map.1 hkey
    rw [← hname]
    exact unpaired_ofText name.toList

theorem nesting_toJsonDict (e : JournalEntry) : (Value.dict e.toJsonDict).nesting ≤ 2 := by
  have hoptional (s : Option Str) : (optional s).nesting ≤ 1 := by
    cases s with
    | none => exact Nat.zero_le 1
    | some s => exact Nat.zero_le 1
  have hstrings : (Value.list (e.extras.map .str)).nesting ≤ 1 := by
    refine Nat.succ_le_succ (JsonText.nestingItems_le_iff.2 fun x hx => ?_)
    obtain ⟨s, -, hx⟩ := List.mem_map.1 hx
    rw [← hx]
    exact Nat.le_refl 0
  refine Nat.succ_le_succ (JsonText.nestingEntries_le_iff.2 ?_)
  unfold JournalEntry.toJsonDict
  simp only [List.forall_mem_cons, List.not_mem_nil, false_imp_iff, implies_true, and_true]
  exact ⟨Nat.zero_le 1, Nat.zero_le 1, Nat.zero_le 1, hoptional _, hoptional _, hstrings,
    hoptional _, hoptional _, hoptional _, Nat.zero_le 1, Nat.zero_le 1⟩

section

variable {isOne : List Char → Bool} {limit : Nat}

theorem indented_gap (n : Nat) : ∀ depth, ∀ c ∈ (JsonText.indented n).gap depth,
    JsonText.isWhite c = true := by
  intro depth c hc
  rcases List.mem_cons.1 hc with heq | hmem
  · rw [heq]
    rfl
  · rw [List.eq_of_mem_replicate hmem]
    rfl

theorem loads_journalText (hlimit : 2 ≤ limit) (hschema : e.schemaVersion = SCHEMA_VERSION) :
    JsonText.loads limit (Text.universalNewlines (journalText e))
      = .ok (.dict e.joined.sorted) := by
  have hunpaired : ∀ s ∈ e.joined.strings, Unpaired s := (joined_eq_iff e.joined).1 (joined_joined e)
  have hreadable := readable_toJsonDict hunpaired hschema
  have hnesting := Nat.le_trans (nesting_toJsonDict e.joined) hlimit
  have hcolon : ∀ c ∈ (JsonText.indented 2).colon, JsonText.isWhite c = true := fun c hc => by
    rw [List.mem_singleton.1 hc]
    rfl
  have htail : ∀ c ∈ ['\n'], JsonText.isWhite c = true := fun c hc => by
    rw [List.mem_singleton.1 hc]
    rfl
  have hreturn : '\r' ∉ journalText e.joined := by
    intro hmem
    rcases List.mem_append.1 hmem with hmem | hmem
    · refine JsonText.return_not_mem_write ?_ (by decide) (JsonText.readable_sortKeys hreadable) 0 hmem
      intro depth hgap
      rcases List.mem_cons.1 hgap with hnewline | hblank
      · cases hnewline
      · cases List.eq_of_mem_replicate hblank
    · cases List.mem_singleton.1 hmem
  rw [← journalText_joined, Text.universalNewlines_eq_self hreturn]
  rw [← sortKeys_toJsonDict e.joined]
  exact JsonText.loads_dumps (indented_gap 2) hcolon hreadable hnesting htail

theorem strings_map (xs : List Str) : strings (xs.map .str) = some xs := by
  induction xs with
  | nil => rfl
  | cons x xs ih => rw [List.map_cons, strings, ih, Option.map_some]

theorem strOrNone_optional (s : Option Str) : strOrNone (some (optional s)) = .ok s := by
  cases s with
  | none => rfl
  | some s => rfl

theorem oneOf_str {names : List Str} {s : Str} (h : s ∈ names) :
    oneOf names (some (.str s)) = some s := if_pos h

theorem readValue_sorted (hoperation : e.operation ∈ OPERATIONS)
    (hphase : e.phase ∈ PHASES) (hschema : e.schemaVersion = SCHEMA_VERSION) :
    readValue isOne (.dict e.sorted) = { state := .ok, entry := some e } := by
  have hextras : Assoc.get? e.sorted (key "extras") = some (.list (e.extras.map .str)) := rfl
  have hget : Assoc.get? e.sorted (key "operation") = some (.str e.operation) ∧
      Assoc.get? e.sorted (key "phase") = some (.str e.phase) ∧
      Assoc.get? e.sorted (key "started_at") = some (.str e.startedAt) ∧
      Assoc.get? e.sorted (key "installer") = some (.str e.installer) := ⟨rfl, rfl, rfl, rfl⟩
  have hoptional : Assoc.get? e.sorted (key "from_version") = some (optional e.fromVersion) ∧
      Assoc.get? e.sorted (key "specifier") = some (optional e.specifier) ∧
      Assoc.get? e.sorted (key "python_version") = some (optional e.pythonVersion) ∧
      Assoc.get? e.sorted (key "python_base") = some (optional e.pythonBase) ∧
      Assoc.get? e.sorted (key "to_version") = some (optional e.toVersion) :=
    ⟨rfl, rfl, rfl, rfl, rfl⟩
  obtain ⟨hget1, hget2, hget3, hget4⟩ := hget
  obtain ⟨hopt1, hopt2, hopt3, hopt4, hopt5⟩ := hoptional
  have hentry : readEntry e.sorted = .ok e := by
    unfold readEntry
    rw [hextras, hget1, hget2, hget3, hget4, hopt1, hopt2, hopt3, hopt4, hopt5]
    simp only [strings_map, oneOf_str hoperation, oneOf_str hphase, strOrNone_optional,
      Option.getD_some]
    rw [← hschema]
    rfl
  have hversion : isSchema isOne (Assoc.get? e.sorted (key "schema_version")) = true := by
    show (e.schemaVersion == SCHEMA_VERSION) = true
    rw [hschema]
    rfl
  have hmissing : (required.filter fun name => (Assoc.get? e.sorted (key name)).isNone) = [] := rfl
  simp only [readValue, hversion, hmissing, hentry]
  rfl

theorem newEntry_ok {operation : Str} {report : OwnershipReport} {pythonVersion stamp : Str}
    {toVersion : Option Str} (h : newEntry operation report pythonVersion toVersion stamp = .ok e) :
    e.operation ∈ OPERATIONS ∧ e.phase = key "planned" ∧ e.schemaVersion = SCHEMA_VERSION := by
  unfold newEntry at h
  split at h
  next => cases h
  next hoperation =>
    split at h
    next => cases h
    next =>
      cases h
      exact ⟨not_not.1 hoperation, rfl, rfl⟩

/-- A new entry is read back as it was if and only if it is small enough and
has no pair of surrogates. -/
theorem reads_back_iff (hlimit : 2 ≤ limit) {operation : Str} {report : OwnershipReport}
    {pythonVersion stamp : Str} {toVersion : Option Str}
    (h : newEntry operation report pythonVersion toVersion stamp = .ok e) :
    readJournal isOne limit (.file (journalBytes e)) = .ok { state := .ok, entry := some e }
      ↔ (journalBytes e).length ≤ MAX_JOURNAL_BYTES ∧ ∀ s ∈ e.strings, Unpaired s := by
  obtain ⟨hoperation, hphase, hschema⟩ := newEntry_ok h
  have hknown : JsonText.joined e.operation = e.operation ∧ JsonText.joined e.phase = e.phase := by
    rw [JsonText.joined_eq_self_iff, JsonText.joined_eq_self_iff, hphase]
    obtain ⟨name, -, hname⟩ := List.mem_map.1 hoperation
    rw [← hname]
    exact ⟨unpaired_ofText _, unpaired_ofText _⟩
  have hread : (journalBytes e).length ≤ MAX_JOURNAL_BYTES →
      readJournal isOne limit (.file (journalBytes e))
        = .ok { state := .ok, entry := some e.joined } := by
    intro hsize
    have hfields : readValue isOne (.dict e.joined.sorted)
        = { state := .ok, entry := some e.joined } := by
      refine readValue_sorted ?_ ?_ hschema
      · show JsonText.joined e.operation ∈ OPERATIONS
        rw [hknown.1]
        exact hoperation
      · show JsonText.joined e.phase ∈ PHASES
        rw [hknown.2, hphase]
        decide
    unfold readJournal
    simp only [if_neg (Nat.not_lt.2 hsize)]
    unfold journalBytes
    rw [Codec.utf8_decode_encode]
    simp only [loads_journalText hlimit hschema, hfields]
  rw [← joined_eq_iff]
  by_cases hsize : (journalBytes e).length ≤ MAX_JOURNAL_BYTES
  · rw [hread hsize]
    simp [hsize]
  · refine iff_of_false (fun hsame => ?_) fun hboth => hsize hboth.1
    unfold readJournal at hsame
    simp only [if_pos (Nat.not_le.1 hsize)] at hsame
    cases hsame

/-- The text of a file is nested too deep for `json.loads`. -/
def TooDeep (limit : Nat) (found : AtPath) : Prop :=
  ∃ bytes text, found = .file bytes ∧ bytes.length ≤ MAX_JOURNAL_BYTES ∧
    Codec.utf8.decode bytes = some text ∧
    JsonText.loads limit (Text.universalNewlines text) = .error .recursion

/-- `read_journal` comes back with one of its states unless the text is
nested too deep. -/
theorem readJournal_isOk_iff (found : AtPath) :
    (∃ r, readJournal isOne limit found = .ok r) ↔ ¬TooDeep limit found := by
  cases found with
  | missing => exact iff_of_true ⟨_, rfl⟩ fun h => by cases h.choose_spec.choose_spec.1
  | irregular => exact iff_of_true ⟨_, rfl⟩ fun h => by cases h.choose_spec.choose_spec.1
  | unreadable => exact iff_of_true ⟨_, rfl⟩ fun h => by cases h.choose_spec.choose_spec.1
  | file bytes =>
      unfold readJournal TooDeep
      by_cases hsize : MAX_JOURNAL_BYTES < bytes.length
      · simp only [if_pos hsize]
        refine iff_of_true ⟨_, rfl⟩ fun h => ?_
        obtain ⟨bytes', text, heq, hle, -⟩ := h
        cases heq
        exact absurd hsize (Nat.not_lt.2 hle)
      · simp only [if_neg hsize]
        cases hdecode : Codec.utf8.decode bytes with
        | none =>
            refine iff_of_true ⟨_, rfl⟩ fun h => ?_
            obtain ⟨bytes', text, heq, -, htext, -⟩ := h
            cases heq
            rw [hdecode] at htext
            cases htext
        | some text =>
            simp only
            constructor
            · intro hex hdeep
              obtain ⟨bytes', text', heq, -, htext, hloads⟩ := hdeep
              cases heq
              rw [hdecode] at htext
              cases htext
              rw [hloads] at hex
              obtain ⟨r, hr⟩ := hex
              cases hr
            · intro hnot
              cases hloads : JsonText.loads limit (Text.universalNewlines text) with
              | ok value => exact ⟨_, rfl⟩
              | error error =>
                  cases error with
                  | value => exact ⟨_, rfl⟩
                  | recursion =>
                      exact absurd ⟨bytes, text, rfl, Nat.not_lt.1 hsize, hdecode, hloads⟩ hnot

/-- A journal is never overwritten in exactly the runs without a replace over
a file, is read back exactly if it is small and has no pair of surrogates,
and its reader comes back unless a text is nested too deep. -/
theorem journal_holds_iff (isWord : Char → Bool) (env : PyStr → Option RawStr) (hlimit : 2 ≤ limit) :
    (∀ before acts s t, Begun before s → run (step isWord env) acts s = some t →
      (Meets (step isWord env) (fun _ s => Kept before s) acts s ∧ Kept before t
        ↔ Meets (step isWord env) Alone acts s)) ∧
    (∀ operation report pythonVersion toVersion stamp e,
      newEntry operation report pythonVersion toVersion stamp = .ok e →
      refuseIfSecret isWord env e.toJsonDict = none →
      (readJournal isOne limit (.file (journalBytes e)) = .ok { state := .ok, entry := some e }
        ↔ (journalBytes e).length ≤ MAX_JOURNAL_BYTES ∧ ∀ s ∈ e.strings, Unpaired s)) ∧
    ∀ found, (∃ r, readJournal isOne limit found = .ok r) ↔ ¬TooDeep limit found :=
  ⟨fun _ _ _ _ hbegun hrun => kept_iff hbegun hrun,
    fun _ _ _ _ _ _ hnew _ => reads_back_iff hlimit hnew, readJournal_isOk_iff⟩

end

-- ===== two calls

instance (a : Nat × Act) (s : Sys) : Decidable (Alone a s) :=
  inferInstanceAs (Decidable (a.2 = .replace → s.target = .missing))

def isWordChar (c : Char) : Bool := Text.isAlnum c || c == '_'

/-- What `new_entry` makes for a plain installation. -/
def entryOf (operation : String) : JournalEntry where
  operation := key operation
  phase := key "planned"
  startedAt := key "2026-01-02T03:04:05Z"
  fromVersion := some (key "0.9.9")
  specifier := none
  pythonVersion := some (key "3.12.4")

def twoCalls : Sys where
  target := .missing
  calls i := { entry := entryOf (if i = 0 then "update" else "repair") }

def inTurn : List (Nat × Act) :=
  [(0, .look), (0, .prepare), (0, .lookAgain), (0, .replace), (0, .finish), (1, .look)]

def atOnce : List (Nat × Act) :=
  [(0, .look), (0, .prepare), (1, .look), (1, .prepare), (0, .lookAgain), (1, .lookAgain),
    (0, .replace), (0, .finish), (1, .replace), (1, .finish)]

theorem twoCalls_begun : Begun .missing twoCalls := ⟨rfl, fun _ => ⟨rfl, rfl⟩⟩

theorem journal_holds_iff_inTurn :
    (∃ t, run (step isWordChar fun _ => none) inTurn twoCalls = some t ∧ Kept .missing t) ∧
    readJournal (fun _ => false) 1000 (.file (journalBytes (entryOf "update")))
      = .ok { state := .ok, entry := some (entryOf "update") } ∧
    ∃ r, readJournal (fun _ => false) 1000 .irregular = .ok r := by
  have hlimit : 2 ≤ 1000 := by decide
  have hholds := @journal_holds_iff (fun _ => false) 1000 isWordChar (fun _ => none) hlimit
  refine ⟨⟨_, rfl, ?_⟩, ?_, ?_⟩
  · exact ((hholds.1 .missing inTurn twoCalls _ twoCalls_begun rfl).2 (by decide +kernel)).2
  · refine (hholds.2.1 (key "update") ⟨.uvTool, some (key "0.9.9"), none, [], none⟩ (key "3.12.4")
      none (key "2026-01-02T03:04:05Z") (entryOf "update") (by decide +kernel)
      (by decide +kernel)).2 ⟨by decide +kernel, ?_⟩
    intro s hs
    have hof : ∃ name : String, s = ofText name.toList := by
      unfold JournalEntry.strings entryOf at hs
      simp only [Option.toList, List.cons_append, List.nil_append, List.append_nil, List.mem_cons,
        List.not_mem_nil, or_false] at hs
      rcases hs with heq | heq | heq | heq | heq | heq
      · exact ⟨_, heq⟩
      · exact ⟨_, heq⟩
      · exact ⟨_, heq⟩
      · exact ⟨_, heq⟩
      · exact ⟨_, heq⟩
      · exact ⟨_, heq⟩
    obtain ⟨name, hname⟩ := hof
    rw [hname]
    exact unpaired_ofText _
  · refine (hholds.2.2 .irregular).2 fun hdeep => ?_
    obtain ⟨bytes, text, heq, -⟩ := hdeep
    cases heq

/-- Two calls that look again before either replaces both return, and the
second's entry is put over the first's. -/
theorem not_kept_atOnce : ∃ t, run (step isWordChar fun _ => none) atOnce twoCalls = some t ∧
    (t.calls 0).stage = .returned ∧ (t.calls 1).stage = .returned ∧
    t.target = .file (journalBytes (entryOf "repair")) ∧ ¬Kept .missing t := by
  refine ⟨_, rfl, rfl, rfl, rfl, fun hkept => ?_⟩
  exact absurd (hkept.one 0 1 rfl rfl) (by decide)

end Velune.Lifecycle
