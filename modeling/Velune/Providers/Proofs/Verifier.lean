/-
When a verdict is about the key it is written to.

A run writes its verdict to whatever record there is by then. The record
still has the key that was validated while nobody saves another
(`Held.key`), and a change that only notes a failure leaves the state of
the record it was read from (`notes_state`). So the verdicts of a run are
about its key, and its other changes leave the state, while no save and no
verdict comes in between (`verdicts_apply`).
-/
import Velune.Lib.Tables
import Velune.Providers.Verifier

namespace Velune.Providers

open Lib

-- ===== records

section Records

variable {record : Record} {change : StatusChange} {now : PyStr}

theorem update_get? : ∀ (extra record : Record) (name : PyStr),
    (Record.update record extra).get? name = (latest extra name).or (record.get? name)
  | [], _, _ => rfl
  | (field, value) :: rest, record, name => by
      change (Record.update (Assoc.set record field value) rest).get? name = _
      rw [update_get? rest]
      change _ = ((latest rest name).or (if field = name then some value else none)).or _
      rw [Option.or_assoc]
      congr 1
      by_cases hname : field = name
      · rw [if_pos hname, ← hname, Assoc.get?_set_self]
        rfl
      · rw [if_neg hname, Assoc.get?_set_of_ne _ _ fun h => hname h.symm]
        rfl

theorem get?_eq_none {κ ν : Type} [DecidableEq κ] : ∀ {entries : Assoc κ ν} {key : κ},
    entries.get? key = none → key ∉ entries.map (·.1)
  | [], _, _ => List.not_mem_nil
  | (k, v) :: rest, key, h => by
      unfold Assoc.get? at h
      split at h
      · cases h
      · rename_i hk
        rw [List.map_cons, List.mem_cons, not_or]
        exact ⟨fun heq => hk heq.symm, get?_eq_none h⟩

theorem on_get? (name : PyStr) : (change.on now record).get? name
    = (latest change.extra name).or
      (if name = "last_verified".toList ∧ change.status = STATUS_VERIFIED then some (.str now)
        else if name = "last_error".toList then none
        else if name = "status".toList then some (.str change.status)
        else record.get? name) := by
  unfold StatusChange.on updatedRecord
  rw [update_get?]
  congr 1
  have hplain : (Assoc.pop (Assoc.set record "status".toList (.str change.status))
        "last_error".toList).get? name
      = if name = "last_error".toList then none
        else if name = "status".toList then some (.str change.status) else record.get? name := by
    by_cases herror : name = "last_error".toList
    · rw [if_pos herror, herror, Assoc.get?_pop_self]
    · rw [if_neg herror, Assoc.get?_pop_of_ne _ herror]
      by_cases hstatus : name = "status".toList
      · rw [if_pos hstatus, hstatus, Assoc.get?_set_self]
      · rw [if_neg hstatus, Assoc.get?_set_of_ne _ _ hstatus]
  by_cases hverified : change.status = STATUS_VERIFIED
  · rw [if_pos hverified]
    by_cases hstamp : name = "last_verified".toList
    · rw [if_pos ⟨hstamp, hverified⟩, hstamp, Assoc.get?_set_self]
    · rw [if_neg fun h => hstamp h.1, Assoc.get?_set_of_ne _ _ hstamp]
      exact hplain
  · rw [if_neg hverified, if_neg fun h => hverified h.2]
    exact hplain

theorem on_key (hkey : latest change.extra "key".toList = none) :
    (change.on now record).get? "key".toList = record.get? "key".toList := by
  rw [on_get?, hkey]
  rfl

-- ===== notes

/-- A change that notes something of a record: it keeps the status, and of
a verified one the date, which it has. -/
structure StatusChange.Notes (change : StatusChange) (record : Record) : Prop where
  status : noteStatus record = change.status
  field : latest change.extra "status".toList = none
  dated : change.status = STATUS_VERIFIED → ∃ stamp, stamp.truthy = true
    ∧ record.get? "last_verified".toList = some stamp
    ∧ latest change.extra "last_verified".toList = some stamp
  undated : change.status ≠ STATUS_VERIFIED → latest change.extra "last_verified".toList = none

theorem legacyStatus_cases (status : PyStr) : status = "valid".toList ∨ status = "imported".toList
    ∨ status = "unknown".toList ∨ legacyStatus status = status := by
  by_cases hvalid : status = "valid".toList
  · exact Or.inl hvalid
  · by_cases hother : status = "imported".toList ∨ status = "unknown".toList
    · exact Or.inr (hother.imp_right Or.inl)
    · refine Or.inr (Or.inr (Or.inr ?_))
      unfold legacyStatus
      rw [if_neg hvalid, if_neg hother]

theorem legacyStatus_idem (status : PyStr) :
    legacyStatus (legacyStatus status) = legacyStatus status := by
  rcases legacyStatus_cases status with rfl | rfl | rfl | h
  · rfl
  · rfl
  · rfl
  · rw [h, h]

/-- Reading a status before its letters are made small changes nothing. -/
theorem legacyStatus_lower (status : PyStr) :
    legacyStatus ((legacyStatus status).map Char.toLower) = legacyStatus (status.map Char.toLower) := by
  rcases legacyStatus_cases status with rfl | rfl | rfl | h
  · rfl
  · rfl
  · rfl
  · rw [h]

theorem StatusChange.Notes.on_status (h : change.Notes record) :
    (change.on now record).get? "status".toList = some (.str change.status) := by
  rw [on_get?, h.field]
  rfl

theorem StatusChange.Notes.on_stamp (h : change.Notes record) :
    (change.on now record).get? "last_verified".toList = record.get? "last_verified".toList := by
  rw [on_get?]
  by_cases hverified : change.status = STATUS_VERIFIED
  · obtain ⟨stamp, -, hstamp, hextra⟩ := h.dated hverified
    rw [hextra, hstamp]
    rfl
  · rw [h.undated hverified, if_neg fun h => hverified h.2]
    rfl

theorem status_class (record : Record) :
    legacyStatus ((noteStatus record).map Char.toLower)
      = legacyStatus ((statusText record STATUS_UNVERIFIED).map Char.toLower) :=
  legacyStatus_lower _

theorem notes_state (h : change.Notes record) (young : PyStr → Bool) :
    storedState young (change.on now record) = storedState young record := by
  unfold storedState
  rw [h.on_stamp]
  have hafter : statusText (change.on now record) [] = change.status := by
    unfold statusText
    rw [h.on_status]
    rfl
  rw [hafter, ← h.status, status_class]
  unfold statusText
  cases record.get? "status".toList with
  | some status => rfl
  | none => rfl

theorem StatusChange.Notes.again {other : StatusChange} (h : change.Notes record) (hother : other.Notes record) :
    change.Notes (other.on now record) where
  status := by
    unfold noteStatus statusText
    rw [hother.on_status]
    change legacyStatus other.status = change.status
    rw [← hother.status, ← h.status]
    exact legacyStatus_idem _
  field := h.field
  dated hverified := by
    rw [hother.on_stamp]
    exact h.dated hverified
  undated := h.undated

theorem keptField_other {name field : String} (h : name.toList ≠ field.toList) :
    latest (keptField record name) field.toList = none := by
  unfold keptField
  split
  · split
    · exact if_neg h
    · rfl
  · rfl

theorem keptField_self {name : String} {value : Value} (hvalue : record.get? name.toList = some value)
    (htruthy : value.truthy = true) : latest (keptField record name) name.toList = some value := by
  unfold keptField
  rw [hvalue]
  dsimp only
  rw [if_pos htruthy]
  exact if_pos rfl

/-- What `note_check_failure` passes on keeps the date of a verified
record, and the error of an invalid one. -/
theorem note_extra {reason : PyStr} (field : String)
    (hfirst : "last_check_error".toList ≠ field.toList) (hsecond : "last_checked".toList ≠ field.toList) :
    latest (noteCheckFailure record reason now).extra field.toList
      = (latest (if noteStatus record = STATUS_INVALID then keptField record "last_error" else [])
          field.toList).or
        (latest (if noteStatus record = STATUS_VERIFIED then keptField record "last_verified" else [])
          field.toList) := by
  have hnone : latest [("last_check_error".toList, Value.str (reason.take 200)),
      ("last_checked".toList, .str now)] field.toList = none := by
    refine latest_eq_none.2 fun hmem => ?_
    rcases List.mem_cons.1 hmem with h | h
    · exact hfirst h.symm
    · exact hsecond (List.mem_singleton.1 h).symm
  unfold noteCheckFailure
  dsimp only
  rw [latest_append, latest_append, hnone, Option.or_none]

theorem note_extra_other {reason : PyStr} (field : String)
    (hfirst : "last_check_error".toList ≠ field.toList) (hsecond : "last_checked".toList ≠ field.toList)
    (herror : "last_error".toList ≠ field.toList) (hstamp : "last_verified".toList ≠ field.toList) :
    latest (noteCheckFailure record reason now).extra field.toList = none := by
  rw [note_extra field hfirst hsecond]
  have hskip : ∀ (c : Prop) [Decidable c] (name : String), name.toList ≠ field.toList →
      latest (if c then keptField record name else []) field.toList = none := by
    intro c _ name hne
    split
    · exact keptField_other hne
    · rfl
  rw [hskip _ _ herror, hskip _ _ hstamp]
  rfl

/-- What `note_check_failure` passes on is a note of the record it read,
and of any with its status and its date. -/
theorem noteCheckFailure_notes {read : Record} {reason : PyStr}
    (hstatus : noteStatus record = noteStatus read)
    (hstamp : record.get? "last_verified".toList = read.get? "last_verified".toList)
    (hdated : noteStatus read = STATUS_VERIFIED →
      (read.get? "last_verified".toList).any Value.truthy = true) :
    (noteCheckFailure read reason now).Notes record where
  status := hstatus
  field := note_extra_other "status" (by decide) (by decide) (by decide) (by decide)
  dated hverified := by
    have hread : noteStatus read = STATUS_VERIFIED := hverified
    have hany := hdated hread
    cases hvalue : read.get? "last_verified".toList with
    | none =>
        rw [hvalue] at hany
        cases hany
    | some stamp =>
        rw [hvalue] at hany
        refine ⟨stamp, hany, hstamp.trans hvalue, ?_⟩
        rw [note_extra "last_verified" (by decide) (by decide), hread, if_neg (by decide), if_pos rfl,
          keptField_self hvalue hany]
        rfl
  undated hnot := by
    have hread : noteStatus read ≠ STATUS_VERIFIED := hnot
    rw [note_extra "last_verified" (by decide) (by decide), if_neg hread]
    split
    · rw [keptField_other (by decide)]
      rfl
    · rfl

end Records

-- ===== condition

def RunPhase.change? : RunPhase → Option StatusChange
  | .updating change => some change
  | .committing change => some change
  | _ => none

/-- A run is about to note something of a record that it has read. -/
def Verification.Noted (run : Verification) : Prop :=
  ∃ change, run.phase.change? = some change ∧ change.verdict = false

def Environ.Prefers (env : Environ) (providerId : PyStr) : Prop :=
  env.prefer = true ∧ (env.key providerId).isSome = true

def StoreState.KeyIs (s : StoreState) (providerId : PyStr) (key : Value) : Prop :=
  ∀ record, s.table.get? providerId = some record → record.get? "key".toList = some key

def StoreState.NoneNoted (s : StoreState) (providerId : PyStr) : Prop :=
  ∀ n run, s.runs.get? n = some run → run.providerId = providerId → ¬ run.Noted

/-- The events that leave a verdict with its key: a run reads the key that
is stored, nobody saves another while it waits, and what is noted of a
record is of the record as it is, which is not a verified one without a
date, until it is written. -/
def Apart (env : Nat → Environ) : Event → StoreState → Prop
  | .start _ process providerId look, s => (env process).Prefers providerId
      ∨ s.KeyIs providerId ((env process).keyOrEmpty ((s.look process look).view process) providerId)
  | .note n look _, s => ∀ run read, s.runs.get? n = some run →
      ((s.look run.process look).view run.process).get? run.providerId = some read →
      (noteStatus read = STATUS_VERIFIED →
        (read.get? "last_verified".toList).any Value.truthy = true)
      ∧ ∀ record, s.table.get? run.providerId = some record → noteStatus record = noteStatus read
        ∧ record.get? "last_verified".toList = read.get? "last_verified".toList
  | .commit n _, s => ∀ run change, s.runs.get? n = some run →
      run.phase.change? = some change → change.verdict = true → s.NoneNoted run.providerId
  | .save _ providerId key _ _, s => s.NoneNoted providerId ∧ ∀ n run, s.runs.get? n = some run →
      run.providerId = providerId → run.key = .str key
  | .update _ providerId _ _ _ _, s => s.NoneNoted providerId
  | _, _ => True

structure Held (env : Nat → Environ) (s : StoreState) (run : Verification) : Prop where
  key : run.phase = .validating ∧ (env run.process).Prefers run.providerId
    ∨ s.KeyIs run.providerId run.key
  keyless : ∀ change, run.phase.change? = some change → latest change.extra "key".toList = none
  notes : ∀ change, run.phase.change? = some change → change.verdict = false →
    ∀ record, s.table.get? run.providerId = some record → change.Notes record

def AllHeld (env : Nat → Environ) (s : StoreState) : Prop :=
  ∀ n run, s.runs.get? n = some run → Held env s run

-- ===== steps

section Steps

variable {env : Nat → Environ} {s s' : StoreState} {n process : Nat} {providerId : PyStr}
variable {run : Verification} {look : Look} {phase : RunPhase} {mutate : Table → Table}

@[simp] theorem look_table : (s.look process look).table = s.table := by
  cases look with
  | cached =>
      unfold StoreState.look
      dsimp only
      split <;> rfl
  | loads => rfl
  | fails => rfl

@[simp] theorem look_runs : (s.look process look).runs = s.runs := by
  cases look with
  | cached =>
      unfold StoreState.look
      dsimp only
      split <;> rfl
  | loads => rfl
  | fails => rfl

theorem Held.same (h : Held env s run)
    (htable : s'.table.get? run.providerId = s.table.get? run.providerId) : Held env s' run where
  key := h.key.imp_right fun hkey record hrecord => hkey record (htable.symm.trans hrecord)
  keyless := h.keyless
  notes change hchange hnote record hrecord :=
    h.notes change hchange hnote record (htable.symm.trans hrecord)

theorem AllHeld.others (h : AllHeld env s) (htable : s'.table = s.table)
    (hrun : ∀ run, s'.runs.get? n = some run → Held env s' run)
    (hothers : ∀ m, m ≠ n → s'.runs.get? m = s.runs.get? m) : AllHeld env s' := by
  intro m run hm
  by_cases hmn : m = n
  · subst hmn
    exact hrun run hm
  · rw [hothers m hmn] at hm
    exact (h m run hm).same (by rw [htable])

theorem AllHeld.drop (h : AllHeld env s) (n : Nat) : AllHeld env (s.drop n) := by
  refine h.others (n := n) rfl (fun run hrun => ?_) fun m hm => Assoc.get?_pop_of_ne _ hm
  change (s.runs.pop n).get? n = some run at hrun
  rw [Assoc.get?_pop_self] at hrun
  cases hrun

theorem AllHeld.looks (h : AllHeld env s) (process : Nat) (look : Look) :
    AllHeld env (s.look process look) := by
  intro m run hm
  rw [look_runs] at hm
  exact (h m run hm).same (by rw [look_table])

theorem AllHeld.go (h : AllHeld env s) (n : Nat) (run : Verification) (phase : RunPhase)
    (hheld : Held env s { run with phase := phase }) : AllHeld env (s.go n run phase) := by
  refine h.others (n := n) rfl (fun other hother => ?_) fun m hm => Assoc.get?_set_of_ne _ _ hm
  change (s.runs.set n { run with phase := phase }).get? n = some other at hother
  rw [Assoc.get?_set_self] at hother
  cases hother
  exact hheld.same rfl

theorem AllHeld.commit (h : AllHeld env s) (providerId : PyStr)
    (hother : ∀ other, other ≠ providerId → (mutate s.table).get? other = s.table.get? other)
    (hsame : ∀ n run, s.runs.get? n = some run → run.providerId = providerId →
      Held env (s.commit process mutate) run) : AllHeld env (s.commit process mutate) := by
  intro n run hn
  change s.runs.get? n = some run at hn
  by_cases hid : run.providerId = providerId
  · exact hsame n run hn hid
  · exact (h n run hn).same (hother run.providerId hid)

theorem applyStatus_get? (change : StatusChange) (now : PyStr) (table : Table) (other : PyStr) :
    (applyStatus providerId change.status now change.extra table).get? other
      = if other = providerId then (table.get? providerId).map (change.on now) else table.get? other := by
  unfold applyStatus
  cases hrecord : table.get? providerId with
  | none =>
      dsimp only
      split
      · rename_i hother
        rw [hother]
        exact hrecord
      · rfl
  | some record =>
      dsimp only
      split
      · rename_i hother
        rw [hother, Assoc.get?_set_self]
        rfl
      · rename_i hother
        exact Assoc.get?_set_of_ne _ _ hother

/-- A status change leaves every run with its key, and with what it is
about to note where it is itself a note. -/
theorem held_status (change : StatusChange) {now : PyStr} (h : Held env s run)
    (hkeyless : latest change.extra "key".toList = none)
    (hnotes : run.Noted → ∀ record, s.table.get? run.providerId = some record → change.Notes record) :
    Held env (s.commit process (applyStatus run.providerId change.status now change.extra)) run := by
  have hrecord : ∀ record,
      (s.commit process (applyStatus run.providerId change.status now change.extra)).table.get?
        run.providerId = some record →
      ∃ before, s.table.get? run.providerId = some before ∧ change.on now before = record := by
    intro record hrecord
    change (applyStatus run.providerId change.status now change.extra s.table).get? run.providerId
      = some record at hrecord
    rw [applyStatus_get?, if_pos rfl] at hrecord
    exact Option.map_eq_some_iff.1 hrecord
  refine ⟨h.key.imp_right fun hkey record hafter => ?_, h.keyless,
    fun other hother hnote record hafter => ?_⟩
  · obtain ⟨before, hbefore, rfl⟩ := hrecord record hafter
    rw [on_key hkeyless]
    exact hkey before hbefore
  · obtain ⟨before, hbefore, rfl⟩ := hrecord record hafter
    exact (h.notes other hother hnote before hbefore).again
      (hnotes ⟨other, hother, hnote⟩ before hbefore)

theorem not_prefers {table : Table} {environ : Environ}
    (hsource : environ.keySource table providerId = .stored) : ¬ environ.Prefers providerId := by
  rintro ⟨hprefer, henv⟩
  unfold Environ.keySource at hsource
  dsimp only at hsource
  rw [henv, hprefer, Bool.true_or, Bool.true_and, if_pos rfl] at hsource
  cases hsource

theorem settle_change {result : ValidationResult} {now : PyStr} {change : StatusChange}
    (h : (settle result now).change? = some change) :
    latest change.extra "key".toList = none ∧ change.verdict = true := by
  unfold settle at h
  split at h
  · cases h
    exact ⟨rfl, rfl⟩
  · split at h
    · cases h
      exact ⟨rfl, rfl⟩
    · cases h

theorem step_held {event : Event} (hapart : Apart env event s) (h : AllHeld env s)
    (hstep : storeStep env event s = some s') : AllHeld env s' := by
  cases event with
  | start n process providerId look =>
      simp only [storeStep] at hstep
      split at hstep
      · cases hstep
        have hlooks := h.looks process look
        refine hlooks.others (n := n) rfl (fun run hrun => ?_) fun m hm => Assoc.get?_set_of_ne _ _ hm
        change ((s.look process look).runs.set n _).get? n = some run at hrun
        rw [Assoc.get?_set_self] at hrun
        cases hrun
        refine ⟨hapart.imp (fun hprefers => ⟨rfl, hprefers⟩) fun hkey => ?_,
          fun _ hchange => (by cases hchange), fun _ hchange => (by cases hchange)⟩
        intro record hrecord
        change (s.look process look).table.get? providerId = some record at hrecord
        rw [look_table] at hrecord
        exact hkey record hrecord
      · cases hstep
  | resume n result look now =>
      simp only [storeStep] at hstep
      split at hstep
      · rename_i process providerId key hrun
        cases hstep
        have hlooks := h.looks process look
        have hheld := hlooks n _ ((congrArg (Assoc.get? · n) look_runs).trans hrun)
        split
        · rename_i hsource
          refine hlooks.go n _ _ ⟨Or.inr ?_, fun change hchange => (settle_change hchange).1,
            fun change hchange hnote => ?_⟩
          · exact hheld.key.resolve_left fun hprefers => not_prefers hsource hprefers.2
          · rw [(settle_change hchange).2] at hnote
            cases hnote
        · exact hlooks.drop n
      · cases hstep
  | note n look now =>
      simp only [storeStep] at hstep
      split at hstep
      · rename_i process providerId key reason hrun
        have hlooks := h.looks process look
        have hheld := hlooks n _ ((congrArg (Assoc.get? · n) look_runs).trans hrun)
        split at hstep
        · cases hstep
          exact hlooks.drop n
        · rename_i read hread
          cases hstep
          obtain ⟨hdated, hsame⟩ := hapart _ read hrun hread
          refine hlooks.go n _ _ ⟨Or.inr ?_, fun change hchange => ?_, fun change hchange _ record hrecord => ?_⟩
          · exact hheld.key.resolve_left fun hprefers => by cases hprefers.1
          · cases hchange
            exact note_extra_other "key" (by decide) (by decide) (by decide) (by decide)
          · cases hchange
            rw [look_table] at hrecord
            obtain ⟨hstatus, hstamp⟩ := hsame record hrecord
            exact noteCheckFailure_notes hstatus hstamp hdated
      · cases hstep
  | check n look =>
      simp only [storeStep] at hstep
      split at hstep
      · rename_i process providerId key change hrun
        cases hstep
        have hlooks := h.looks process look
        have hheld := hlooks n _ ((congrArg (Assoc.get? · n) look_runs).trans hrun)
        split
        · exact hlooks.go n _ _ ⟨Or.inr (hheld.key.resolve_left fun hprefers => by cases hprefers.1),
            hheld.keyless, hheld.notes⟩
        · exact hlooks.drop n
      · cases hstep
  | commit n now =>
      simp only [storeStep] at hstep
      split at hstep
      · rename_i process providerId key change hrun
        cases hstep
        have hheld := h n _ hrun
        have hdrop := h.drop n
        refine hdrop.commit providerId (fun other hother => ?_) fun m run hm hid => ?_
        · rw [applyStatus_get?, if_neg hother]
        · subst hid
          refine held_status change (hdrop m run hm) (hheld.keyless change rfl) fun hnoted record hrecord => ?_
          refine hheld.notes change rfl ?_ record hrecord
          cases hverdict : change.verdict with
          | false => rfl
          | true =>
              have hm' : s.runs.get? m = some run := by
                by_cases hmn : m = n
                · subst hmn
                  change (s.runs.pop m).get? m = some run at hm
                  rw [Assoc.get?_pop_self] at hm
                  cases hm
                · rw [← Assoc.get?_pop_of_ne s.runs hmn]
                  exact hm
              exact (hapart _ change hrun rfl hverdict m run hm' rfl hnoted).elim
      · cases hstep
  | drop n =>
      cases hstep
      exact h.drop n
  | save process providerId key status now =>
      cases hstep
      obtain ⟨hnone, hkeys⟩ := hapart
      have hkey : (savedRecord key status now).get? "key".toList = some (.str key) := by
        unfold savedRecord
        dsimp only
        split <;> rfl
      refine h.commit providerId (fun other hother => Assoc.get?_set_of_ne _ _ hother) fun n run hn hid => ?_
      subst hid
      have hheld := h n run hn
      refine ⟨Or.inr fun record hrecord => ?_, hheld.keyless,
        fun change hchange hnote => (hnone n run hn rfl ⟨change, hchange, hnote⟩).elim⟩
      change (Assoc.set s.table run.providerId _).get? run.providerId = some record at hrecord
      rw [Assoc.get?_set_self] at hrecord
      cases hrecord
      rw [hkeys n run hn rfl]
      exact hkey
  | delete process providerId look =>
      cases hstep
      have hlooks := h.looks process look
      split
      · refine hlooks.commit providerId (fun other hother => Assoc.get?_pop_of_ne _ hother) fun n run hn hid => ?_
        subst hid
        have hheld := hlooks n run hn
        have hgone : ∀ record, ((s.look process look).commit process
            (applyDelete run.providerId)).table.get? run.providerId ≠ some record := by
          intro record hrecord
          change (Assoc.pop (s.look process look).table run.providerId).get? run.providerId
            = some record at hrecord
          rw [Assoc.get?_pop_self] at hrecord
          cases hrecord
        exact ⟨Or.inr fun record hrecord => (hgone record hrecord).elim, hheld.keyless,
          fun _ _ _ record hrecord => (hgone record hrecord).elim⟩
      · exact hlooks
  | update process providerId status extra look now =>
      have hlooks := h.looks process look
      have hnone : (s.look process look).NoneNoted providerId := by
        intro n run hn
        rw [look_runs] at hn
        exact hapart n run hn
      simp only [storeStep] at hstep
      split at hstep
      · cases hstep
      · rename_i hkeyless
        cases hstep
        split
        · have hlatest : latest extra "key".toList = none :=
            latest_eq_none.2 (get?_eq_none (Option.not_isSome_iff_eq_none.1 hkeyless))
          have hchange : ∀ run, Held env (s.look process look) run → ¬ run.Noted →
              Held env ((s.look process look).commit process
                (applyStatus run.providerId status now extra)) run :=
            fun run hheld hnot => held_status ⟨status, extra, false⟩ hheld hlatest
              fun hnoted => (hnot hnoted).elim
          refine hlooks.commit providerId (fun other hother => ?_) fun n run hn hid => ?_
          · exact (applyStatus_get? ⟨status, extra, false⟩ now _ other).trans (if_neg hother)
          · subst hid
            exact hchange run (hlooks n run hn) (hnone n run hn rfl)
        · exact hlooks

end Steps

-- ===== claim

/-- What a run writes: a verdict is about the key of the record, and any
other change leaves its state, at any time. -/
def Applies : Event → StoreState → Prop
  | .commit n now, s => ∀ run change, s.runs.get? n = some run → run.phase = .committing change →
      ∀ record, s.table.get? run.providerId = some record →
        if change.verdict then record.get? "key".toList = some run.key
        else ∀ young, storedState young (change.on now record) = storedState young record
  | _, _ => True

/-- Over any events that keep apart, every run writes what is about the
record it writes to. -/
theorem verdicts_apply (env : Nat → Environ) {events : List Event} {s : StoreState}
    (hstart : ∀ n, s.runs.get? n = none) (hapart : Meets (storeStep env) (Apart env) events s) :
    Meets (storeStep env) Applies events s := by
  have hheld : AllHeld env s := fun n run hrun => by cases (hstart n).symm.trans hrun
  refine (hapart.and_kept (fun _ _ _ hapart h hstep => step_held hapart h hstep) hheld).mono ?_
  intro event s h
  cases event with
  | commit n now =>
      intro run change hrun hphase record hrecord
      have hrunHeld := h.2 n run hrun
      have hchange : run.phase.change? = some change := by
        rw [hphase]
        rfl
      split
      · refine hrunHeld.key.resolve_left (fun hprefers => ?_) record hrecord
        cases hphase.symm.trans hprefers.1
      · rename_i hnote
        exact notes_state (hrunHeld.notes change hchange (Bool.eq_false_iff.2 hnote) record hrecord)
  | _ => exact trivial

def noEnviron : Environ := ⟨fun _ => none, false⟩

def openai : PyStr := "openai".toList

def keyed (key status : String) (lastVerified : Option String) : Record :=
  [("key".toList, .str key.toList), ("status".toList, .str status.toList)]
    ++ (lastVerified.map fun stamp => ("last_verified".toList, Value.str stamp.toList)).toList

def storing (record : Record) : StoreState := ⟨[(openai, record)], [], []⟩

def oneCheck (status : ValidationStatus) : List Event :=
  [.start 1 1 openai .loads, .resume 1 ⟨status, [], 0⟩ .cached [], .note 1 .cached [], .check 1 .cached,
    .commit 1 "now".toList]

/-- The provider is not reached: a verified key stays verified. -/
theorem timeout_applies : Meets (storeStep fun _ => noEnviron) Applies (oneCheck .timeout)
    (storing (keyed "sk-1" "verified" (some "today"))) := by
  refine verdicts_apply _ (fun _ => rfl) ⟨Or.inr fun record hrecord => ?_, fun s hs => ?_⟩
  · cases hrecord
    rfl
  · cases hs
    refine ⟨trivial, fun s hs => ?_⟩
    cases hs
    refine ⟨fun run read hrun hread => ?_, fun s hs => ?_⟩
    · cases hrun
      cases hread
      refine ⟨fun _ => rfl, fun record hrecord => ?_⟩
      cases hrecord
      exact ⟨rfl, rfl⟩
    · cases hs
      refine ⟨trivial, fun s hs => ?_⟩
      cases hs
      refine ⟨fun run change hrun hchange hverdict => ?_, fun _ _ => trivial⟩
      cases hrun
      cases hchange
      cases hverdict

/-- A key is saved while another is validated, which the provider accepts;
and a verified key without a date is stamped by a check that failed. -/
theorem verdict_misapplied : (¬ Meets (storeStep fun _ => noEnviron) Applies
      [.start 1 1 openai .loads, .save 1 openai "sk-2".toList STATUS_UNVERIFIED [],
        .resume 1 ⟨.ok, [], 3⟩ .cached [], .check 1 .cached, .commit 1 []]
      (storing (keyed "sk-1" "unverified" none)))
    ∧ ¬ Meets (storeStep fun _ => noEnviron) Applies (oneCheck .timeout)
      (storing (keyed "sk-1" "valid" none)) := by
  refine ⟨fun h => ?_, fun h => ?_⟩
  · have hkey : some (Value.str "sk-2".toList) = some (.str "sk-1".toList) :=
      ((((h.2 _ rfl).2 _ rfl).2 _ rfl).2 _ rfl).1 _ _ rfl rfl _ rfl
    revert hkey
    decide
  · have hstate : ∀ young : PyStr → Bool, storedState young _ = storedState young _ :=
      ((((h.2 _ rfl).2 _ rfl).2 _ rfl).2 _ rfl).1 _ _ rfl rfl _ rfl
    have hyoung : KeyState.verified = .stale := hstate fun _ => true
    cases hyoung

end Velune.Providers
