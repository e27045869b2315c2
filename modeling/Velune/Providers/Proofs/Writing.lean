/-
A write among other threads (`transact`): read, sealed, put in the place
of the store by one `rename`, and read back, all under the file lock.

A write that returns has committed once, and the table it returns was
then the store's. One that raises has not committed, unless it failed
`late`, after the `rename`. What the read says of the store (`R`) and
whether the read-back and `restrict` may fail are left to the results.
-/
import Velune.Providers.Proofs.Locking

namespace Velune.Providers

open Lib

variable {T : Terms} {W : Option (Contents Payload) → Contents Payload → Prop}
variable {who : Who Pid} {ok : Op Payload Memory → Choice → StoreHost → Prop}
variable {s s' : StoreHost} {P φ : StoreHost → Prop} {α : Type}

-- ===== holding

def OnFiles (φ : StoreHost → Prop) : Prop :=
  ∀ s s', s'.files = s.files → s'.mark = s.mark → s'.commits = s.commits → φ s → φ s'

theorem OnStore.onFiles (h : OnStore P) : OnFiles P :=
  fun s s' hfiles hmark hcommits hp => h s s' ⟨congrFun hfiles _, hmark, hcommits⟩ hp

def Holding (T : Terms) (who : Who Pid) (φ : StoreHost → Prop) (s : StoreHost) : Prop :=
  s.lock = some who ∧ AtWork who T.memory s ∧ φ s

theorem holding_stable (hφ : OnFiles φ) : (Keeping T W who ok).Stable (Holding T who φ) := by
  rintro s s' hr ⟨hlock, hwork, hs⟩
  obtain ⟨hlock', hfiles, hmark, hcommits⟩ := hr.held hlock
  exact ⟨hlock', atWork_stable memory_stable s s' hr hwork, hφ s s' hfiles hmark hcommits hs⟩

theorem holding_onDisk (hφ : OnFiles φ) : OnDisk (Holding T who φ) := by
  rintro s s' h ⟨hlock, ⟨hmutex, hmemory⟩, hs⟩
  obtain ⟨hfiles, hmark, hlock', hmutex', hown, hcommits⟩ := disk_fields h
  refine ⟨hlock'.trans hlock, ⟨(congrFun hmutex' _).trans hmutex, ?_⟩,
    hφ s s' hfiles hmark hcommits hs⟩
  rw [congrFun hown]
  exact T.memory_same _ s s' ⟨congrFun hfiles _, hmark, hcommits⟩ hmemory

theorem holding_guar {φ' : StoreHost → Prop} (h : Same s s') (hlock : s'.lock = s.lock)
    (hmutex : s'.mutex = s.mutex) (hown : s'.own = s.own) (hs : Holding T who φ s) (hφ : φ' s') :
    Guar W T.Kept who s s' ∧ Holding T who φ' s' := by
  refine ⟨guar_same h hmutex hown (fun other hne ho => absurd ho (only_holder hs.1 hne))
    (fun other _ ho => hlock.symm ▸ ho) fun hne => absurd hs.1 hne, hlock.trans hs.1, ⟨(congrFun hmutex _).trans hs.2.1.1, ?_⟩, hφ⟩
  rw [congrFun hown]
  exact T.memory_same _ s s' h hs.2.1.2

-- ===== the lock

/-- What is known after an operation that answers whether it was done. -/
def Did (Q R : StoreHost → Prop) : Bool → StoreHost → Prop
  | true => Q
  | false => R

variable {E : Failure → StoreHost → Prop}

theorem shares_orRaise {op : StoreCode Bool} {Q : StoreHost → Prop}
    (h : Outline (exec who) (Keeping T W who ok) (Did Q (E .os)) E P op)
    (hQ : (Keeping T W who ok).Stable Q) (hE : (Keeping T W who ok).Stable (E .os)) :
    Outline (exec who) (Keeping T W who ok) (fun _ => Q) E P (orRaise op) := by
  refine Outline.bind h fun done => ?_
  cases done with
  | true => exact Outline.pure hQ fun _ hs => hs
  | false => exact Outline.throw hE fun _ hs => hs

theorem shares_acquire (hP : (Keeping T W who ok).Stable P) (hstore : OnStore P) :
    Outline (exec who) (Keeping T W who ok)
      (Did (Holding T who P) (Inside T who fun s => P s ∧ Free who s)) E
      (Inside T who fun s => P s ∧ Free who s) acquire := by
  have hfree : (Keeping T W who ok).Stable fun s => P s ∧ Free who s := stable_and hP free_stable
  refine Outline.perform .acquire (inside_stable hfree) ?_ ?_
  · intro a
    cases a with
    | true => exact holding_stable hstore.onFiles
    | false => exact inside_stable hfree
  intro s c a s' hs hok hx
  simp only [exec] at hx
  split at hx
  next hnone =>
    cases hx
    have hsame : Same s { s with lock := some who } := ⟨rfl, rfl, rfl⟩
    refine ⟨guar_same hsame rfl rfl (fun other _ ho => ?_) (fun other hne _ => ?_) fun _ => rfl,
      rfl, ⟨hs.2.1, T.memory_same _ _ _ hsame hs.2.2⟩, hstore _ _ hsame hs.1.1⟩
    · rw [hnone] at ho
      cases ho
    · exact only_holder rfl hne
  next =>
    cases hx
    exact ⟨guar_of_disk kept_onDisk rfl, hs⟩
  next => cases hx

theorem shares_release (hP : (Keeping T W who ok).Stable P)
    (hstore : OnStore P) (hφ : OnFiles φ) (h : ∀ s, φ s → P s) :
    Outline (exec who) (Keeping T W who ok) (fun _ => Inside T who fun s => P s ∧ Free who s) E
      (Holding T who φ) release := by
  refine Outline.perform .release (holding_stable hφ)
    (fun _ => inside_stable (stable_and hP free_stable)) ?_
  intro s c a s' hs _ hx
  cases hx
  have hsame : Same s { s with lock := none } := ⟨rfl, rfl, rfl⟩
  refine ⟨guar_same hsame rfl rfl (fun other hne ho => absurd ho (only_holder hs.1 hne))
    (fun _ _ _ hheld => by cases hheld) fun _ => rfl,
    ⟨hstore _ _ hsame (h s hs.2.2), fun hheld => by cases hheld⟩, hs.2.1.1,
    T.memory_same _ _ _ hsame hs.2.1.2⟩

-- ===== files

/-- The file an operation changes, of those that are not `rename`. -/
def Op.target : Op Payload Memory → Option File
  | .truncate file => some file
  | .writeBytes file _ => some file
  | .copy _ target => some target
  | .unlink file => some file
  | _ => none

theorem exec_target {op : Op Payload Memory} {file : File} {c : Choice} {a : Ans Payload Memory op}
    (hop : op.target = some file) (h : exec who op c s = some (a, s')) :
    s' = s ∨ ∃ contents, s' = s.setFile file contents := by
  cases op with
  | truncate f =>
      cases hop
      exact (attempt_state h).imp_right fun h => ⟨_, h⟩
  | writeBytes f contents =>
      cases hop
      exact (attempt_state h).imp_right fun h => ⟨_, h⟩
  | copy source target =>
      cases hop
      simp only [exec] at h
      split at h
      · exact (attempt_state h).imp_right fun h => ⟨_, h⟩
      · cases h
        exact Or.inl rfl
  | unlink f =>
      cases hop
      exact (attempt_state h).imp_right fun h => ⟨_, h⟩
  | _ => cases hop

theorem setFile_same {file : File} (hne : file ≠ .primary) (contents : Option (Contents Payload)) :
    Same s (s.setFile file contents) :=
  ⟨Function.update_of_ne hne.symm _ _, if_neg hne, rfl⟩

theorem setFile_self {file : File} {contents : Option (Contents Payload)} :
    (s.setFile file contents).files file = contents := by
  change Function.update s.files file contents file = contents
  exact Function.update_self _ _ _

/-- The holder changes a file that `φ` does not speak of. -/
theorem shares_file (op : Op Payload Memory) {file : File}
    (hop : op.target = some file) (hne : file ≠ .primary) (hφ : OnFiles φ)
    (hkeep : ∀ s contents, φ s → φ (s.setFile file contents)) :
    Outline (exec who) (Keeping T W who ok) (fun _ => Holding T who φ) E (Holding T who φ)
      (Prog.perform op : StoreCode (Ans Payload Memory op)) := by
  refine Outline.perform op (holding_stable hφ) (fun _ => holding_stable hφ) ?_
  intro s c a s' hs _ hx
  rcases exec_target hop hx with rfl | ⟨contents, rfl⟩
  · exact holding_guar ⟨rfl, rfl, rfl⟩ rfl rfl rfl hs hs.2.2
  · exact holding_guar (setFile_same hne contents) rfl rfl rfl hs (hkeep s contents hs.2.2)

theorem shares_write {contents : Contents Payload}
    (hφ : OnFiles φ) (hkeep : ∀ s contents, φ s → φ (s.setFile .temp contents)) :
    Outline (exec who) (Keeping T W who ok)
      (Did (Holding T who fun s => φ s ∧ s.files .temp = some contents) (Holding T who φ)) E
      (Holding T who φ) (writeBytes .temp contents) := by
  have hboth : OnFiles fun s : StoreHost => φ s ∧ s.files .temp = some contents :=
    fun s s' hfiles hmark hcommits h =>
      ⟨hφ s s' hfiles hmark hcommits h.1, (congrFun hfiles _).trans h.2⟩
  refine Outline.perform (.writeBytes .temp contents) (holding_stable hφ) ?_ ?_
  · intro a
    cases a with
    | true => exact holding_stable hboth
    | false => exact holding_stable hφ
  intro s c a s' hs _ hx
  cases c with
  | succeeds =>
      cases hx
      have hne : File.temp ≠ .primary := by decide
      have hafter : Guar W T.Kept who s (s.setFile .temp (some contents)) ∧ Holding T who
          (fun s => φ s ∧ s.files .temp = some contents) (s.setFile .temp (some contents)) :=
        holding_guar (setFile_same hne (some contents)) rfl rfl rfl hs
          ⟨hkeep s _ hs.2.2, setFile_self⟩
      exact hafter
  | fails =>
      cases hx
      exact holding_guar ⟨rfl, rfl, rfl⟩ rfl rfl rfl hs hs.2.2
  | typed text => cases hx

-- ===== a commit

def Counted (who : Who Pid) (n : Nat) (R : (File → Option (Contents Payload)) → Prop)
    (s : StoreHost) : Prop := commitCount who s = n ∧ R s.files

theorem count_onFiles (N : Nat → Prop) : OnFiles fun s => N (commitCount who s) := by
  intro s s' _ _ hcommits h
  have hcount : commitCount who s' = commitCount who s := by
    rw [commitCount, mine, hcommits]
    rfl
  rw [hcount]
  exact h

theorem counted_onFiles {n : Nat} {R : (File → Option (Contents Payload)) → Prop} :
    OnFiles (Counted who n R) := fun s s' hfiles hmark hcommits h =>
  ⟨count_onFiles (· = n) s s' hfiles hmark hcommits h.1, hfiles ▸ h.2⟩

theorem counted_setFile {n : Nat} {R : (File → Option (Contents Payload)) → Prop} {file : File}
    (hR : ∀ files contents, R files → R (Function.update files file contents))
    (s : StoreHost) (contents : Option (Contents Payload)) (h : Counted who n R s) :
    Counted who n R (s.setFile file contents) := ⟨h.1, hR s.files contents h.2⟩

/-- `rename` is the commit. -/
theorem shares_rename {n : Nat} {contents : Contents Payload} :
    Outline (exec who) (Keeping T W who ok)
      (Did (Holding T who (Counted who (n + 1) fun files => files .primary = some contents))
        (Holding T who fun s => commitCount who s = n)) E
      (Holding T who (Counted who n fun files =>
        files .temp = some contents ∧ W (files .primary) contents)) rename := by
  refine Outline.perform .rename (holding_stable counted_onFiles) ?_ ?_
  · intro a
    cases a with
    | true => exact holding_stable counted_onFiles
    | false => exact holding_stable (count_onFiles (· = n))
  rintro s c a s' ⟨hlock, hwork, hcount, htemp, hW⟩ _ hx
  have hsame : Guar W T.Kept who s s ∧ Holding T who (fun s => commitCount who s = n) s :=
    ⟨guar_of_disk kept_onDisk rfl, hlock, hwork, hcount⟩
  simp only [exec, htemp] at hx
  cases c with
  | succeeds =>
      cases hx
      have hputs : Puts s { (s.setFile .primary (some contents)).setFile .temp none with
          commits := s.commits ++ [⟨who.thread, s.files .primary, contents⟩] }
          ⟨who.thread, s.files .primary, contents⟩ := ⟨rfl, rfl, rfl, rfl⟩
      refine ⟨⟨fun other hne ho => absurd ho (only_holder hlock hne), fun _ _ ho => ho,
        fun hne => absurd hlock hne, Or.inr ⟨contents, hW, hputs⟩, fun _ _ ho => ⟨ho, rfl⟩, kept_puts hputs rfl rfl⟩, hlock,
        ⟨hwork.1, T.memory_puts _ _ _ _ hputs hwork.2⟩, ?_, rfl⟩
      change ((s.commits ++ [_]).filter _).length = n + 1
      rw [List.filter_append, List.length_append]
      have hone : ([⟨who.thread, s.files .primary, contents⟩] : List (Commit Payload)).filter
          (fun c => decide (c.thread = who.thread)) = [⟨who.thread, s.files .primary, contents⟩] := by
        simp
      rw [hone]
      exact congrArg (· + 1) hcount
  | fails =>
      cases hx
      exact hsame
  | typed text => cases hx

def Failing (T : Terms) (who : Who Pid) (n : Nat) (late : Prop) : StoreHost → Prop :=
  Holding T who fun s => commitCount who s = n ∨ late

variable {n : Nat} {late : Prop}

theorem failing_stable : (Keeping T W who ok).Stable (Failing T who n late) :=
  holding_stable (count_onFiles fun k => k = n ∨ late)

theorem holding_mono {φ' : StoreHost → Prop} (h : ∀ s, φ s → φ' s) (hs : Holding T who φ s) :
    Holding T who φ' s := ⟨hs.1, hs.2.1, h s hs.2.2⟩

theorem shares_before {op : StoreCode Bool} {Q : StoreHost → Prop}
    (h : Outline (exec who) (Keeping T W who ok) (Did Q (Holding T who φ))
      (fun _ => Failing T who n late) P op) (hQ : (Keeping T W who ok).Stable Q)
    (hφ : ∀ s, φ s → commitCount who s = n) :
    Outline (exec who) (Keeping T W who ok) (fun _ => Q) (fun _ => Failing T who n late) P
      (orRaise op) := by
  refine shares_orRaise (E := fun _ => Failing T who n late) (h.post ?_ fun _ _ hs => hs) hQ
    failing_stable
  intro done s hs
  cases done with
  | true => exact hs
  | false => exact holding_mono (fun s hs => Or.inl (hφ s hs)) hs

theorem shares_tried {op : StoreCode Bool}
    (h : Outline (exec who) (Keeping T W who ok) (fun _ => Holding T who φ)
      (fun _ => Failing T who n late) (Holding T who φ) op) (hφ : OnFiles φ)
    (hn : ∀ s, φ s → commitCount who s = n) :
    Outline (exec who) (Keeping T W who ok) (fun _ => Holding T who φ)
      (fun _ => Failing T who n late) (Holding T who φ) (orRaise op) := by
  refine shares_before (h.post ?_ fun _ _ hs => hs) (holding_stable hφ) hn
  intro done s hs
  cases done <;> exact hs

theorem shares_setAside (hφ : OnFiles φ) :
    Outline (exec who) (Keeping T W who ok) (fun _ => Holding T who φ) E (Holding T who φ)
      setAside := by
  refine Outline.perform .setAside (holding_stable hφ) (fun _ => holding_stable hφ) ?_
  intro s c a s' hs _ hx
  rcases attempt_state hx with rfl | rfl <;> exact ⟨guar_of_disk kept_onDisk rfl, hs⟩

/-- `restrict` changes nothing; a failure of it is late. -/
theorem shares_restrict (file : File) (hφ : OnFiles φ)
    (hfails : ∀ c s, ok .restrict c s → c.isFailure = true → late) :
    Outline (exec who) (Keeping T W who ok) (fun _ => Holding T who φ)
      (fun _ => Failing T who n late) (Holding T who φ) (restrictFile file) := by
  have hrestrict : Outline (exec who) (Keeping T W who ok)
      (Did (Holding T who φ) (Failing T who n late)) (fun _ => Failing T who n late)
      (Holding T who φ) restrict := by
    refine Outline.perform .restrict (holding_stable hφ) ?_ ?_
    · intro a
      cases a with
      | true => exact holding_stable hφ
      | false => exact failing_stable
    intro s c a s' hs hok hx
    cases c with
    | succeeds =>
        cases hx
        exact ⟨guar_of_disk kept_onDisk rfl, hs⟩
    | fails =>
        cases hx
        exact ⟨guar_of_disk kept_onDisk rfl,
          holding_mono (fun _ _ => Or.inr (hfails _ s hok rfl)) hs⟩
    | typed text => cases hx
  refine Outline.bind (shares_skip (.fileExists file) trivial kept_onDisk (holding_stable hφ))
    fun there => ?_
  refine Outline.ite (fun _ => ?_) fun _ => Outline.pure (holding_stable hφ) fun _ hs => hs
  exact shares_orRaise (E := fun _ => Failing T who n late) hrestrict (holding_stable hφ)
    failing_stable

/-- `keepOld` changes the backup. -/
theorem shares_keepOld (source : StoreSource) (hφ : OnFiles φ)
    (hkeep : ∀ s contents, φ s → φ (s.setFile .backup contents))
    (hn : ∀ s, φ s → commitCount who s = n) :
    Outline (exec who) (Keeping T W who ok) (fun _ => Holding T who φ)
      (fun _ => Failing T who n late) (Holding T who φ) (keepOld source) := by
  have hbackup : File.backup ≠ .primary := by decide
  cases source with
  | primary =>
      refine (shares_tried (shares_file (.truncate .backup) rfl hbackup hφ hkeep) hφ hn).bind
        fun _ => ?_
      exact shares_tried (shares_file (.copy .primary .backup) rfl hbackup hφ hkeep) hφ hn
  | backup =>
      refine Outline.bind (shares_skip (.fileExists .primary) trivial kept_onDisk
        (holding_stable hφ)) fun there => ?_
      refine Outline.ite (fun _ => ?_) fun _ => Outline.pure (holding_stable hφ) fun _ hs => hs
      exact shares_tried (shares_setAside hφ) hφ hn
  | empty => exact Outline.pure (holding_stable hφ) fun _ hs => hs

theorem shares_writeStore (blob : Sealed Payload) (source : StoreSource)
    (hfails : ∀ c s, ok .restrict c s → c.isFailure = true → late) :
    Outline (exec who) (Keeping T W who ok)
      (fun _ => Holding T who (Counted who (n + 1) fun files => files .primary = some (.sealed blob)))
      (fun _ => Failing T who n late)
      (Holding T who (Counted who n fun files => W (files .primary) (.sealed blob)))
      (writeStore blob source) := by
  have htemp : File.temp ≠ .primary := by decide
  have hkeep : ∀ {file : File}, file ≠ .primary → ∀ s contents,
      Counted who n (fun files => W (files .primary) (.sealed blob)) s →
      Counted who n (fun files => W (files .primary) (.sealed blob)) (s.setFile file contents) := by
    intro file hne
    refine counted_setFile fun files contents h => ?_
    rw [Function.update_of_ne hne.symm]
    exact h
  have hcount : ∀ s, Counted who n (fun files => W (files .primary) (.sealed blob)) s →
      commitCount who s = n := fun s hs => hs.1
  refine (shares_tried (shares_file (.truncate .temp) rfl htemp counted_onFiles (hkeep htemp))
    counted_onFiles hcount).bind fun _ => ?_
  have hboth : OnFiles (Counted who n fun files =>
      files .temp = some (.sealed blob) ∧ W (files .primary) (.sealed blob)) := counted_onFiles
  refine Outline.bind (shares_before (Q := Holding T who (Counted who n fun files =>
    files .temp = some (.sealed blob) ∧ W (files .primary) (.sealed blob)))
    ((shares_write counted_onFiles (hkeep htemp)).post ?_ fun _ _ hs => hs)
    (holding_stable hboth) hcount) fun _ => ?_
  · intro done s hs
    cases done with
    | true =>
        obtain ⟨hlock, hwork, hs, hwritten⟩ := hs
        exact ⟨hlock, hwork, hs.1, hwritten, hs.2⟩
    | false => exact hs
  refine (shares_keepOld source hboth ?_ fun s hs => hs.1).bind fun _ => ?_
  · refine counted_setFile fun files contents h => ?_
    rw [Function.update_of_ne (by decide), Function.update_of_ne (by decide)]
    exact h
  refine (shares_before shares_rename (holding_stable counted_onFiles) fun _ hs => hs).bind
    fun _ => ?_
  exact (shares_restrict .primary counted_onFiles hfails).bind fun _ =>
    shares_restrict .backup counted_onFiles hfails

theorem shares_dropTemp (hφ : OnFiles φ)
    (hkeep : ∀ s contents, φ s → φ (s.setFile .temp contents)) :
    Outline (exec who) (Keeping T W who ok) (fun _ => Holding T who φ) E (Holding T who φ)
      dropTemp := by
  refine Outline.bind (shares_skip (.fileExists .temp) trivial kept_onDisk (holding_stable hφ))
    fun there => ?_
  have hdone : Outline (exec who) (Keeping T W who ok) (fun _ => Holding T who φ) E
      (Holding T who φ) (pure ⟨⟩ : StoreCode PUnit) := Outline.pure (holding_stable hφ) fun _ hs => hs
  refine Outline.ite (fun _ => ?_) fun _ => hdone
  exact (shares_file (.unlink .temp) rfl (by decide) hφ hkeep).bind fun _ => hdone

-- ===== write

/-- What a write is to find: its `n`-th, of this mutation. -/
structure Write (T : Terms) (W : Option (Contents Payload) → Contents Payload → Prop)
    (who : Who Pid) (ok : Op Payload Memory → Choice → StoreHost → Prop) (n : Nat)
    (mutate : Table → Table) (R : Table → Option (Contents Payload) → Prop) (late : Prop) : Prop where
  read : Outline (exec who) (Keeping T W who ok)
    (fun r => Holding T who (Counted who n fun files => R r.1 (files .primary)))
    (fun _ => Holding T who fun s => commitCount who s = n)
    (Holding T who fun s => commitCount who s = n) readStore
  puts : ∀ table blob base, R table base → blob.text = some (mutate table) →
    W base (.sealed blob)
  restrict : ∀ c s, ok .restrict c s → c.isFailure = true → late
  back : ∀ φ, OnFiles φ →
    (∀ s, φ s → commitCount who s = n + 1 ∧ (s.files .primary).isSome = true) →
    Outline (exec who) (Keeping T W who ok)
      (fun table => Holding T who fun s => φ s ∧ s.table = some table)
      (fun _ => Holding T who fun _ => late) (Holding T who φ) (decode .primary)

theorem table_onFiles (table : Table) : OnFiles fun s => s.table = some table := by
  intro s s' hfiles _ _ h
  change tableOf (s'.files .primary) = some table
  rw [hfiles]
  exact h

theorem shares_transactLocked {mutate : Table → Table}
    {R : Table → Option (Contents Payload) → Prop} (hw : Write T W who ok n mutate R late) :
    Outline (exec who) (Keeping T W who ok)
      (fun table => Holding T who fun s => commitCount who s = n + 1 ∧ s.table = some table)
      (fun _ => Failing T who n late) (Holding T who fun s => commitCount who s = n)
      (transactLocked mutate) := by
  refine Outline.bind (hw.read.post (fun _ _ hs => hs) fun _ _ hs =>
    holding_mono (fun s hs => Or.inl hs) hs) fun r => ?_
  obtain ⟨current, source⟩ := r
  have hfiles : OnFiles (Counted who n fun files => R current (files .primary)) := counted_onFiles
  refine Outline.bind (Q := fun blob s =>
    Holding T who (Counted who n fun files => R current (files .primary)) s
      ∧ blob.text = some (mutate current)) ?_ fun blob => Outline.of_fact fun htext => ?_
  · refine Outline.rescue (shares_crypto (fun _ _ _ => True) (learns_encrypt _ true)
      (encryptCredentials_crypto _ true) kept_onDisk (holding_stable hfiles)
      (holding_onDisk hfiles) fun _ _ _ _ _ => trivial) fun e => ?_
    refine Outline.throw (stable_and (holding_stable hfiles) (sharing_true _)) fun s hs => ?_
    exact holding_mono (fun s hs => Or.inl hs.1) hs.1
  have hputs : ∀ s, Counted who n (fun files => R current (files .primary)) s →
      Counted who n (fun files => W (files .primary) (.sealed blob)) s :=
    fun s hs => ⟨hs.1, hw.puts current blob _ hs.2 htext⟩
  have hafter : OnFiles (Counted who (n + 1) fun files => files .primary = some (.sealed blob)) :=
    counted_onFiles
  refine Outline.bind (Q := fun _ => Holding T who (Counted who (n + 1) fun files =>
    files .primary = some (.sealed blob))) ?_ fun _ => ?_
  · refine shares_ensuring (E := fun _ => Failing T who n late) (Outline.rescue
      ((shares_writeStore blob source hw.restrict).pre (holding_stable hfiles)
        fun s hs => holding_mono hputs hs) fun e => Outline.throw failing_stable fun _ hs => hs)
      (fun _ => shares_dropTemp hafter (counted_setFile fun files contents h => ?_))
      (fun _ => shares_dropTemp (count_onFiles fun k => k = n ∨ late) fun _ _ h => h)
      (fun _ => holding_stable hafter) fun _ => failing_stable
    rw [Function.update_of_ne (by decide)]
    exact h
  have hback := hw.back _ hafter fun s hs => ⟨hs.1, by rw [hs.2]; rfl⟩
  have hboth : ∀ table, OnFiles fun s => Counted who (n + 1) (fun files =>
      files .primary = some (.sealed blob)) s ∧ s.table = some table :=
    fun table s s' hf hm hc h => ⟨hafter s s' hf hm hc h.1, table_onFiles table s s' hf hm hc h.2⟩
  refine Outline.bind (Q := fun table => Holding T who fun s => Counted who (n + 1) (fun files =>
    files .primary = some (.sealed blob)) s ∧ s.table = some table) (Outline.rescue hback fun e => ?_)
    fun written => ?_
  · exact Outline.throw (holding_stable fun _ _ _ _ _ h => h) fun s hs =>
      holding_mono (fun s hs => Or.inr hs) hs
  refine Outline.ite (fun heq => ?_) fun hne => ?_
  · refine Outline.pure (holding_stable (hboth written)) fun s hs => holding_mono (fun s hs => ?_) hs
    exact ⟨hs.1.1, heq ▸ hs.2⟩
  · refine Outline.throw (holding_stable (hboth written)) fun s hs => absurd ?_ hne
    have htable : s.table = some (mutate current) := by
      rw [Host.table, hs.2.2.1.2]
      exact htext
    exact Option.some.inj (hs.2.2.2.symm.trans htable)

theorem shares_transact {mutate : Table → Table} {R : Table → Option (Contents Payload) → Prop}
    (hw : Write T W who ok n mutate R late) :
    Outline (exec who) (Keeping T W who ok)
      (fun table => Inside T who fun s =>
        (commitCount who s = n + 1 ∧ T.committed who table s) ∧ Free who s)
      (fun _ => Inside T who fun s => (commitCount who s = n ∨ late) ∧ Free who s)
      (Inside T who fun s => commitCount who s = n ∧ Free who s) (transact mutate) := by
  have hcountStore : ∀ N : Nat → Prop, OnStore fun s => N (commitCount who s) := by
    intro N s s' h hs
    rw [commitCount_same h]
    exact hs
  have hcount : ∀ N : Nat → Prop, (Keeping T W who ok).Stable fun s => N (commitCount who s) :=
    fun N => mine_stable fun cs => N cs.length
  have hdone : ∀ table, (Keeping T W who ok).Stable
      fun s => commitCount who s = n + 1 ∧ T.committed who table s :=
    fun table => stable_and (hcount (· = n + 1)) (committed_stable table)
  have hfailed := hcount fun k => k = n ∨ late
  refine (shares_acquire (hcount (· = n)) (hcountStore (· = n))).bind fun got => ?_
  cases got with
  | false =>
      exact Outline.throw (inside_stable (stable_and (hcount (· = n)) free_stable))
        fun s hs => ⟨⟨Or.inl hs.1.1, hs.1.2⟩, hs.2⟩
  | true =>
      refine shares_ensuring (shares_transactLocked hw) (fun table => ?_) (fun _ => ?_)
        (fun table => inside_stable (stable_and (hdone table) free_stable))
        fun _ => inside_stable (stable_and hfailed free_stable)
      · refine shares_release (hdone table) (fun s s' h hs => ?_) (fun s s' hf hm hc h => ?_)
          fun s hs => ⟨hs.1, T.committed_now who table s hs.2⟩
        · exact ⟨hcountStore (· = n + 1) s s' h hs.1, T.committed_same who table s s' h hs.2⟩
        · exact ⟨count_onFiles (· = n + 1) s s' hf hm hc h.1, table_onFiles table s s' hf hm hc h.2⟩
      · exact shares_release hfailed (hcountStore fun k => k = n ∨ late)
          (count_onFiles fun k => k = n ∨ late) fun s hs => hs

end Velune.Providers
