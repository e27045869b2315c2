/-
The cache among other threads: what `ensureCache` finds or loads, and
what a commit leaves in the memory.

A load that goes well (`Mode`) leaves a table that was the store's after
its stamp was taken, or an error on record. So the memory is as every
step keeps it, whatever happened to the store in between.
-/
import Velune.Providers.Proofs.Writing

namespace Velune.Providers

open Lib

variable {T : Terms} {W : Option (Contents Payload) → Contents Payload → Prop}
variable {who : Who Pid} {ok : Op Payload Memory → Choice → StoreHost → Prop}
variable {s s' : StoreHost} {P : StoreHost → Prop} {mode : Mode} {newStamp : Option Nat}

-- ===== loading

theorem OffMemory.onDisk (h : OffMemory P) : OnDisk P := by
  intro s s' hdisk hs
  obtain ⟨hfiles, hmark, hlock, -, -, hcommits⟩ := disk_fields hdisk
  exact h s s' ⟨congrFun hfiles _, hmark, hcommits⟩ hlock hs

theorem atWork_onDisk {ψ : Memory → StoreHost → Prop} (h : ∀ m, OffMemory (ψ m)) :
    OnDisk (AtWork who ψ) := by
  intro s s' hdisk hs
  obtain ⟨-, -, -, hmutex, hown, -⟩ := disk_fields hdisk
  refine ⟨(congrFun hmutex _).trans hs.1, ?_⟩
  rw [congrFun hown]
  exact (h _).onDisk s s' hdisk hs.2

theorem AtWork.mono {ψ ψ' : Memory → StoreHost → Prop} (h : ∀ m, ψ m s → ψ' m s)
    (hs : AtWork who ψ s) : AtWork who ψ' s := ⟨hs.1, h _ hs.2⟩

structure Loaded (T : Terms) (P : StoreHost → Prop) (mode : Mode) (newStamp : Option Nat)
    (table : Table) (m : Memory) (s : StoreHost) : Prop where
  rest : P s
  old : T.old newStamp s
  stamped : m.loadError = false → T.stamped table newStamp s
  read : mode.closes = false → m.loadError = false

theorem loaded_stable (hP : (Keeping T W who ok).Stable P) (table : Table) (m : Memory) :
    (Keeping T W who ok).Stable (Loaded T P mode newStamp table m) := fun s s' hr h =>
  ⟨hP s s' hr h.rest, old_stable newStamp s s' hr h.old,
    fun herror => stamped_stable table newStamp s s' hr (h.stamped herror), h.read⟩

theorem loaded_offMemory (hP : OffMemory P) (table : Table) (m : Memory) :
    OffMemory (Loaded T P mode newStamp table m) := fun s s' hsame hlock h =>
  ⟨hP s s' hsame hlock h.rest, T.old_same newStamp s s' hsame h.old,
    fun herror => T.stamped_same table newStamp s s' hsame (h.stamped herror), h.read⟩

/-- `loadDisk` never raises. -/
theorem shares_loadDisk {E : Failure → StoreHost → Prop} (hP : (Keeping T W who ok).Stable P)
    (hstore : OffMemory P) (hmode : ∀ op c s, P s → ok op c s → mode.Ok who.process op c s) :
    Outline (exec who) (Keeping T W who ok)
      (fun table => AtWork who (Loaded T P mode newStamp table)) E
      (AtWork who fun _ s => P s ∧ T.old newStamp s) loadDisk := by
  have hpre : ∀ _ : Memory, (Keeping T W who ok).Stable fun s => P s ∧ T.old newStamp s :=
    fun _ => stable_and hP (old_stable newStamp)
  have hpreStore : ∀ _ : Memory, OffMemory fun s => P s ∧ T.old newStamp s :=
    fun _ => offMemory_and hstore fun s s' h _ => T.old_same newStamp s s' h
  have hseen : Seen W T.Kept who ok (AtWork who fun _ s => P s ∧ T.old newStamp s)
      (fun table => T.stamped table newStamp) :=
    ⟨fun table => stamped_stable table newStamp, fun table => OffMemory.onDisk fun s s' h _ =>
      T.stamped_same table newStamp s s' h, fun s table hs => T.stamped_now table newStamp s hs.2.2⟩
  have hread := shares_read mode kept_onDisk (atWork_stable hpre) (atWork_onDisk hpreStore) hseen
    fun op c s hs hok => hmode op c s hs.2.1 hok
  refine Outline.rescue (E := Refused (AtWork who fun _ s => P s ∧ T.old newStamp s) mode)
    (Outline.bind hread fun r => ?_) fun e => ?_
  · obtain ⟨table, source⟩ := r
    have hψ : ∀ _ : Memory, (Keeping T W who ok).Stable
        fun s => (P s ∧ T.old newStamp s) ∧ T.stamped table newStamp s :=
      fun m => stable_and (hpre m) (stamped_stable table newStamp)
    have hψstore : ∀ _ : Memory, OffMemory
        fun s => (P s ∧ T.old newStamp s) ∧ T.stamped table newStamp s :=
      fun m => offMemory_and (hpreStore m) fun s s' h _ => T.stamped_same table newStamp s s' h
    refine Outline.bind ((shares_own (fun m => { m with loadError := false, loadKeyUnavailable := false })
      hψ hψstore).pre (stable_and (atWork_stable hpre) (stamped_stable table newStamp))
        fun s hs => hs.1.mono fun m hm => ⟨hm, hs.2⟩) fun m => ?_
    refine Outline.pure (atWork_stable fun m' => stable_and (sharing_true _) (hψ m)) fun s hs =>
      hs.mono ?_
    rintro m' ⟨rfl, ⟨hp, hold⟩, hstamped⟩
    exact ⟨hp, hold, fun _ => hstamped, fun _ => rfl⟩
  · refine Outline.ite (fun _ => ?_) fun herror => ?_
    · refine Outline.pre (P := fun s => AtWork who (fun _ s => P s ∧ T.old newStamp s) s
        ∧ mode.closes = true) (Outline.of_fact fun hcloses => ?_)
        (refused_stable (atWork_stable hpre) e) fun s hs => ⟨hs.1, hs.2.2⟩
      refine Outline.bind (shares_own _ hpre hpreStore) fun m => ?_
      refine Outline.pure (atWork_stable fun m' => stable_and (sharing_true _) (hpre m)) fun s hs =>
        hs.mono ?_
      rintro m' ⟨rfl, hp, hold⟩
      refine ⟨hp, hold, fun h => (by cases h), fun h => ?_⟩
      rw [hcloses] at h
      cases h
    · exact Outline.throw (refused_stable (atWork_stable hpre) e)
        fun s hs => absurd hs.2.1 herror

structure Reloaded (T : Terms) (P : StoreHost → Prop) (mode : Mode) (newStamp : Option Nat)
    (table : Table) (m : Memory) (s : StoreHost) : Prop extends
    Loaded T P mode newStamp table m s where
  cache : m.cache = some table
  stamp : m.cacheStamp = newStamp

theorem reloaded_stable (hP : (Keeping T W who ok).Stable P) (table : Table) (m : Memory) :
    (Keeping T W who ok).Stable (Reloaded T P mode newStamp table m) := fun s s' hr h =>
  ⟨loaded_stable hP table m s s' hr h.toLoaded, h.cache, h.stamp⟩

theorem reloaded_offMemory (hP : OffMemory P) (table : Table) (m : Memory) :
    OffMemory (Reloaded T P mode newStamp table m) := fun s s' hsame hlock h =>
  ⟨loaded_offMemory hP table m s s' hsame hlock h.toLoaded, h.cache, h.stamp⟩

theorem Reloaded.change {table : Table} {m m' : Memory} (h : Reloaded T P mode newStamp table m s)
    (hcache : m'.cache = m.cache) (hstamp : m'.cacheStamp = m.cacheStamp)
    (herror : m'.loadError = m.loadError) : Reloaded T P mode newStamp table m' s :=
  ⟨⟨h.rest, h.old, fun he => h.stamped (herror.symm.trans he), fun hc => herror.trans (h.read hc)⟩,
    hcache.trans h.cache, hstamp.trans h.stamp⟩

variable (mode newStamp) in
theorem shares_reload {E : Failure → StoreHost → Prop} (hP : (Keeping T W who ok).Stable P)
    (hstore : OffMemory P) (hmode : ∀ op c s, P s → ok op c s → mode.Ok who.process op c s) :
    Outline (exec who) (Keeping T W who ok)
      (fun table => AtWork who (Reloaded T P mode newStamp table)) E
      (AtWork who fun _ s => P s ∧ T.old newStamp s) (reload newStamp) := by
  refine Outline.bind (shares_loadDisk hP hstore hmode) fun table => ?_
  have hdone : ∀ m, (Keeping T W who ok).Stable (Reloaded T P mode newStamp table m) :=
    reloaded_stable hP table
  have hdoneStore : ∀ m, OffMemory (Reloaded T P mode newStamp table m) :=
    reloaded_offMemory hstore table
  have hput : Outline (exec who) (Keeping T W who ok)
      (fun _ => AtWork who (Reloaded T P mode newStamp table)) E
      (AtWork who (Loaded T P mode newStamp table))
      (own fun m => { m with cache := some table, cacheStamp := newStamp }) := by
    refine (shares_own _ (loaded_stable hP table) (loaded_offMemory hstore table)).post
      (fun m s hs => hs.mono ?_) fun _ _ h => h
    rintro m' ⟨rfl, h⟩
    exact ⟨⟨h.rest, h.old, h.stamped, h.read⟩, rfl, rfl⟩
  have hnote : ∀ failedAt, Outline (exec who) (Keeping T W who ok)
      (fun _ => AtWork who (Reloaded T P mode newStamp table)) E
      (AtWork who (Reloaded T P mode newStamp table))
      (own fun m => { m with loadFailedAt := failedAt }) := by
    refine fun failedAt => (shares_own _ hdone hdoneStore).post (fun m s hs => hs.mono ?_)
      fun _ _ h => h
    rintro m' ⟨rfl, h⟩
    exact h.change rfl rfl rfl
  have hreturn : Outline (exec who) (Keeping T W who ok)
      (fun table => AtWork who (Reloaded T P mode newStamp table)) E
      (AtWork who (Reloaded T P mode newStamp table)) (pure table : StoreCode Table) :=
    Outline.pure (atWork_stable hdone) fun _ hs => hs
  refine Outline.bind hput fun memory => Outline.ite (fun _ => ?_) fun _ => ?_
  · exact Outline.bind (shares_skip .monotonic trivial kept_onDisk (atWork_stable hdone)) fun now =>
      Outline.bind (hnote (some now)) fun _ => hreturn
  · exact Outline.bind (hnote none) fun _ => hreturn

-- ===== the cache

def Rested (who : Who Pid) (s : StoreHost) : Prop :=
  (s.own who.process).loadError = true →
    ∃ failedAt, (s.own who.process).loadFailedAt = some failedAt ∧ failedAt + LOAD_RETRY ≤ s.clock

/-- What the memory is known to be when the cache is used: `fresh` of a
cache that was dropped before, `rested` of a pause that is over. -/
structure Ready (T : Terms) (P : StoreHost → Prop) (G : Option Nat → StoreHost → Prop) (mode : Mode)
    (fresh rested : Prop) (table : Table) (m : Memory) (s : StoreHost) : Prop where
  rest : P s
  memory : T.memory m s
  cache : m.cache = some table
  seen : G m.cacheStamp s
  read : fresh ∨ rested → mode.closes = false → m.loadError = false

section EnsureCache

variable {G : Option Nat → StoreHost → Prop} {fresh rested : Prop}

theorem ready_stable (hP : (Keeping T W who ok).Stable P)
    (hG : ∀ st, (Keeping T W who ok).Stable (G st)) (table : Table) (m : Memory) :
    (Keeping T W who ok).Stable (Ready T P G mode fresh rested table m) := fun s s' hr h =>
  ⟨hP s s' hr h.rest, memory_stable m s s' hr h.memory, h.cache, hG _ s s' hr h.seen, h.read⟩

variable (rested) in
/-- Whether a failed load is tried again: it is, when the pause is over. -/
theorem shares_retryFailed (m : Memory) {ψ : StoreHost → Prop} {E : Failure → StoreHost → Prop}
    (hψ : (Keeping T W who ok).Stable ψ)
    (hrested : rested → ∀ c s, AtWork who (fun m' s => m' = m ∧ ψ s) s → ok .monotonic c s →
      Rested who s)
    (hnow : rested → m.loadError = true → m.loadFailedAt.isSome = true) :
    Outline (exec who) (Keeping T W who ok)
      (fun retry s => AtWork who (fun m' s => m' = m ∧ ψ s) s
        ∧ (rested → m.loadError = true → retry = true)) E
      (AtWork who fun m' s => m' = m ∧ ψ s) (retryFailed m) := by
  have hpre : (Keeping T W who ok).Stable (AtWork who fun m' s => m' = m ∧ ψ s) :=
    atWork_stable fun m' => stable_and (sharing_true (m' = m)) hψ
  unfold retryFailed
  cases herror : m.loadError with
  | false => exact Outline.pure hpre fun s hs => ⟨hs, fun _ h => by cases h⟩
  | true =>
      cases hfailed : m.loadFailedAt with
      | none =>
          refine Outline.pure hpre fun s hs => ⟨hs, fun hr _ => ?_⟩
          have hsome := hnow hr herror
          rw [hfailed] at hsome
          cases hsome
      | some failedAt =>
          refine Outline.bind (shares_look .monotonic trivial
            (A := fun now _ => rested → failedAt + LOAD_RETRY ≤ now) kept_onDisk hpre
            (fun _ => sharing_true _) ?_) fun now => ?_
          · intro s c now hs hok hx hr
            cases hx
            obtain ⟨f, hf, hle⟩ := hrested hr c s hs hok (by rw [hs.2.1]; exact herror)
            rw [hs.2.1, hfailed] at hf
            cases hf
            exact hle
          · exact Outline.pure (stable_and hpre (sharing_true _))
              fun s hs => ⟨hs.1, fun hr _ => decide_eq_true (hs.2 hr)⟩

variable (mode G fresh rested) in
/-- What is used of the cache is what every step keeps, or was loaded
just now. -/
theorem shares_ensureCache {E : Failure → StoreHost → Prop}
    (hP : (Keeping T W who ok).Stable P) (hstore : OffMemory P)
    (hG : ∀ st, (Keeping T W who ok).Stable (G st)) (hGstore : ∀ st, OnStore (G st))
    (hGnow : ∀ s, P s → G s.stamp s)
    (hmode : ∀ op c s, P s → ok op c s → mode.Ok who.process op c s)
    (hrested : rested → ∀ op c s, P s → ok op c s → Rested who s) :
    Outline (exec who) (Keeping T W who ok)
      (fun table => AtWork who (Ready T P G mode fresh rested table)) E
      (AtWork who fun m s => P s ∧ T.memory m s ∧ (fresh → m.cache = none)) ensureCache := by
  have hstart : (Keeping T W who ok).Stable
      (AtWork who fun m s => P s ∧ T.memory m s ∧ (fresh → m.cache = none)) :=
    atWork_stable fun m => stable_and hP (stable_and (memory_stable m) (sharing_true _))
  have hseen : ∀ st, (Keeping T W who ok).Stable fun s => T.old st s ∧ G st s :=
    fun st => stable_and (old_stable st) (hG st)
  refine Outline.bind (shares_look (.stamp false) trivial (A := fun st s => T.old st s ∧ G st s)
    kept_onDisk hstart hseen fun s c st hs _ hx => ?_) fun newStamp => ?_
  · cases hx
    exact ⟨T.old_now s, hGnow s hs.2.1⟩
  -- what is known of the memory `m`, which stays as it is until the reload
  let ρ (m : Memory) (s : StoreHost) : Prop := ((P s ∧ T.old newStamp s ∧ G newStamp s)
    ∧ T.memory m s) ∧ (fresh → m.cache = none)
  have hρ : ∀ m, (Keeping T W who ok).Stable (ρ m) := fun m => stable_and (stable_and
    (stable_and hP (hseen newStamp)) (memory_stable m)) (sharing_true _)
  have hρstore : ∀ m, OffMemory (ρ m) := fun m s s' h hlock hs =>
    ⟨⟨⟨hstore s s' h hlock hs.1.1.1, T.old_same _ s s' h hs.1.1.2.1, hGstore _ s s' h hs.1.1.2.2⟩,
      T.memory_same m s s' h hs.1.2⟩, hs.2⟩
  have hpre := stable_and hstart (hseen newStamp)
  refine Outline.bind ((shares_own_seen id
    (A := fun m => rested → m.loadError = true → m.loadFailedAt.isSome = true) hρ hρstore ?_).pre
    hpre fun s hs => hs.1.mono fun m hm => ⟨⟨⟨hm.1, hs.2⟩, hm.2.1⟩, hm.2.2⟩) fun m => ?_
  · intro c s hs hok hr herror
    obtain ⟨failedAt, hfailed, -⟩ := hrested hr _ c s hs.2.1.1.1 hok herror
    rw [hfailed]
    rfl
  refine Outline.of_fact fun hfailed => ?_
  refine Outline.bind (shares_retryFailed rested m (hρ m)
    (fun hr c s hs hok => hrested hr _ c s hs.2.2.1.1.1 hok) hfailed) fun retry => ?_
  refine Outline.of_fact fun hretry => ?_
  have hmine : (Keeping T W who ok).Stable (AtWork who fun m' s => m' = m ∧ ρ m s) :=
    atWork_stable fun m' => stable_and (sharing_true (m' = m)) (hρ m)
  have hreload : Outline (exec who) (Keeping T W who ok)
      (fun table => AtWork who (Ready T P G mode fresh rested table)) E
      (AtWork who fun m' s => m' = m ∧ ρ m s) (reload newStamp) := by
    refine ((shares_reload mode newStamp
      (P := fun s => P s ∧ G newStamp s) (stable_and hP (hG newStamp))
      (offMemory_and hstore (hGstore newStamp).offMemory) fun op c s hs => hmode op c s hs.1).pre
      hmine fun s hs => hs.mono ?_).post (fun table s hs => hs.mono ?_) fun _ _ h => h
    · rintro m' ⟨-, ⟨⟨hp, hold, hg⟩, -⟩, -⟩
      exact ⟨⟨hp, hg⟩, hold⟩
    · intro m' h
      refine ⟨h.rest.1, T.loaded m' table newStamp s h.cache h.stamp h.old h.stamped, h.cache, ?_,
        fun _ => h.read⟩
      rw [h.stamp]
      exact h.rest.2
  cases hcache : m.cache with
  | none => exact hreload
  | some table =>
      refine Outline.ite (fun _ => hreload) fun hkeep => ?_
      have hstale : newStamp = m.cacheStamp ∧ retry = false := by
        by_cases hst : newStamp = m.cacheStamp
        · refine ⟨hst, Bool.eq_false_iff.2 fun h => hkeep ?_⟩
          rw [h, Bool.or_true]
        · refine absurd ?_ hkeep
          simp [hst]
      refine Outline.pure hmine fun s hs => hs.mono ?_
      rintro m' ⟨rfl, ⟨⟨hp, hold, hg⟩, hmemory⟩, hfresh⟩
      refine ⟨hp, hmemory, hcache, hstale.1 ▸ hg, fun hwhy _ => ?_⟩
      rcases hwhy with hf | hr
      · cases hcache.symm.trans (hfresh hf)
      · refine Bool.eq_false_iff.2 fun herror => ?_
        cases (hretry hr herror).symm.trans hstale.2

end EnsureCache

-- ===== committing

variable {n : Nat} {late : Prop} {mutate : Table → Table}
variable {R : Table → Option (Contents Payload) → Prop}

/-- The thread committed so often, and does not hold the file lock. -/
def At (who : Who Pid) (N : Nat → Prop) (s : StoreHost) : Prop :=
  N (commitCount who s) ∧ Free who s

theorem at_stable (N : Nat → Prop) : (Keeping T W who ok).Stable (At who N) :=
  stable_and (mine_stable fun cs => N cs.length) free_stable

theorem at_offMemory (N : Nat → Prop) : OffMemory (At who N) := by
  intro s s' h hlock hs
  refine ⟨?_, free_offMemory s s' h hlock hs.2⟩
  rw [commitCount_same h]
  exact hs.1

theorem shares_commit (hw : Write T W who ok n mutate R late)
    (hstamp : ∀ c s table, T.committed who table s → ok (.stamp true) c s →
      T.stamped table s.stamp s) :
    Outline (exec who) (Keeping T W who ok) (fun _ => Inside T who (At who (· = n + 1)))
      (fun _ => Inside T who (At who fun k => k = n ∨ late)) (Inside T who (At who (· = n)))
      (commit mutate) := by
  have hcount : (Keeping T W who ok).Stable (At who (· = n + 1)) := at_stable _
  have hcountStore : OffMemory (At who (· = n + 1)) := at_offMemory _
  refine Outline.bind (shares_transact hw) fun table => ?_
  have hleft : ∀ _ : Memory, (Keeping T W who ok).Stable
      fun s => At who (· = n + 1) s ∧ T.committed who table s :=
    fun _ => stable_and hcount (committed_stable table)
  have hleftStore : ∀ _ : Memory, OffMemory
      fun s => At who (· = n + 1) s ∧ T.committed who table s :=
    fun _ => offMemory_and hcountStore fun s s' h _ => T.committed_same who table s s' h
  refine Outline.bind ((shares_own _ hleft hleftStore).pre
    (inside_stable (stable_and (stable_and (mine_stable fun cs => cs.length = n + 1)
      (committed_stable table)) free_stable)) fun s hs =>
      hs.2.mono fun _ _ => ⟨⟨hs.1.1.1, hs.1.2⟩, hs.1.1.2⟩) fun m => ?_
  have hput : (Keeping T W who ok).Stable (AtWork who fun m' s =>
      m' = { m with cache := some table } ∧ At who (· = n + 1) s ∧ T.committed who table s) :=
    atWork_stable fun m' => stable_and (sharing_true _) (hleft m')
  have hseen : ∀ st, (Keeping T W who ok).Stable fun s => T.old st s ∧ T.stamped table st s :=
    fun st => stable_and (old_stable st) (stamped_stable table st)
  refine Outline.bind (shares_look (.stamp true) trivial
    (A := fun st s => T.old st s ∧ T.stamped table st s) kept_onDisk hput hseen
    fun s c st hs hok hx => ?_) fun newStamp => ?_
  · cases hx
    exact ⟨T.old_now s, hstamp c s table hs.2.2.2 hok⟩
  have hstamped : ∀ m', (Keeping T W who ok).Stable fun s =>
      m' = { m with cache := some table } ∧ At who (· = n + 1) s
        ∧ T.old newStamp s ∧ T.stamped table newStamp s :=
    fun m' => stable_and (sharing_true _) (stable_and hcount (hseen newStamp))
  have hstampedStore : ∀ m', OffMemory fun s =>
      m' = { m with cache := some table } ∧ At who (· = n + 1) s
        ∧ T.old newStamp s ∧ T.stamped table newStamp s := fun m' s s' h hlock hs =>
    ⟨hs.1, hcountStore s s' h hlock hs.2.1, T.old_same _ s s' h hs.2.2.1,
      T.stamped_same _ _ s s' h hs.2.2.2⟩
  refine Outline.bind ((shares_own _ hstamped hstampedStore).pre (stable_and hput (hseen newStamp))
    fun s hs => hs.1.mono fun m' hm => ⟨hm.1, hm.2.1, hs.2⟩) fun m' => ?_
  refine Outline.pure (atWork_stable fun _ => stable_and (sharing_true _) (hstamped _))
    fun s hs => ?_
  obtain ⟨hmutex, hown, rfl, hat, hold, htable⟩ := hs
  refine ⟨hat, hmutex, T.loaded _ table newStamp s ?_ ?_ hold fun _ => htable⟩
  · rw [hown]
  · rw [hown]

end Velune.Providers
