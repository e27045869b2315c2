/-
The caches and the store, over every interleaving of calls in several
processes.

What every step keeps of a memory nobody is at work on (`CacheTrue`): its
stamp is one the store had, and while it is still the store's stamp the
cache is the table on disk, unless the last load failed. A load keeps
this, because it takes the stamp first. A commit does not: it takes the
stamp after it released the file lock, when another write may have gone
between (`overtakenRun`). And a load that falls back to the backup leaves
a table that was not the store's (`backupRun`).
-/
import Velune.Providers.Proofs.Serving

namespace Velune.Providers

open Lib

-- ===== terms

def Old (st : Option Nat) (s : StoreHost) : Prop := ∀ k, st = some k → k ≤ s.mark

def TrueUnder (table : Table) (st : Option Nat) (s : StoreHost) : Prop :=
  Old st s ∧ (st = s.stamp → s.table = some table)

def LastTrue (who : Who Pid) (table : Table) (s : StoreHost) : Prop :=
  ∀ c, s.commits.getLast? = some c → c.thread = who.thread → s.table = some table

def CacheTrue (m : Memory) (s : StoreHost) : Prop :=
  Old m.cacheStamp s ∧ ∀ table, m.cache = some table → m.loadError = false →
    m.cacheStamp = s.stamp → s.table = some table

section Laws

variable {s s' : StoreHost} {c : Commit Payload} {st : Option Nat} {table : Table}

theorem same_table (h : Same s s') : s'.table = s.table := congrArg tableOf h.1

theorem same_stamp (h : Same s s') : s'.stamp = s.stamp := by
  unfold Host.stamp
  rw [h.1, h.2.1]

theorem old_same (h : Same s s') (hold : Old st s) : Old st s' :=
  fun k hk => h.2.1.symm ▸ hold k hk

theorem old_puts (h : Puts s s' c) (hold : Old st s) : Old st s' := by
  intro k hk
  have hle := hold k hk
  have hmark := h.2.2.1
  omega

theorem old_stale (h : Puts s s' c) (hold : Old st s) : st ≠ s'.stamp := by
  intro heq
  have hstamp : s'.stamp = some (s.mark + 1) := by
    unfold Host.stamp
    rw [h.2.1, h.2.2.1]
    rfl
  have hle := hold _ (heq.trans hstamp)
  omega

theorem old_now (s : StoreHost) : Old s.stamp s := by
  intro k hk
  unfold Host.stamp at hk
  cases hp : s.files .primary with
  | none =>
      rw [hp] at hk
      cases hk
  | some contents =>
      rw [hp] at hk
      cases hk
      exact Nat.le_refl _

theorem trueUnder_same (h : Same s s') (ht : TrueUnder table st s) : TrueUnder table st s' :=
  ⟨old_same h ht.1, fun heq => (same_table h).trans (ht.2 (heq.trans (same_stamp h)))⟩

theorem trueUnder_puts (h : Puts s s' c) (ht : TrueUnder table st s) : TrueUnder table st s' :=
  ⟨old_puts h ht.1, fun heq => absurd heq (old_stale h ht.1)⟩

end Laws

def cacheTerms : Terms where
  base _ := True
  memory := CacheTrue
  old := Old
  stamped := TrueUnder
  committed := LastTrue
  base_same _ _ _ _ := trivial
  base_puts _ _ _ _ _ := trivial
  memory_same m s s' h hm := ⟨old_same h hm.1, fun table hcache herror heq =>
    (same_table h).trans (hm.2 table hcache herror (heq.trans (same_stamp h)))⟩
  memory_puts m s s' c h hm := ⟨old_puts h hm.1, fun _ _ _ heq => absurd heq (old_stale h hm.1)⟩
  old_same _ _ _ := old_same
  old_puts _ _ _ _ := old_puts
  stamped_same _ _ _ _ := trueUnder_same
  stamped_puts _ _ _ _ _ := trueUnder_puts
  committed_same who table s s' h ht c hc hmine := by
    rw [h.2.2] at hc
    exact (same_table h).trans (ht c hc hmine)
  committed_puts who table s s' c hne h _ c' hc' hmine := by
    rw [h.2.2.2, List.getLast?_append] at hc'
    cases hc'
    exact absurd hmine hne
  fresh s := ⟨fun k hk => (by cases hk), fun _ h => by cases h⟩
  dropped m s hm := ⟨hm.1, fun _ h => by cases h⟩
  old_now := old_now
  stamped_now table st s hold ht := ⟨hold, fun _ => ht⟩
  committed_now who table s ht _ _ _ := ht
  loaded m table st s hcache hstamp hold ht := by
    subst hstamp
    refine ⟨hold, fun table' hcache' herror heq => ?_⟩
    cases hcache.symm.trans hcache'
    exact (ht herror).2 heq

-- ===== condition

def LastMine (who : Who Pid) (s : StoreHost) : Prop :=
  ∃ c, s.commits.getLast? = some c ∧ c.thread = who.thread

/-- A step after which the caches still agree with the store: a commit is
not overtaken before its stamp is taken, and a load goes well. -/
def coherentOk (mode : Nat → Nat → Mode) (who : Who Pid) (request : Request)
    (op : Op Payload Memory) (c : Choice) (s : StoreHost) : Prop :=
  (op = .stamp true → LastMine who s)
    ∧ (request.loadsAt (commitCount who s) = true → Free who s →
      (mode who.thread (commitCount who s)).Ok who.process op c s)
    ∧ (request = .repairKeystore → (mode who.thread (commitCount who s)).closes = false)

theorem coherent_write (mode : Nat → Nat → Mode) (who : Who Pid) (request : Request) (n : Nat)
    (mutate : Table → Table) : Write cacheTerms (fun _ _ => True) who (coherentOk mode who request) n
      mutate (fun _ _ => True) True where
  read := by
    have hcount : OnFiles fun s => commitCount who s = n := count_onFiles (· = n)
    exact (shares_reading readStore_uses (holding_stable hcount) (holding_onDisk hcount)).post
      (fun _ _ hs => holding_mono (fun _ h => ⟨h, trivial⟩) hs) fun _ _ hs => hs
  puts _ _ _ _ _ := trivial
  restrict _ _ _ _ := trivial
  back φ hφ _ := (decode_sound kept_onDisk (holding_stable hφ) (holding_onDisk hφ)
    (holding_table hφ)).post (fun _ _ hs => hs.2) fun _ _ hs => holding_mono (fun _ _ => trivial) hs.1

theorem coherent_served (mode : Nat → Nat → Mode) (who : Who Pid) (request : Request) :
    Served cacheTerms (fun _ _ => True) who (coherentOk mode who request) True request where
  load n hn := load_of_mode (mode who.thread n) fun op c s hat hok => by
    have hmode := hok.2.1
    rw [hat.1] at hmode
    exact hmode hn hat.2
  write n mutate _ := ⟨_, coherent_write mode who request n mutate⟩
  stamp c s table hlast hok := by
    obtain ⟨c, hc, hmine⟩ := hok.1 rfl
    exact ⟨old_now s, fun _ => hlast c hc hmine⟩
  read _ := ((shares_reading readStore_uses (at_stable (· = 0)) (at_offMemory (· = 0)).onDisk).pre
    (stable_and (at_stable _) inv_stable) fun _ hs => hs.1)
  look hrequest := by
    subst hrequest
    cases hopen : (mode who.thread 0).closes with
    | false =>
        refine look_of_mode hopen fun op c s hat hok => ?_
        have hmode := hok.2.1
        rw [hat.1] at hmode
        exact hmode rfl hat.2
    | true =>
        refine unreached (stable_and (at_stable _) inv_stable) fun _ s hs hok => ?_
        have hnever := hok.2.2 rfl
        rw [hs.1.1, hopen] at hnever
        cases hnever

-- ===== answers

def Request.gets : Request → Bool
  | .getProvider _ => true
  | .getAllProviders => true
  | _ => false

def Request.answer (table : Table) : Request → Reply
  | .getProvider providerId => .record (table.get? providerId)
  | .getAllProviders => .table table
  | _ => .done

/-- At the steps of thread `n` the store is readable: the source gives its
key, and the pause after a failed load is over. -/
def readable (n : Nat) (source : Source) (key : MasterKey) (who : Who Pid) (_ : Request)
    (op : Op Payload Memory) (c : Choice) (s : StoreHost) : Prop :=
  who.thread = n → (Mode.via source key).Ok who.process op c s ∧ Rested who s

/-- What holds at the end of a run: a call to read the cache, during which
no write is in progress and the store is readable, has returned what the
table on disk says, once it is over. -/
def CoherentRun (s₀ : StoreHost) (es : List StoreEvent) (w : StoreWorld) : Prop :=
  ∀ before i request during source key w₁, es = before ++ .begin i request :: during →
    run storeMachine.step before ⟨s₀, []⟩ = some w₁ → request.gets = true →
    Meets storeMachine.step (fun _ v => v.shared.lock = none) (.begin i request :: during) w₁ →
    Meets storeMachine.step (Machine.Fine (readable w₁.threads.length source key) fun _ _ => True)
      (.begin i request :: during) w₁ →
    ∀ t p, w.threads[w₁.threads.length]? = some t → t.code = some p → p.isOver = true →
      ∃ table, w.shared.table = some table ∧ p = .ret (request.answer table)

def Coherent (mode : Nat → Nat → Mode) : StoreEvent → StoreWorld → Prop :=
  Machine.Fine (coherentOk mode) fun _ _ => True

def cacheDiscipline (mode : Nat → Nat → Mode) : Discipline storeMachine :=
  storeDiscipline cacheTerms (fun _ _ _ => True) True (coherentOk mode) (coherent_served mode)

def Since (mark : Nat) (table : Table) (s : StoreHost) : Prop :=
  mark ≤ s.mark ∧ (s.mark = mark → s.table = some table)

theorem mark_le {s s' : StoreHost} {who : Who Pid} {I : StoreHost → Prop} (h : Rely I who s s') :
    s.mark ≤ s'.mark := by
  rcases h.store with hsame | ⟨c, -, hputs⟩
  · exact Nat.le_of_eq hsame.2.1.symm
  · have hmark := hputs.2.2.1
    omega

theorem since_same {mark : Nat} {table : Table} {s s' : StoreHost} (h : Same s s')
    (hs : Since mark table s) : Since mark table s' :=
  ⟨h.2.1.symm ▸ hs.1, fun hm => (same_table h).trans (hs.2 (h.2.1.symm.trans hm))⟩

theorem since_puts {mark : Nat} {table : Table} {s s' : StoreHost} {c : Commit Payload}
    (h : Puts s s' c) (hs : Since mark table s) : Since mark table s' := by
  have hmark := h.2.2.1
  exact ⟨by have hle := hs.1; omega, fun hm => by have hle := hs.1; omega⟩

/-- What the cache answers where the store is readable: the table on disk,
if the store stays as it was. -/
theorem ensureCache_true {who : Who Pid} {source : Source} {key : MasterKey} (mark : Nat) :
    Outline (exec who) (Keeping cacheTerms (fun _ _ => True) who fun op c s =>
        (Mode.via source key).Ok who.process op c s ∧ Rested who s)
      (fun table => Inside cacheTerms who (Since mark table)) (fun _ _ => False)
      (Inside cacheTerms who fun s => mark ≤ s.mark) ensureCache := by
  have hmark : (Keeping cacheTerms (fun _ _ => True) who fun op c s =>
      (Mode.via source key).Ok who.process op c s ∧ Rested who s).Stable fun s => mark ≤ s.mark :=
    fun s s' hr hs => Nat.le_trans hs (mark_le hr)
  have hmarkStore : OffMemory fun s => mark ≤ s.mark :=
    fun s s' h _ hs => Nat.le_trans hs (Nat.le_of_eq h.2.1.symm)
  -- the stamp that was seen is the store's as long as the mark is the same
  let G (st : Option Nat) (s : StoreHost) : Prop := mark ≤ s.mark ∧ (s.mark = mark → st = s.stamp)
  have hsame : ∀ st, OnStore (G st) := fun st s s' h hs =>
    ⟨h.2.1.symm ▸ hs.1, fun hm => (hs.2 (h.2.1.symm.trans hm)).trans (same_stamp h).symm⟩
  have hG : ∀ st, (Keeping cacheTerms (fun _ _ => True) who fun op c s =>
      (Mode.via source key).Ok who.process op c s ∧ Rested who s).Stable (G st) := by
    refine fun st => stable_of (hsame st) fun s s' c _ h hs => ?_
    have hnext := h.2.2.1
    have hle := hs.1
    exact ⟨by omega, fun hm => by omega⟩
  refine ((shares_ensureCache (.via source key) G False True
    hmark hmarkStore hG hsame (fun s hs => ⟨hs, fun _ => rfl⟩) (fun op c s _ hok => hok.1)
    fun _ op c s _ hok => hok.2).pre (inside_stable hmark)
    fun s hs => hs.2.mono fun m hm => ⟨hs.1, hm, fun h => h.elim⟩).post (fun table s hs => ?_)
    fun _ _ h => h
  obtain ⟨hmutex, h⟩ := hs
  refine ⟨⟨h.rest, fun hm => ?_⟩, hmutex, h.memory⟩
  exact h.memory.2 table h.cache (h.read (Or.inr trivial) rfl) (h.seen.2 hm)

theorem gets_true (who : Who Pid) (source : Source) (key : MasterKey) (mark : Nat)
    {request : Request} (hgets : request.gets = true) :
    Outline (exec who) (Keeping cacheTerms (fun _ _ => True) who fun op c s =>
        (Mode.via source key).Ok who.process op c s ∧ Rested who s)
      (fun r s => ∃ table, r = request.answer table ∧ Since mark table s) (fun _ _ => False)
      (fun s => mark ≤ s.mark ∧ cacheTerms.Kept s) request.program := by
  have hmark : (Keeping cacheTerms (fun _ _ => True) who fun op c s =>
      (Mode.via source key).Ok who.process op c s ∧ Rested who s).Stable fun s => mark ≤ s.mark :=
    fun s s' hr hs => Nat.le_trans hs (mark_le hr)
  have hmarkStore : OffMemory fun s => mark ≤ s.mark :=
    fun s s' h _ hs => Nat.le_trans hs (Nat.le_of_eq h.2.1.symm)
  have hsince : ∀ table, (Keeping cacheTerms (fun _ _ => True) who fun op c s =>
      (Mode.via source key).Ok who.process op c s ∧ Rested who s).Stable (Since mark table) :=
    fun table => stable_of (fun _ _ => since_same) fun _ _ _ _ => since_puts
  have hsinceStore : ∀ table, OffMemory (Since mark table) := fun table s s' h _ => since_same h
  cases request with
  | getProvider providerId =>
      have hrecord : ∀ record : Option Record, (Keeping cacheTerms (fun _ _ => True) who fun op c s =>
          (Mode.via source key).Ok who.process op c s ∧ Rested who s).Stable
          fun s => ∃ table, record = Assoc.get? table providerId ∧ Since mark table s :=
        fun record s s' hr ⟨table, heq, hs⟩ => ⟨table, heq, hsince table s s' hr hs⟩
      refine Outline.bind (Q := fun record s =>
        ∃ table, record = Assoc.get? table providerId ∧ Since mark table s)
        (shares_withCacheLock (E := fun _ _ => False) hmark hmarkStore hrecord
          (fun record s s' h hlock ⟨table, heq, hs⟩ => ⟨table, heq, hsinceStore table s s' h hlock hs⟩)
          (fun _ _ _ _ h => h) (fun _ _ _ _ _ h => h) (Outline.bind
            ((ensureCache_true mark).post (fun _ _ hs => hs) fun _ _ h => h.elim) fun table => ?_))
        fun record => ?_
      · exact Outline.pure (inside_stable (hsince table)) fun s hs => ⟨⟨table, rfl, hs.1⟩, hs.2⟩
      · refine Outline.pure (hrecord record) fun s hs => ?_
        obtain ⟨table, rfl, hs⟩ := hs
        exact ⟨table, rfl, hs⟩
  | getAllProviders =>
      refine Outline.bind (Q := Since mark) (shares_withCacheLock (E := fun _ _ => False) hmark
        hmarkStore hsince hsinceStore (fun _ _ _ _ h => h) (fun _ _ _ _ _ h => h)
        ((ensureCache_true mark).post (fun _ _ hs => hs) fun _ _ h => h.elim)) fun table => ?_
      exact Outline.pure (hsince table) fun s hs => ⟨table, rfl, hs⟩
  | _ => cases hgets

-- ===== runs

theorem mark_unlocked {d : Discipline storeMachine} {W : Request → Option (Contents Payload) → Contents Payload → Prop}
    {T : Terms} (hguar : ∀ who request s s', d.guar who request s s' → Guar (W request) T.Kept who s s')
    {es : List StoreEvent} {w w' : StoreWorld} (hinv : d.Inv w)
    (hfine : Meets storeMachine.step (Machine.Fine d.okOp d.okEnv) es w)
    (hfree : Meets storeMachine.step (fun _ v => v.shared.lock = none) es w)
    (hrun : run storeMachine.step es w = some w') : w'.shared.mark = w.shared.mark := by
  refine (run_preserves_of (P := fun v => v.shared.mark = w.shared.mark ∧ d.Inv v) ?_
    (hfine.and hfree) ⟨rfl, hinv⟩ hrun).1
  rintro e v v' ⟨hf, hlock⟩ ⟨hmark, hv⟩ hstep
  refine ⟨?_, hv.step hf hstep⟩
  rcases hv.change hf hstep with heq | ⟨n, t, c, -, -, hg⟩ | ⟨i, -, heq⟩ | ⟨x, -, hx⟩
  · rw [heq]
    exact hmark
  · have hfiles := (hguar _ _ _ _ hg).files fun hheld => by cases hlock.symm.trans hheld
    exact hfiles.2.1.trans hmark
  · rw [heq]
    exact hmark
  · have heq : v.shared.change x = v'.shared := Option.some.inj hx
    rw [← heq]
    cases x <;> exact hmark

/-- The caches agree with the store, in every run in which no commit is
overtaken before its stamp is taken and every load goes well. -/
theorem caches_agree (mode : Nat → Nat → Mode) (s₀ : StoreHost) (hs₀ : Idle s₀)
    (es : List StoreEvent) (w : StoreWorld)
    (hcoherent : Meets storeMachine.step (Coherent mode) es ⟨s₀, []⟩)
    (hrun : run storeMachine.step es ⟨s₀, []⟩ = some w) : CoherentRun s₀ es w := by
  intro before i request during source key w₁ hes hbefore hgets hfree hreadable t p ht hp hover
  subst hes
  have hinv : (cacheDiscipline mode).Inv w₁ := by
    refine Discipline.kept (meets_take hcoherent) (Discipline.inv_start fun who => ?_) hbefore
    exact idle_start hs₀ trivial who
  have hfine := meets_drop hcoherent hbefore
  have hduring := run_drop hrun hbefore
  have hkept : cacheTerms.Kept w₁.shared :=
    (hinv.idle ⟨w₁.threads.length, 0⟩ (Nat.le_refl _)).2
  have hfollows := Discipline.call_ends (d := cacheDiscipline mode) rfl hinv (hfine.and hreadable)
    hduring (gets_true ⟨w₁.threads.length, i⟩ source key w₁.shared.mark hgets) ⟨Nat.le_refl _, hkept⟩ ?_ (fun _ _ h => h) t ht
  · have hmark := mark_unlocked (fun _ _ _ _ h => h) hinv hfine hfree hduring
    cases p with
    | ret r =>
        obtain ⟨table, rfl, -, hs⟩ := hfollows.returned hp
        exact ⟨table, hs hmark, rfl⟩
    | raise e => exact (hfollows.raised hp).elim
    | call op rest => cases hover
  · intro c v u op rest hr hu howner hrequest hcode _
    have hok := hr.at hu hcode
    rw [howner] at hok
    exact hok rfl

-- ===== concrete

instance (op : Op Payload Memory) : Decidable (op = .stamp true) :=
  match op with
  | .stamp true => isTrue rfl
  | .stamp false => isFalse (by simp)
  | .getPassword _ | .generateKey | .setPassword _ | .environ | .readPassphrase | .emptyPassphrase
  | .writePassphrase _ | .prompt | .encrypt _ _ | .fileExists _ | .size _ | .readBytes _
  | .truncate _ | .writeBytes _ _ | .copy _ _ | .setAside | .rename | .quarantine | .restrict
  | .unlink _ | .acquire | .release | .enter | .leave | .own _ | .monotonic => isFalse (by simp)

instance (who : Who Pid) (s : StoreHost) : Decidable (LastMine who s) :=
  match h : s.commits.getLast? with
  | none => isFalse fun ⟨_, hc, _⟩ => by cases h.symm.trans hc
  | some c => decidable_of_iff (c.thread = who.thread)
      ⟨fun hmine => ⟨c, h, hmine⟩, fun ⟨c', hc, hmine⟩ => by
        cases h.symm.trans hc
        exact hmine⟩

instance (who : Who Pid) (s : StoreHost) : Decidable (Rested who s) :=
  match h : (s.own who.process).loadFailedAt with
  | none => decidable_of_iff ((s.own who.process).loadError = true → False)
      ⟨fun hr he => (hr he).elim, fun hr he => by
        obtain ⟨f, hf, -⟩ := hr he
        cases h.symm.trans hf⟩
  | some failedAt => decidable_of_iff ((s.own who.process).loadError = true →
        failedAt + LOAD_RETRY ≤ s.clock)
      ⟨fun hr he => ⟨failedAt, h, hr he⟩, fun hr he => by
        obtain ⟨f, hf, hle⟩ := hr he
        cases h.symm.trans hf
        exact hle⟩

instance (who : Who Pid) (s : StoreHost) : Decidable (Free who s) :=
  inferInstanceAs (Decidable (¬ _ = _))

instance (mode : Nat → Nat → Mode) (who : Who Pid) (request : Request) (op : Op Payload Memory)
    (c : Choice) (s : StoreHost) : Decidable (coherentOk mode who request op c s) :=
  inferInstanceAs (Decidable ((_ → LastMine who s) ∧ (_ → Free who s → Mode.Ok _ _ _ _ _) ∧ (_ → _)))

instance (n : Nat) (source : Source) (key : MasterKey) (who : Who Pid) (request : Request)
    (op : Op Payload Memory) (c : Choice) (s : StoreHost) :
    Decidable (readable n source key who request op c s) :=
  inferInstanceAs (Decidable (_ → Mode.Ok _ _ _ _ _ ∧ Rested who s))

def sharedRun : List StoreEvent :=
  .begin 0 (save "b") :: advances 0 24 ++ .begin 1 (.getProvider "b".toList) :: advances 1 10

theorem sharedRun_coherent : ∃ w, run storeMachine.step sharedRun ⟨storeHost true (some savedStore) none, []⟩
    = some w ∧ CoherentRun (storeHost true (some savedStore) none) sharedRun w := by
  have hsome : (run storeMachine.step sharedRun ⟨storeHost true (some savedStore) none, []⟩).isSome
      = true := by decide +kernel
  obtain ⟨w, hw⟩ := Option.isSome_iff_exists.1 hsome
  have hcoherent : Meets storeMachine.step (Coherent fun _ _ => .via .keyring (.random 0)) sharedRun
      ⟨storeHost true (some savedStore) none, []⟩ := by
    unfold Coherent
    decide +kernel
  exact ⟨w, hw, caches_agree _ _ (storeHost_idle _ _ _) sharedRun w hcoherent hw⟩

theorem incoherent {s₀ : StoreHost} {before during : List StoreEvent} {i : Pid} {request : Request}
    (n : Nat) (table : Table) (reply : Reply)
    (hbefore : (run storeMachine.step before ⟨s₀, []⟩).map (fun w₁ => (w₁.threads.length,
      decide (Meets storeMachine.step (fun _ v => v.shared.lock = none)
        (.begin i request :: during) w₁),
      decide (Meets storeMachine.step (Machine.Fine (readable w₁.threads.length .keyring (.random 0))
        fun _ _ => True) (.begin i request :: during) w₁))) = some (n, true, true))
    (hafter : (run storeMachine.step (before ++ .begin i request :: during) ⟨s₀, []⟩).map (fun w =>
      (w.shared.table, replyOf w n)) = some (some table, some reply))
    (hgets : request.gets = true) (hne : reply ≠ request.answer table) :
    ¬ ∀ w, run storeMachine.step (before ++ .begin i request :: during) ⟨s₀, []⟩ = some w →
      CoherentRun s₀ (before ++ .begin i request :: during) w := by
  intro h
  obtain ⟨w₁, hw₁, hpair⟩ := Option.map_eq_some_iff.1 hbefore
  obtain ⟨w, hw, hend⟩ := Option.map_eq_some_iff.1 hafter
  obtain ⟨hlength, hconditions⟩ := Prod.mk.inj hpair
  obtain ⟨hfree, hreadable⟩ := Prod.mk.inj hconditions
  obtain ⟨htable, hreply⟩ := Prod.mk.inj hend
  obtain ⟨p, hcode, hreturned⟩ := Option.bind_eq_some_iff.1 hreply
  obtain ⟨t, ht, hp⟩ := Option.bind_eq_some_iff.1 hcode
  have hover : p.isOver = true := by
    cases p with
    | call op rest => cases hreturned
    | _ => rfl
  obtain ⟨table', htable', hanswer⟩ := h w hw before i request during .keyring (.random 0) w₁ rfl hw₁
    hgets (of_decide_eq_true hfree) (of_decide_eq_true hreadable) t p (hlength ▸ ht) hp hover
  cases htable.symm.trans htable'
  rw [hanswer] at hreturned
  exact hne (Option.some.inj hreturned).symm

def overtakenRun : List StoreEvent :=
  .begin 0 (save "b") :: advances 0 20 ++ .begin 1 (save "c") :: advances 1 24 ++ advances 0 4

def backupRun : List StoreEvent :=
  .begin 0 .getAllProviders :: advances 0 21 ++ [.env (.answering true)]

/-- Both fail on the code: a process that has just committed goes on
serving a table without the other's record, and one that once read the
backup goes on serving that. -/
theorem caches_stale :
    (¬ ∀ w, run storeMachine.step
        (overtakenRun ++ .begin 0 (.getProvider "c".toList) :: advances 2 4)
          ⟨storeHost true (some savedStore) none, []⟩ = some w →
        CoherentRun (storeHost true (some savedStore) none)
          (overtakenRun ++ .begin 0 (.getProvider "c".toList) :: advances 2 4) w)
      ∧ ¬ ∀ w, run storeMachine.step
        (backupRun ++ .begin 0 (.getProvider "a".toList) :: advances 1 4) ⟨lockedHost, []⟩ = some w →
        CoherentRun lockedHost (backupRun ++ .begin 0 (.getProvider "a".toList) :: advances 1 4) w := by
  refine ⟨incoherent 2 [("a".toList, [("key".toList, .str "k".toList)]),
    ("b".toList, savedRecord "k".toList "unverified".toList "now".toList),
    ("c".toList, savedRecord "k".toList "unverified".toList "now".toList)] (.record none)
    ?_ ?_ rfl (by decide +kernel), incoherent 1 savedTable (.record none) ?_ ?_ rfl (by decide +kernel)⟩
  · decide +kernel
  · decide +kernel
  · decide +kernel
  · decide +kernel

end Velune.Providers
