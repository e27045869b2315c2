/-
The calls of the store as a machine: processes that read, write and
repair it, among changes of the key sources.

What a call owes the others is put together from what its parts were
shown to do (`serves`); the two results about the store, that what was
saved is kept and that the caches agree with it, choose the terms and
what a step has to meet.
-/
import Velune.Providers.Proofs.Loading

namespace Velune.Providers

open Lib

-- ===== machine

inductive Request
  | getProvider (providerId : PyStr)
  | getAllProviders
  | saveProvider (providerId key status now : PyStr)
  | updateStatus (providerId status now : PyStr) (extra : Record)
  | deleteProvider (providerId : PyStr)
  | readStore
  | repairKeystore
  deriving DecidableEq

instance : Inhabited Request := ⟨.getAllProviders⟩

inductive Reply
  | done
  | record (record : Option Record)
  | table (table : Table)
  deriving DecidableEq

def Request.program : Request → StoreCode Reply
  | .getProvider providerId => do
      let record ← Velune.Providers.getProvider providerId
      pure (.record record)
  | .getAllProviders => do
      let table ← Velune.Providers.getAllProviders
      pure (.table table)
  | .saveProvider providerId key status now => do
      Velune.Providers.saveProvider providerId key status now
      pure .done
  | .updateStatus providerId status now extra => do
      Velune.Providers.updateStatus providerId status now extra
      pure .done
  | .deleteProvider providerId => do
      Velune.Providers.deleteProvider providerId
      pure .done
  | .readStore => do
      let r ← Velune.Providers.readStore
      pure (.table r.1)
  | .repairKeystore => do
      Velune.Providers.repairKeystore
      pure .done

def storeMachine :
    Machine (Op Payload Memory) (Ans Payload Memory) Failure Reply Choice StoreHost Pid Request
      Change where
  program := Request.program
  exec := exec
  crash := Host.crash {}
  env e s := some (s.change e)

abbrev StoreWorld :=
  World (Op Payload Memory) (Ans Payload Memory) Failure Reply StoreHost Pid Request

abbrev StoreThread := Thread (Op Payload Memory) (Ans Payload Memory) Failure Reply Pid Request

abbrev StoreEvent := Event Choice Pid Request Change

/-- Nobody is at work, and nothing was remembered or committed yet. -/
structure Idle (s : StoreHost) : Prop where
  lock : s.lock = none
  mutex : ∀ i, s.mutex i = none
  own : ∀ i, s.own i = {}
  commits : s.commits = []

def Request.mutates : Request → (Table → Table) → Prop
  | .saveProvider providerId key status now, mutate =>
      mutate = applySave providerId (savedRecord key status now)
  | .updateStatus providerId status now extra, mutate =>
      mutate = applyStatus providerId status now extra
  | .deleteProvider providerId, mutate => mutate = applyDelete providerId
  | .repairKeystore, mutate => ∃ providerId, mutate = applyDelete providerId
  | _, _ => False

def Request.done : Request → Nat → Prop
  | .saveProvider _ _ _ _, n => n = 1
  | .updateStatus _ _ _ _, n => n ≤ 1
  | .deleteProvider _, n => n ≤ 1
  | .repairKeystore, _ => True
  | _, n => n = 0

/-- Whether a call uses the cache after so many commits of its own. -/
def Request.loadsAt : Request → Nat → Bool
  | .saveProvider _ _ _ _, _ => false
  | .readStore, _ => false
  | .repairKeystore, _ => true
  | _, n => n = 0

def Request.failed (request : Request) (late : Prop) (n : Nat) : Prop :=
  request = .repairKeystore ∨ n = 0 ∨ late

-- ===== the parts

variable {T : Terms} {W : Option (Contents Payload) → Contents Payload → Prop}
variable {who : Who Pid} {ok : Op Payload Memory → Choice → StoreHost → Prop}
variable {late : Prop} {request : Request} {α : Type}

/-- What `repairKeystore` looks at first. -/
def repairLook : StoreCode Memory := withCacheLock do
  let _ ← own fun m => { m with cache := none }
  let _ ← ensureCache
  own id

structure Served (T : Terms) (W : Option (Contents Payload) → Contents Payload → Prop)
    (who : Who Pid) (ok : Op Payload Memory → Choice → StoreHost → Prop) (late : Prop)
    (request : Request) : Prop where
  load : ∀ n, request.loadsAt n = true → Outline (exec who) (Keeping T W who ok)
    (fun _ => Inside T who (At who (· = n))) (fun _ => Inside T who (At who (· = n)))
    (Inside T who (At who (· = n))) ensureCache
  write : ∀ n mutate, request.mutates mutate → ∃ R, Write T W who ok n mutate R late
  stamp : ∀ c s table, T.committed who table s → ok (.stamp true) c s → T.stamped table s.stamp s
  read : request = .readStore → Outline (exec who) (Keeping T W who ok)
    (fun _ => At who (· = 0)) (fun _ => At who (· = 0)) (fun s => At who (· = 0) s ∧ T.Kept s)
    readStore
  look : request = .repairKeystore → Outline (exec who) (Keeping T W who ok)
    (fun m s => At who (· = 0) s ∧ m.loadError = false) (fun _ => At who (· = 0))
    (fun s => At who (· = 0) s ∧ T.Kept s) repairLook

/-- `T.Kept` may be counted on again afterwards. -/
theorem still_kept {p : StoreCode α} {P : StoreHost → Prop} {Q : α → StoreHost → Prop}
    {E : Failure → StoreHost → Prop}
    (h : Outline (exec who) (Keeping T W who ok) Q E (fun s => P s ∧ T.Kept s) p) :
    Outline (exec who) (Keeping T W who ok) (fun a s => Q a s ∧ T.Kept s) E
      (fun s => P s ∧ T.Kept s) p :=
  ((h.frame inv_stable fun _ _ hguar => hguar.inv).pre h.stable fun _ hs => ⟨hs, hs.2⟩).post
    (fun _ _ hs => hs) fun _ _ hs => hs.1

theorem at_mono {N N' : Nat → Prop} {s : StoreHost} (h : ∀ n, N n → N' n) (hs : At who N s) :
    At who N' s := ⟨h _ hs.1, hs.2⟩

theorem serves_bracket {body : StoreCode α} {N M : Nat → Prop} {n : Nat}
    (h : Outline (exec who) (Keeping T W who ok) (fun _ => Inside T who (At who N))
      (fun _ => Inside T who (At who M)) (Inside T who (At who (· = n))) body) :
    Outline (exec who) (Keeping T W who ok) (fun _ => At who N) (fun _ => At who M)
      (fun s => At who (· = n) s ∧ T.Kept s) (withCacheLock body) :=
  shares_withCacheLock (at_stable _) (at_offMemory _) (fun _ => at_stable _)
    (fun _ => at_offMemory _) (fun _ => at_stable _) (fun _ => at_offMemory _) h

theorem serves_commit (h : Served T W who ok late request) {n : Nat} {mutate : Table → Table}
    (hm : request.mutates mutate) :
    Outline (exec who) (Keeping T W who ok) (fun _ => Inside T who (At who (· = n + 1)))
      (fun _ => Inside T who (At who fun k => k = n ∨ late)) (Inside T who (At who (· = n)))
      (commit mutate) := by
  obtain ⟨R, hw⟩ := h.write n mutate hm
  exact shares_commit hw h.stamp

theorem serves_known (h : Served T W who ok late request) {n : Nat} {providerId : PyStr}
    {mutate : Table → Table} (hm : request.mutates mutate) (hload : request.loadsAt n = true) :
    Outline (exec who) (Keeping T W who ok) (fun _ => At who fun k => k = n ∨ k = n + 1)
      (fun _ => At who fun k => k = n ∨ late) (fun s => At who (· = n) s ∧ T.Kept s)
      (commitKnown providerId mutate) := by
  refine serves_bracket (Outline.bind ((h.load n hload).post (fun _ _ hs => hs)
    fun _ s hs => ⟨at_mono (fun _ h => Or.inl h) hs.1, hs.2⟩) fun table => ?_)
  refine Outline.ite (fun _ => ?_) fun _ => ?_
  · exact (serves_commit h hm).post (fun _ s hs => ⟨at_mono (fun _ h => Or.inr h) hs.1, hs.2⟩)
      fun _ _ hs => hs
  · exact Outline.pure (inside_stable (at_stable _))
      fun s hs => ⟨at_mono (fun _ h => Or.inl h) hs.1, hs.2⟩

theorem serves_deleteAll (h : Served T W who ok late .repairKeystore) :
    ∀ providerIds : List PyStr, Outline (exec who) (Keeping T W who ok)
      (fun _ => At who fun _ => True) (fun _ => At who fun _ => True)
      (fun s => At who (fun _ => True) s ∧ T.Kept s) (deleteAll providerIds)
  | [] => Outline.pure (stable_and (at_stable _) inv_stable) fun _ hs => hs.1
  | providerId :: rest => by
      have hone : ∀ n, Outline (exec who) (Keeping T W who ok)
          (fun _ s => At who (fun _ => True) s ∧ T.Kept s) (fun _ => At who fun _ => True)
          (fun s => At who (· = n) s ∧ T.Kept s) (deleteProvider providerId) := fun n =>
        (still_kept (serves_known h ⟨providerId, rfl⟩ rfl)).post
          (fun _ s hs => ⟨at_mono (fun _ _ => trivial) hs.1, hs.2⟩)
          fun _ s hs => at_mono (fun _ _ => trivial) hs
      refine Outline.bind ((Outline.of_exists hone).pre (stable_and (at_stable _) inv_stable)
        fun s hs => ⟨commitCount who s, ⟨rfl, hs.1.2⟩, hs.2⟩) fun _ => ?_
      exact serves_deleteAll h rest

theorem serves_repair (h : Served T W who ok late .repairKeystore) :
    Outline (exec who) (Keeping T W who ok) (fun _ => At who fun _ => True)
      (fun _ => At who fun _ => True) (fun s => At who (· = 0) s ∧ T.Kept s) repairKeystore := by
  have hall : ∀ {β : Type} {p : StoreCode β} {Q : β → StoreHost → Prop} {N : Nat → Prop},
      Outline (exec who) (Keeping T W who ok) Q (fun _ => At who N)
        (fun s => At who (· = 0) s ∧ T.Kept s) p →
      Outline (exec who) (Keeping T W who ok) (fun a s => Q a s ∧ T.Kept s)
        (fun _ => At who fun _ => True) (fun s => At who (· = 0) s ∧ T.Kept s) p :=
    fun hp => (still_kept hp).post (fun _ _ hs => hs) fun _ s hs => at_mono (fun _ _ => trivial) hs
  refine Outline.bind (hall (h.look rfl)) fun memory => ?_
  refine Outline.pre (P := fun s => (At who (· = 0) s ∧ T.Kept s) ∧ memory.loadError = false)
    (Outline.of_fact fun herror => ?_)
    (stable_and (stable_and (at_stable _) (sharing_true _)) inv_stable)
    fun s hs => ⟨⟨hs.1.1, hs.2⟩, hs.1.2⟩
  -- nothing is wrong, and only the records without a key are looked for
  rw [herror]
  refine Outline.bind (hall (serves_bracket (h.load 0 rfl))) fun current => ?_
  exact (serves_deleteAll h _).pre (stable_and (at_stable _) inv_stable)
    fun s hs => ⟨at_mono (fun _ _ => trivial) hs.1, hs.2⟩

theorem serves (h : Served T W who ok late request) :
    Outline (exec who) (Keeping T W who ok) (fun _ => At who request.done)
      (fun _ => At who (request.failed late)) (fun s => At who (· = 0) s ∧ T.Kept s)
      request.program := by
  have hreply : ∀ {β : Type} {p : StoreCode β} {reply : β → Reply} {N M : Nat → Prop},
      Outline (exec who) (Keeping T W who ok) (fun _ => At who N) (fun _ => At who M)
        (fun s => At who (· = 0) s ∧ T.Kept s) p →
      (∀ n, N n → request.done n) → (∀ n, M n → request.failed late n) →
      Outline (exec who) (Keeping T W who ok) (fun _ => At who request.done)
        (fun _ => At who (request.failed late)) (fun s => At who (· = 0) s ∧ T.Kept s)
        (p >>= fun b => pure (reply b)) := by
    intro β p reply N M hp hN hM
    refine Outline.bind (hp.post (fun _ _ hs => hs) fun _ s hs => at_mono hM hs) fun b => ?_
    exact Outline.pure (at_stable _) fun s hs => at_mono hN hs
  have hlate : ∀ n, (n = 0 ∨ late) → request.failed late n := fun _ hn => Or.inr hn
  have hnone : ∀ n, n = 0 → request.failed late n := fun _ hn => Or.inr (Or.inl hn)
  have hone : ∀ n, (n = 0 ∨ n = 0 + 1) → n ≤ 1 := by omega
  cases request with
  | getProvider providerId =>
      refine hreply (serves_bracket (Outline.bind (h.load 0 rfl) fun table => ?_)) (fun _ h => h) hnone
      exact Outline.pure (inside_stable (at_stable _)) fun _ hs => hs
  | getAllProviders => exact hreply (serves_bracket (h.load 0 rfl)) (fun _ h => h) hnone
  | saveProvider providerId key status now =>
      exact hreply (serves_bracket (serves_commit h rfl)) (fun _ h => h) hlate
  | updateStatus providerId status now extra =>
      exact hreply (serves_known h rfl rfl) hone hlate
  | deleteProvider providerId =>
      exact hreply (serves_known h rfl rfl) hone hlate
  | readStore => exact hreply (h.read rfl) (fun _ h => h) hnone
  | repairKeystore => exact hreply (serves_repair h) (fun _ _ => trivial) fun _ _ => Or.inl rfl

-- ===== whatever is read

def Op.loads : Op Payload Memory → Prop
  | .own _ => True
  | op => op.looks ∨ op.crypto

section Loads

open Prog (uses_bind uses_pure uses_throw uses_perform uses_ite uses_rescue)

theorem looks_loads {op : Op Payload Memory} (h : op.looks ∨ op.crypto) : op.loads := by
  cases op with
  | own f => exact trivial
  | _ => exact h

def Op.reading (op : Op Payload Memory) : Prop := op.looks ∨ op.crypto

theorem tryDecode_uses (file : File) : (tryDecode file).Uses Op.reading := by
  refine uses_rescue (uses_bind ?_ fun _ => uses_pure _) fun _ => uses_pure _
  refine uses_bind (uses_perform (Or.inl trivial)) fun data => ?_
  cases data with
  | none => exact uses_throw _
  | some data =>
      refine uses_ite (uses_throw _) (uses_bind ((decryptCredentials_crypto data).mono
        fun _ h => Or.inr h) fun text => ?_)
      cases text with
      | none => exact uses_throw _
      | some table => exact uses_pure _

theorem readStore_uses : readStore.Uses Op.reading := by
  have hgive : ∀ e, (unreadable e : StoreCode (Table × StoreSource)).Uses Op.reading := fun e =>
    uses_ite (uses_bind ((keyringLookup_crypto false).mono fun _ h => Or.inr h)
      fun _ => uses_ite (uses_throw _) (uses_throw _)) (uses_throw _)
  have hback : ∀ e, (readBackup e).Uses Op.reading := by
    refine fun e => uses_bind (uses_perform (Or.inl trivial)) fun there => uses_ite ?_ (hgive e)
    refine uses_bind (tryDecode_uses _) fun r => ?_
    cases r with
    | ok table => exact uses_pure _
    | error _ => exact hgive e
  refine uses_bind (uses_perform (Or.inl trivial)) fun there => uses_ite ?_ (uses_pure _)
  refine uses_bind (tryDecode_uses _) fun r => ?_
  cases r with
  | ok table => exact uses_pure _
  | error e =>
      exact uses_ite (uses_bind (uses_perform (Or.inl trivial)) fun _ =>
        uses_ite (hback e) (uses_pure _)) (hback e)

theorem ensureCache_uses : ensureCache.Uses Op.loads := by
  have hown : ∀ f, (own f).Uses Op.loads := fun f => uses_perform trivial
  have hread : readStore.Uses Op.loads := readStore_uses.mono fun _ => looks_loads
  have hdisk : loadDisk.Uses Op.loads :=
    uses_rescue (uses_bind hread fun r => uses_bind (hown _) fun _ => uses_pure _) fun e =>
      uses_ite (uses_bind (hown _) fun _ => uses_pure _) (uses_throw _)
  have hnow : monotonic.Uses Op.loads := uses_perform (Or.inl trivial)
  have hreload : ∀ st, (reload st).Uses Op.loads := fun st =>
    uses_bind hdisk fun table => uses_bind (hown _) fun memory =>
      uses_ite (uses_bind hnow fun _ => uses_bind (hown _) fun _ => uses_pure _)
        (uses_bind (hown _) fun _ => uses_pure _)
  have hretry : ∀ memory, (retryFailed memory).Uses Op.loads := by
    intro memory
    unfold retryFailed
    split
    · exact uses_bind hnow fun _ => uses_pure _
    · exact uses_pure _
  refine uses_bind (uses_perform (Or.inl trivial)) fun st => uses_bind (hown _) fun memory =>
    uses_bind (hretry memory) fun retry => ?_
  cases memory.cache with
  | none => exact hreload st
  | some table => exact uses_ite (hreload st) (uses_pure _)

end Loads

theorem shares_reading {P : StoreHost → Prop} {p : StoreCode α} (h : p.Uses Op.reading)
    (hP : (Keeping T W who ok).Stable P) (hdisk : OnDisk P) :
    Outline (exec who) (Keeping T W who ok) (fun _ => P) (fun _ => P) P p := by
  refine Outline.of_uses h hP fun op hop s c a s' hs _ hx => ?_
  rcases hop with hlooks | hcrypto
  · cases exec_looks hlooks hx
    exact ⟨guar_of_disk kept_onDisk rfl, hs⟩
  · have hsame := exec_crypto_disk hcrypto hx
    exact ⟨guar_of_disk kept_onDisk hsame, hdisk s s' hsame hs⟩

theorem unreached {T : Terms} {W : Option (Contents Payload) → Contents Payload → Prop}
    {who : Who Pid} {ok : Op Payload Memory → Choice → StoreHost → Prop} {α : Type}
    {P : StoreHost → Prop} {Q : α → StoreHost → Prop} {E : Failure → StoreHost → Prop}
    {op : Op Payload Memory} {rest : Ans Payload Memory op → StoreCode α}
    (hP : (Keeping T W who ok).Stable P) (h : ∀ c s, P s → ¬ ok op c s) :
    Outline (exec who) (Keeping T W who ok) Q E P (.call op rest) :=
  .call (fun _ _ => False) hP (fun s c _ _ hs hok => absurd hok (h c s hs)) fun _ => Outline.never _

-- ===== with modes

theorem load_of_mode (mode : Mode) {n : Nat}
    (hmode : ∀ op c s, At who (· = n) s → ok op c s → mode.Ok who.process op c s)
    {E : Failure → StoreHost → Prop} :
    Outline (exec who) (Keeping T W who ok) (fun _ => Inside T who (At who (· = n))) E
      (Inside T who (At who (· = n))) ensureCache := by
  refine ((shares_ensureCache mode (fun _ _ => True) False False
    (at_stable (· = n)) (at_offMemory (· = n)) (fun _ => sharing_true True) (fun _ _ _ _ h => h)
    (fun _ _ => trivial) hmode fun h => h.elim).pre (inside_stable (at_stable _)) fun s hs => ?_).post
    (fun table s hs => ⟨hs.2.rest, hs.1, hs.2.memory⟩) fun _ _ h => h
  exact hs.2.mono fun m hm => ⟨hs.1, hm, fun h => h.elim⟩

/-- Where a source gives the key, the first look of a repair finds
nothing wrong. -/
theorem look_of_mode {mode : Mode} (hopen : mode.closes = false)
    (hmode : ∀ op c s, At who (· = 0) s → ok op c s → mode.Ok who.process op c s) :
    Outline (exec who) (Keeping T W who ok)
      (fun m s => At who (· = 0) s ∧ m.loadError = false) (fun _ => At who (· = 0))
      (fun s => At who (· = 0) s ∧ T.Kept s) repairLook := by
  have hat : (Keeping T W who ok).Stable (At who (· = 0)) := at_stable _
  have hatStore : OffMemory (At who (· = 0)) := at_offMemory _
  refine shares_withCacheLock hat hatStore (fun _ => stable_and hat (sharing_true _))
    (fun m => offMemory_and hatStore fun _ _ _ _ h => h) (fun _ => hat) (fun _ => hatStore) ?_
  have hψ : ∀ m, (Keeping T W who ok).Stable fun s => At who (· = 0) s ∧ T.memory m s :=
    fun m => stable_and hat (memory_stable m)
  have hψstore : ∀ m, OffMemory fun s => At who (· = 0) s ∧ T.memory m s :=
    fun m => offMemory_and hatStore fun s s' h _ => T.memory_same m s s' h
  refine Outline.bind ((shares_own _ hψ hψstore).pre (inside_stable hat)
    fun s hs => hs.2.mono fun m hm => ⟨hs.1, hm⟩) fun m => ?_
  have hdropped : (Keeping T W who ok).Stable (AtWork who fun m' s =>
      m' = { m with cache := none } ∧ At who (· = 0) s ∧ T.memory m s) :=
    atWork_stable fun m' => stable_and (sharing_true _) (hψ m)
  refine Outline.bind ((shares_ensureCache mode (fun _ _ => True) True False
    hat hatStore (fun _ => sharing_true True) (fun _ _ _ _ h => h) (fun _ _ => trivial) hmode
    fun h => h.elim).pre hdropped fun s hs => hs.mono ?_) fun table => ?_
  · rintro m' ⟨rfl, hat, hm⟩
    exact ⟨hat, T.dropped m s hm, fun _ => rfl⟩
  have hready : ∀ m, (Keeping T W who ok).Stable
      (Ready T (At who (· = 0)) (fun _ _ => True) mode True False table m) :=
    fun m => ready_stable hat (fun _ => sharing_true True) table m
  refine (shares_own id hready fun m s s' h hlock hs => ?_).post (fun m s hs => ?_) fun _ _ h => h
  · exact ⟨hatStore s s' h hlock hs.rest, T.memory_same m s s' h hs.memory, hs.cache, trivial, hs.read⟩
  · obtain ⟨hmutex, hown, h⟩ := hs
    refine ⟨⟨h.rest, h.read (Or.inl trivial) hopen⟩, hmutex, ?_⟩
    rw [hown]
    exact h.memory

theorem holding_table {φ : StoreHost → Prop} (hφ : OnFiles φ) :
    Seen W T.Kept who ok (Holding T who φ)
      fun table => Holding T who fun s => φ s ∧ s.table = some table := by
  have hboth : ∀ table, OnFiles fun s => φ s ∧ s.table = some table :=
    fun table s s' hf hm hc h => ⟨hφ s s' hf hm hc h.1, table_onFiles table s s' hf hm hc h.2⟩
  exact ⟨fun table => holding_stable (hboth table), fun table => holding_onDisk (hboth table),
    fun s table hs ht => ⟨hs.1, hs.2.1, hs.2.2, ht⟩⟩

-- ===== discipline

variable (T) (W : Request → Option (Contents Payload) → Contents Payload → Prop)

def storeDiscipline (late : Prop)
    (okOp : Who Pid → Request → Op Payload Memory → Choice → StoreHost → Prop)
    (h : ∀ who request, Served T (W request) who (okOp who request) late request) :
    Discipline storeMachine where
  okOp := okOp
  okEnv _ _ := True
  rely who := Rely T.Kept who
  guar who request := Guar (W request) T.Kept who
  start who s := At who (· = 0) s ∧ T.Kept s
  returns who request _ := At who request.done
  raises who request _ := At who (request.failed late)
  outline who request := serves (h who request)
  others who who' request s s' hne hguar := hguar.rely hne
  crashed i who s hne := rely_of_crash kept_crash hne
  idle i who s hs := ⟨⟨hs.1.1, fun hheld => hs.1.2 (Option.eq_some_of_filter_eq_some hheld)⟩,
    kept_crash hs.2⟩
  around e who s s' _ hs := by
    cases hs
    refine rely_of_disk kept_onDisk ?_
    cases e <;> rfl

variable {T} {W}

theorem idle_start {s : StoreHost} (h : Idle s) (hbase : T.base s) (who : Who Pid) :
    At who (· = 0) s ∧ T.Kept s := by
  refine ⟨⟨?_, ?_⟩, hbase, fun i _ => ?_⟩
  · rw [commitCount, mine, h.commits]
    rfl
  · intro hheld
    cases h.lock.symm.trans hheld
  · rw [h.own i]
    exact T.fresh s

-- ===== concrete

instance : DecidableEq Record := inferInstanceAs (DecidableEq (List (PyStr × Value)))

instance : DecidableEq Table := inferInstanceAs (DecidableEq (List (PyStr × Record)))

def storeHost (answering : Bool) (primary backup : Option (Contents Payload)) : StoreHost where
  keyring := .key (.random 0)
  answering := answering
  minted := 1
  environ _ := none
  passphrase := .missing
  files
    | .primary => primary
    | .backup => backup
    | .temp => none
  mark := 0
  lock := none
  mutex _ := none
  own _ := {}
  clock := 0
  creating := []
  sealing := []
  replaced := []
  commits := []

theorem storeHost_idle (answering : Bool) (primary backup : Option (Contents Payload)) :
    Idle (storeHost answering primary backup) := ⟨rfl, fun _ => rfl, fun _ => rfl, rfl⟩

def savedTable : Table := [("a".toList, [("key".toList, .str "k".toList)])]

def savedStore : Contents Payload := .sealed ⟨.random 0, some savedTable⟩

def lockedHost : StoreHost :=
  storeHost false (some savedStore) (some (.sealed ⟨.fallback, some []⟩))

def advances (n : Nat) (count : Nat) : List StoreEvent := List.replicate count (.step n .succeeds)

def save (providerId : String) : Request :=
  .saveProvider providerId.toList "k".toList "unverified".toList "now".toList

/-- What thread `n` returned. -/
def replyOf (w : StoreWorld) (n : Nat) : Option Reply :=
  (w.threads[n]?.bind Thread.code).bind Prog.returned?

end Velune.Providers
