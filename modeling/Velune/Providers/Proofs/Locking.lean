/-
The two locks among other threads: the process's `_cache_lock`, which
gives a thread the process's memory, and the file lock, which gives it
the store.

What every step keeps has two parts: one of the store, and one of each
memory that no thread is at work on (`Terms`). A thread takes the second
up with `enter` and has to restore it by `leave`.
-/
import Velune.Providers.Proofs.Reading

namespace Velune.Providers

open Lib

-- ===== terms

def Host.stamp (s : StoreHost) : Option Nat := (s.files .primary).map fun _ => s.mark

/-- What is kept of the store (`base`) and of a memory (`memory`), and
what is known of a stamp that was taken (`old`), of a table under its
stamp (`stamped`) and of one that was just committed (`committed`). All
speak of the store and its commits. -/
structure Terms where
  base : StoreHost → Prop
  memory : Memory → StoreHost → Prop
  old : Option Nat → StoreHost → Prop
  stamped : Table → Option Nat → StoreHost → Prop
  committed : Who Pid → Table → StoreHost → Prop
  base_same : ∀ s s', Same s s' → base s → base s'
  base_puts : ∀ s s' c, Puts s s' c → base s → base s'
  memory_same : ∀ m s s', Same s s' → memory m s → memory m s'
  memory_puts : ∀ m s s' c, Puts s s' c → memory m s → memory m s'
  old_same : ∀ st s s', Same s s' → old st s → old st s'
  old_puts : ∀ st s s' c, Puts s s' c → old st s → old st s'
  stamped_same : ∀ t st s s', Same s s' → stamped t st s → stamped t st s'
  stamped_puts : ∀ t st s s' c, Puts s s' c → stamped t st s → stamped t st s'
  committed_same : ∀ who t s s', Same s s' → committed who t s → committed who t s'
  committed_puts : ∀ who t s s' c, c.thread ≠ who.thread → Puts s s' c → committed who t s →
    committed who t s'
  fresh : ∀ s, memory {} s
  dropped : ∀ m s, memory m s → memory { m with cache := none } s
  old_now : ∀ s, old s.stamp s
  stamped_now : ∀ t st s, old st s → s.table = some t → stamped t st s
  committed_now : ∀ who t s, s.table = some t → committed who t s
  loaded : ∀ m t st s, m.cache = some t → m.cacheStamp = st → old st s →
    (m.loadError = false → stamped t st s) → memory m s

def Terms.Kept (T : Terms) (s : StoreHost) : Prop :=
  T.base s ∧ ∀ i, s.mutex i = none → T.memory (s.own i) s

variable {T : Terms} {W : Option (Contents Payload) → Contents Payload → Prop}
variable {who : Who Pid} {ok : Op Payload Memory → Choice → StoreHost → Prop}
variable {s s' : StoreHost} {P : StoreHost → Prop} {α : Type}

theorem kept_same (h : Same s s') (hmutex : s'.mutex = s.mutex) (hown : s'.own = s.own)
    (hkept : T.Kept s) : T.Kept s' := by
  refine ⟨T.base_same s s' h hkept.1, fun i hi => ?_⟩
  rw [hmutex] at hi
  rw [hown]
  exact T.memory_same _ s s' h (hkept.2 i hi)

theorem kept_puts {c : Commit Payload} (h : Puts s s' c) (hmutex : s'.mutex = s.mutex)
    (hown : s'.own = s.own) (hkept : T.Kept s) : T.Kept s' := by
  refine ⟨T.base_puts s s' c h hkept.1, fun i hi => ?_⟩
  rw [hmutex] at hi
  rw [hown]
  exact T.memory_puts _ s s' c h (hkept.2 i hi)

theorem kept_onDisk : OnDisk T.Kept := by
  intro s s' h
  obtain ⟨hfiles, hmark, -, hmutex, hown, hcommits⟩ := disk_fields h
  exact kept_same ⟨congrFun hfiles _, hmark, hcommits⟩ hmutex hown

theorem kept_crash {i : Pid} (h : T.Kept s) : T.Kept (s.crash ({} : Memory) i) := by
  have hsame : Same s (s.crash ({} : Memory) i) := ⟨rfl, rfl, rfl⟩
  refine ⟨T.base_same _ _ hsame h.1, fun j hj => ?_⟩
  by_cases hij : j = i
  · subst hij
    have hown : (s.crash ({} : Memory) j).own j = {} := Function.update_self _ _ _
    rw [hown]
    exact T.fresh _
  · have hown : (s.crash ({} : Memory) i).own j = s.own j := Function.update_of_ne hij _ _
    have hmutex : (s.crash ({} : Memory) i).mutex j = s.mutex j := Function.update_of_ne hij _ _
    rw [hown]
    exact T.memory_same _ _ _ hsame (h.2 j (hmutex ▸ hj))

-- ===== assertions

/-- The assertion speaks of the store, its commits and nothing else. -/
def OnStore (P : StoreHost → Prop) : Prop := ∀ s s', Same s s' → P s → P s'

def OffMemory (P : StoreHost → Prop) : Prop :=
  ∀ s s', Same s s' → s'.lock = s.lock → P s → P s'

theorem OnStore.offMemory {P : StoreHost → Prop} (h : OnStore P) : OffMemory P :=
  fun s s' hsame _ => h s s' hsame

theorem free_offMemory {who : Who Pid} : OffMemory (Free who) :=
  fun _ _ _ hlock h hheld => h (hlock.symm.trans hheld)

theorem offMemory_and {P Q : StoreHost → Prop} (hP : OffMemory P) (hQ : OffMemory Q) :
    OffMemory fun s => P s ∧ Q s :=
  fun s s' h hlock hs => ⟨hP s s' h hlock hs.1, hQ s s' h hlock hs.2⟩

abbrev Keeping (T : Terms) (W : Option (Contents Payload) → Contents Payload → Prop)
    (who : Who Pid) (ok : Op Payload Memory → Choice → StoreHost → Prop) :
    Setting (Op Payload Memory) Choice StoreHost := Sharing W T.Kept who ok

/-- The thread is at work on its process's memory, of which this is
known. -/
def AtWork (who : Who Pid) (ψ : Memory → StoreHost → Prop) (s : StoreHost) : Prop :=
  s.mutex who.process = some who.thread ∧ ψ (s.own who.process) s

variable {ψ : Memory → StoreHost → Prop} {E : Failure → StoreHost → Prop}

theorem atWork_stable
    (h : ∀ m, (Keeping T W who ok).Stable (ψ m)) : (Keeping T W who ok).Stable (AtWork who ψ) := by
  intro s s' hr hs
  obtain ⟨hmutex, hown⟩ := hr.own hs.1
  refine ⟨hmutex, ?_⟩
  rw [hown]
  exact h _ s s' hr hs.2

/-- The thread is in `_cache_lock`, and the memory is as it was. -/
def Inside (T : Terms) (who : Who Pid) (P : StoreHost → Prop) (s : StoreHost) : Prop :=
  P s ∧ AtWork who T.memory s

theorem stable_of {P : StoreHost → Prop} (hsame : ∀ s s', Same s s' → P s → P s')
    (hputs : ∀ s s' c, c.thread ≠ who.thread → Puts s s' c → P s → P s') :
    (Keeping T W who ok).Stable P := by
  intro s s' hr hs
  rcases hr.store with h | ⟨c, hne, h⟩
  · exact hsame s s' h hs
  · exact hputs s s' c hne h hs

theorem memory_stable (m : Memory) : (Keeping T W who ok).Stable (T.memory m) :=
  stable_of (T.memory_same m) fun s s' c _ => T.memory_puts m s s' c

theorem inside_stable (hP : (Keeping T W who ok).Stable P) :
    (Keeping T W who ok).Stable (Inside T who P) := stable_and hP (atWork_stable memory_stable)

theorem old_stable (st : Option Nat) : (Keeping T W who ok).Stable (T.old st) :=
  stable_of (T.old_same st) fun s s' c _ => T.old_puts st s s' c

theorem stamped_stable (t : Table) (st : Option Nat) :
    (Keeping T W who ok).Stable (T.stamped t st) :=
  stable_of (T.stamped_same t st) fun s s' c _ => T.stamped_puts t st s s' c

theorem committed_stable (t : Table) : (Keeping T W who ok).Stable (T.committed who t) :=
  stable_of (T.committed_same who t) fun s s' c hne => T.committed_puts who t s s' c hne

def commitCount (who : Who Pid) (s : StoreHost) : Nat := (mine who s).length

theorem commitCount_same (h : Same s s') : commitCount who s' = commitCount who s := by
  rw [commitCount, mine, h.2.2]
  rfl

-- ===== steps

theorem guar_same (h : Same s s') (hmutex : s'.mutex = s.mutex) (hown : s'.own = s.own)
    (hlock : ∀ other : Who Pid, other.thread ≠ who.thread → s.lock = some other →
      s'.lock = some other)
    (hfree : ∀ other : Who Pid, other.thread ≠ who.thread → s.lock ≠ some other →
      s'.lock ≠ some other)
    (hfiles : s.lock ≠ some who → s'.files = s.files) : Guar W T.Kept who s s' := by
  refine ⟨hlock, hfree, fun hne => ⟨hfiles hne, h.2⟩, Or.inl h, fun other _ ho => ?_,
    kept_same h hmutex hown⟩
  exact ⟨(congrFun hmutex _).trans ho, congrFun hown _⟩

theorem only_holder (hlock : s.lock = some who) {other : Who Pid}
    (hne : other.thread ≠ who.thread) : s.lock ≠ some other := by
  rw [hlock]
  exact fun heq => hne (congrArg Who.thread (Option.some.inj heq)).symm

/-- `enter`: what every step keeps of the memory may now be used. -/
theorem shares_enter (hP : (Keeping T W who ok).Stable P) (hstore : OffMemory P) :
    Outline (exec who) (Keeping T W who ok) (fun _ => Inside T who P) E
      (fun s => P s ∧ T.Kept s) enter := by
  refine Outline.perform .enter (stable_and hP inv_stable)
    (fun _ => inside_stable hP) ?_
  intro s c a s' hs _ hx
  simp only [exec] at hx
  split at hx
  next hmutex =>
    cases hx
    have hsame : Same s { s with
        mutex := Function.update s.mutex who.process (some who.thread) } := ⟨rfl, rfl, rfl⟩
    refine ⟨⟨fun _ _ h => h, fun _ _ h => h, fun _ => ⟨rfl, rfl, rfl⟩, Or.inl hsame, fun other _ ho => ?_,
      fun hkept => ?_⟩, hstore _ _ hsame rfl hs.1, Function.update_self _ _ _, ?_⟩
    · refine ⟨(Function.update_of_ne (fun heq => ?_) _ _).trans ho, rfl⟩
      rw [heq, hmutex] at ho
      cases ho
    · refine ⟨T.base_same _ _ hsame hkept.1, fun i hi => T.memory_same _ _ _ hsame (hkept.2 i ?_)⟩
      by_cases hi' : i = who.process
      · subst hi'
        exact hmutex
      · exact (Function.update_of_ne hi' _ _).symm.trans hi
    · exact T.memory_same _ _ _ hsame (hs.2.2 _ hmutex)
  next => cases hx

/-- `leave`: the memory has to be as every step keeps it. -/
theorem shares_leave (hP : (Keeping T W who ok).Stable P) (hstore : OffMemory P) :
    Outline (exec who) (Keeping T W who ok) (fun _ => P) E (Inside T who P) leave := by
  refine Outline.perform .leave (inside_stable hP) (fun _ => hP) ?_
  intro s c a s' hs _ hx
  cases hx
  obtain ⟨hp, hmutex, hmemory⟩ := hs
  have hsame : Same s { s with mutex := Function.update s.mutex who.process none } := ⟨rfl, rfl, rfl⟩
  refine ⟨⟨fun _ _ h => h, fun _ _ h => h, fun _ => ⟨rfl, rfl, rfl⟩, Or.inl hsame, fun other hne ho => ?_,
    fun hkept => ?_⟩, hstore _ _ hsame rfl hp⟩
  · refine ⟨(Function.update_of_ne (fun heq => ?_) _ _).trans ho, rfl⟩
    rw [heq, hmutex] at ho
    exact hne (Option.some.inj ho).symm
  · refine ⟨T.base_same _ _ hsame hkept.1, fun i hi => T.memory_same _ _ _ hsame ?_⟩
    by_cases hi' : i = who.process
    · subst hi'
      exact hmemory
    · exact hkept.2 i ((Function.update_of_ne hi' _ _).symm.trans hi)

theorem own_step {f : Memory → Memory} {c : Choice} {a : Memory}
    (hψstore : ∀ m, OffMemory (ψ m)) (hs : AtWork who ψ s)
    (hx : exec who (.own f) c s = some (a, s')) :
    Guar W T.Kept who s s' ∧ a = s.own who.process ∧
      AtWork who (fun m' s => m' = f a ∧ ψ a s) s' := by
  cases hx
  obtain ⟨hmutex, hm⟩ := hs
  have hsame : Same s { s with
      own := Function.update s.own who.process (f (s.own who.process)) } := ⟨rfl, rfl, rfl⟩
  refine ⟨⟨fun _ _ h => h, fun _ _ h => h, fun _ => ⟨rfl, rfl, rfl⟩, Or.inl hsame,
    fun other hne ho => ?_, fun hkept => ?_⟩, rfl,
    hmutex, Function.update_self _ _ _, hψstore _ _ _ hsame rfl hm⟩
  · refine ⟨ho, Function.update_of_ne (fun heq => ?_) _ _⟩
    rw [heq, hmutex] at ho
    exact hne (Option.some.inj ho).symm
  · refine ⟨T.base_same _ _ hsame hkept.1, fun i hi => T.memory_same _ _ _ hsame ?_⟩
    have hne : i ≠ who.process := by
      rintro rfl
      cases hmutex.symm.trans hi
    change T.memory (Function.update s.own who.process (f (s.own who.process)) i) s
    rw [Function.update_of_ne hne]
    exact hkept.2 i hi

/-- The memory is read and changed, and something may be seen of it. -/
theorem shares_own_seen (f : Memory → Memory) {A : Memory → Prop}
    (hψ : ∀ m, (Keeping T W who ok).Stable (ψ m)) (hψstore : ∀ m, OffMemory (ψ m))
    (hA : ∀ c s, AtWork who ψ s → ok (.own f) c s → A (s.own who.process)) :
    Outline (exec who) (Keeping T W who ok)
      (fun m s => AtWork who (fun m' s => m' = f m ∧ ψ m s) s ∧ A m) E (AtWork who ψ) (own f) := by
  have hafter : ∀ m, (Keeping T W who ok).Stable
      fun s => AtWork who (fun m' s => m' = f m ∧ ψ m s) s ∧ A m :=
    fun m => stable_and (atWork_stable fun m' => stable_and (sharing_true (m' = f m)) (hψ m))
      (sharing_true _)
  refine Outline.perform (.own f) (atWork_stable hψ) ?_ ?_
  · exact hafter
  intro s c a s' hs hok hx
  obtain ⟨hguar, rfl, hafter⟩ := own_step hψstore hs hx
  exact ⟨hguar, hafter, hA c s hs hok⟩

theorem shares_own (f : Memory → Memory) (hψ : ∀ m, (Keeping T W who ok).Stable (ψ m))
    (hψstore : ∀ m, OffMemory (ψ m)) :
    Outline (exec who) (Keeping T W who ok)
      (fun m => AtWork who fun m' s => m' = f m ∧ ψ m s) E (AtWork who ψ) (own f) :=
  (shares_own_seen f (A := fun _ => True) hψ hψstore fun _ _ _ _ => trivial).post
    (fun _ _ h => h.1) fun _ _ h => h

-- ===== brackets

/-- `try: ... finally: ...` -/
theorem shares_ensuring {body : StoreCode α} {cleanup : StoreCode PUnit} {Q Q' : α → StoreHost → Prop}
    {E E' : Failure → StoreHost → Prop} {S : Setting (Op Payload Memory) Choice StoreHost}
    (h : Outline (exec who) S Q E P body)
    (hreturn : ∀ a, Outline (exec who) S (fun _ => Q' a) E' (Q a) cleanup)
    (hraise : ∀ e, Outline (exec who) S (fun _ => E' e) E' (E e) cleanup)
    (hQ : ∀ a, S.Stable (Q' a)) (hE : ∀ e, S.Stable (E' e)) :
    Outline (exec who) S Q' E' P (ensuring body cleanup) := by
  refine Outline.bind (Q := Q) (Outline.rescue h fun e => ?_) fun a => ?_
  · exact (hraise e).bind fun _ => Outline.throw (hE e) fun _ hs => hs
  · exact (hreturn a).bind fun _ => Outline.pure (hQ a) fun _ hs => hs

/-- `with self._cache_lock`. -/
theorem shares_withCacheLock {body : StoreCode α} {Q : α → StoreHost → Prop}
    (hP : (Keeping T W who ok).Stable P) (hstore : OffMemory P)
    (hQ : ∀ a, (Keeping T W who ok).Stable (Q a)) (hQstore : ∀ a, OffMemory (Q a))
    (hE : ∀ e, (Keeping T W who ok).Stable (E e)) (hEstore : ∀ e, OffMemory (E e))
    (h : Outline (exec who) (Keeping T W who ok) (fun a => Inside T who (Q a))
      (fun e => Inside T who (E e)) (Inside T who P) body) :
    Outline (exec who) (Keeping T W who ok) Q E (fun s => P s ∧ T.Kept s) (withCacheLock body) :=
  (shares_enter hP hstore).bind fun _ => shares_ensuring h (fun a => shares_leave (hQ a) (hQstore a))
    (fun e => shares_leave (hE e) (hEstore e)) hQ hE

end Velune.Providers
