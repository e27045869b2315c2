/-
How threads share the store: what each step of one may do to it, to the
file lock and to the memory of another process, and what the others may
count on.

The store changes by a commit of the thread that holds the lock and in no
other way; the thread that holds a process's `_cache_lock` has that
process's memory to itself. `Guar` says so of a thread's own steps, `Rely`
of the others', and `Guar.rely` is what makes them fit. What a commit may
put (`W`) and what every step keeps (`I`) differ between the results and
are parameters.
-/
import Velune.Providers.Keystore
import Velune.Providers.Proofs.Opening

namespace Velune.Providers

open Lib

-- ===== disk

/-- What the operations of the encryption layer leave alone. -/
structure Disk where
  files : File → Option (Contents Payload)
  mark : Nat
  lock : Option (Who Pid)
  mutex : Pid → Option Nat
  own : Pid → Memory
  commits : List (Commit Payload)

def Host.disk (s : StoreHost) : Disk := ⟨s.files, s.mark, s.lock, s.mutex, s.own, s.commits⟩

def OnDisk (P : StoreHost → Prop) : Prop := ∀ s s', s'.disk = s.disk → P s → P s'

theorem exec_crypto_disk {who : Who Pid} {op : Op Payload Memory} {c : Choice} {s s' : StoreHost}
    {a : Ans Payload Memory op} (hop : op.crypto) (h : exec who op c s = some (a, s')) :
    s'.disk = s.disk := by
  cases op with
  | getPassword creates =>
      rw [exec_getPassword] at h
      split at h
      · cases h
        split <;> rfl
      · cases h
        rfl
  | setPassword key =>
      rw [exec_setPassword] at h
      simp only at h
      split at h
      · rcases attempt_state h with rfl | rfl <;> rfl
      · cases h
        rfl
  | prompt =>
      cases c with
      | typed text =>
          cases h
          rfl
      | _ => cases h
  | readBytes file =>
      cases c with
      | typed text => cases h
      | _ =>
          cases h
          rfl
  | emptyPassphrase => rcases attempt_state h with rfl | rfl <;> rfl
  | writePassphrase p => rcases attempt_state h with rfl | rfl <;> rfl
  | generateKey | environ | readPassphrase | encrypt | fileExists | size =>
      cases h
      rfl
  | _ => exact hop.elim

-- ===== sharing

def Same (s s' : StoreHost) : Prop :=
  s'.files .primary = s.files .primary ∧ s'.mark = s.mark ∧ s'.commits = s.commits

def Puts (s s' : StoreHost) (c : Commit Payload) : Prop :=
  c.base = s.files .primary ∧ s'.files .primary = some c.contents ∧ s'.mark = s.mark + 1
    ∧ s'.commits = s.commits ++ [c]

structure Guar (W : Option (Contents Payload) → Contents Payload → Prop) (I : StoreHost → Prop)
    (who : Who Pid) (s s' : StoreHost) : Prop where
  lock : ∀ other : Who Pid, other.thread ≠ who.thread → s.lock = some other → s'.lock = some other
  free : ∀ other : Who Pid, other.thread ≠ who.thread → s.lock ≠ some other → s'.lock ≠ some other
  files : s.lock ≠ some who → s'.files = s.files ∧ s'.mark = s.mark ∧ s'.commits = s.commits
  store : Same s s' ∨ ∃ contents, W (s.files .primary) contents
    ∧ Puts s s' ⟨who.thread, s.files .primary, contents⟩
  own : ∀ other : Who Pid, other.thread ≠ who.thread →
    s.mutex other.process = some other.thread →
      s'.mutex other.process = some other.thread ∧ s'.own other.process = s.own other.process
  inv : I s → I s'

structure Rely (I : StoreHost → Prop) (who : Who Pid) (s s' : StoreHost) : Prop where
  held : s.lock = some who →
    s'.lock = some who ∧ s'.files = s.files ∧ s'.mark = s.mark ∧ s'.commits = s.commits
  free : s.lock ≠ some who → s'.lock ≠ some who
  store : Same s s' ∨ ∃ c, c.thread ≠ who.thread ∧ Puts s s' c
  own : s.mutex who.process = some who.thread →
    s'.mutex who.process = some who.thread ∧ s'.own who.process = s.own who.process
  inv : I s → I s'

variable {W : Option (Contents Payload) → Contents Payload → Prop} {I : StoreHost → Prop}
variable {who : Who Pid} {s s' : StoreHost}

theorem Guar.rely {who' : Who Pid} (h : Guar W I who s s') (hne : who.thread ≠ who'.thread) :
    Rely I who' s s' where
  held hlock := by
    have hother : s.lock ≠ some who := by
      rw [hlock]
      exact fun heq => hne (congrArg Who.thread (Option.some.inj heq)).symm
    exact ⟨h.lock who' hne.symm hlock, h.files hother⟩
  free := h.free who' hne.symm
  store := by
    rcases h.store with hsame | ⟨contents, -, hputs⟩
    · exact Or.inl hsame
    · exact Or.inr ⟨_, hne, hputs⟩
  own hmutex := h.own who' hne.symm hmutex
  inv := h.inv

theorem disk_fields (h : s'.disk = s.disk) : s'.files = s.files ∧ s'.mark = s.mark ∧ s'.lock = s.lock
    ∧ s'.mutex = s.mutex ∧ s'.own = s.own ∧ s'.commits = s.commits :=
  ⟨congrArg Disk.files h, congrArg Disk.mark h, congrArg Disk.lock h, congrArg Disk.mutex h,
    congrArg Disk.own h, congrArg Disk.commits h⟩

theorem guar_of_disk (hI : OnDisk I) (h : s'.disk = s.disk) : Guar W I who s s' := by
  obtain ⟨hfiles, hmark, hlock, hmutex, hown, hcommits⟩ := disk_fields h
  refine ⟨fun other _ ho => hlock.trans ho, fun other _ ho => hlock ▸ ho,
    fun _ => ⟨hfiles, hmark, hcommits⟩, Or.inl ⟨congrFun hfiles _, hmark, hcommits⟩, fun other _ ho => ?_, hI s s' h⟩
  exact ⟨(congrFun hmutex _).trans ho, congrFun hown _⟩

theorem rely_of_disk (hI : OnDisk I) (h : s'.disk = s.disk) : Rely I who s s' := by
  obtain ⟨hfiles, hmark, hlock, hmutex, hown, hcommits⟩ := disk_fields h
  exact ⟨fun ho => ⟨hlock.trans ho, hfiles, hmark, hcommits⟩, fun ho => hlock ▸ ho,
    Or.inl ⟨congrFun hfiles _, hmark, hcommits⟩,
    fun ho => ⟨(congrFun hmutex _).trans ho, congrFun hown _⟩, hI s s' h⟩

theorem rely_of_crash {i : Pid} (hI : I s → I (s.crash {} i)) (hne : who.process ≠ i) :
    Rely I who s (s.crash {} i) where
  held hlock := by
    refine ⟨?_, rfl, rfl, rfl⟩
    have hkept : (s.crash ({} : Memory) i).lock = s.lock.filter (fun w => w.process ≠ i) := rfl
    rw [hkept, hlock]
    simp [Option.filter, hne]
  free hlock hcrashed := hlock (Option.eq_some_of_filter_eq_some hcrashed)
  store := Or.inl ⟨rfl, rfl, rfl⟩
  own hmutex := ⟨(Function.update_of_ne hne _ _).trans hmutex, Function.update_of_ne hne _ _⟩
  inv := hI

-- ===== settings

/-- A thread among others, at each of whose steps `ok` holds. -/
def Sharing (W : Option (Contents Payload) → Contents Payload → Prop) (I : StoreHost → Prop)
    (who : Who Pid) (ok : Op Payload Memory → Choice → StoreHost → Prop) :
    Setting (Op Payload Memory) Choice StoreHost :=
  ⟨ok, Rely I who, Guar W I who⟩

def mine (who : Who Pid) (s : StoreHost) : List (Commit Payload) :=
  s.commits.filter fun c => c.thread = who.thread

variable {ok : Op Payload Memory → Choice → StoreHost → Prop}

def Free (who : Who Pid) (s : StoreHost) : Prop := s.lock ≠ some who

theorem free_stable : (Sharing W I who ok).Stable (Free who) := fun _ _ hr => hr.free

theorem mine_rely (h : Rely I who s s') : mine who s' = mine who s := by
  unfold mine
  rcases h.store with ⟨-, -, hcommits⟩ | ⟨c, hne, -, -, -, hcommits⟩
  · rw [hcommits]
  · rw [hcommits, List.filter_append]
    simp [hne]

theorem mine_stable (φ : List (Commit Payload) → Prop) :
    (Sharing W I who ok).Stable fun s => φ (mine who s) := by
  intro s s' hr hφ
  rw [mine_rely hr]
  exact hφ

theorem inv_stable : (Sharing W I who ok).Stable I := fun _ _ hr => hr.inv

theorem stable_and {P Q : StoreHost → Prop} {S : Setting (Op Payload Memory) Choice StoreHost}
    (hP : S.Stable P) (hQ : S.Stable Q) : S.Stable fun s => P s ∧ Q s :=
  fun s s' hr h => ⟨hP s s' hr h.1, hQ s s' hr h.2⟩

end Velune.Providers
