/-
Reading the store among other threads.

A read goes well in one of two ways (`Mode`): at each of its steps one
source gives the key of the store, and then it is the store that is read;
or the backup stays closed to the process, and then it is the store that
is read or nothing. What is read is the table of the store at some moment
of the read, which is how `A` below is used: a fact about that table which
outlives the steps of the others.
-/
import Velune.Providers.Proofs.Sharing

namespace Velune.Providers

open Lib

-- ===== modes

/-- The table of a file: none for one that does not hold a table; one
without bytes counts as a new store. -/
def Contents.table? : Contents Payload → Option Table
  | .junk n => if n = 0 then some [] else none
  | .sealed blob => blob.text

def tableOf : Option (Contents Payload) → Option Table
  | none => some []
  | some contents => contents.table?

def Host.table (s : StoreHost) : Option Table := tableOf (s.files .primary)

inductive Mode
  /-- The source gives this key, which is the store's. -/
  | via (source : Source) (key : MasterKey)
  /-- No source gives this key, which is the backup's. -/
  | closed (key : MasterKey)

def Op.reads {π κ : Type} : Op π κ → File → Bool
  | .readBytes file, other => file = other
  | _, _ => false

def Choice.isFailure : Choice → Bool
  | .fails => true
  | _ => false

def SealedUnder (key : MasterKey) : Option (Contents Payload) → Prop
  | none => True
  | some (.sealed blob) => blob.key = key ∧ blob.text.isSome = true
  | some (.junk _) => False

def OpensOnlyUnder (key : MasterKey) : Option (Contents Payload) → Prop
  | some (.sealed blob) => blob.text.isSome = true → blob.key = key
  | _ => True

def Mode.Ok (mode : Mode) (i : Pid) (op : Op Payload Memory) (c : Choice) (s : StoreHost) : Prop :=
  match mode with
  | .via source key => SealedUnder key (s.files .primary) ∧ s.holds i source = some key
      ∧ (source = .passphraseFile → s.unshadowed i)
      ∧ (op.reads .primary = true → c.isFailure = false)
  | .closed key => (op.reads .backup = true → OpensOnlyUnder key (s.files .backup))
      ∧ Barred key i op c s

instance (key : MasterKey) : (file : Option (Contents Payload)) → Decidable (SealedUnder key file)
  | none => isTrue trivial
  | some (.sealed blob) =>
      inferInstanceAs (Decidable (blob.key = key ∧ blob.text.isSome = true))
  | some (.junk _) => isFalse fun h => h

instance (key : MasterKey) : (file : Option (Contents Payload)) → Decidable (OpensOnlyUnder key file)
  | none => isTrue trivial
  | some (.sealed blob) =>
      inferInstanceAs (Decidable (blob.text.isSome = true → blob.key = key))
  | some (.junk _) => isTrue trivial

instance {φ : Source → Prop} [DecidablePred φ] : Decidable (∀ source, φ source) :=
  decidable_of_iff (φ .keyring ∧ φ .environment ∧ φ .passphraseFile ∧ φ .machine)
    ⟨fun h source => by
      cases source with
      | keyring => exact h.1
      | environment => exact h.2.1
      | passphraseFile => exact h.2.2.1
      | machine => exact h.2.2.2, fun h => ⟨h _, h _, h _, h _⟩⟩

instance (mode : Mode) (i : Pid) (op : Op Payload Memory) (c : Choice) (s : StoreHost) :
    Decidable (mode.Ok i op c s) :=
  match mode with
  | .via source key => inferInstanceAs (Decidable (SealedUnder key (s.files .primary)
      ∧ s.holds i source = some key ∧ (source = .passphraseFile → _ ∨ _ ∨ _)
      ∧ (op.reads .primary = true → c.isFailure = false)))
  | .closed key => inferInstanceAs (Decidable ((op.reads .backup = true →
      OpensOnlyUnder key (s.files .backup))
      ∧ (∀ source, s.holds i source ≠ some key) ∧ op.brings c ≠ some key))

-- ===== steps

variable {W : Option (Contents Payload) → Contents Payload → Prop} {I : StoreHost → Prop}
variable {who : Who Pid} {ok : Op Payload Memory → Choice → StoreHost → Prop}
variable {P : StoreHost → Prop} {α : Type}

/-- A program of the encryption layer, what is learned from it and what
it keeps. -/
theorem shares_crypto (ok' : Op Payload Memory → Choice → StoreHost → Prop) {φ : α → Prop}
    {ψ : Failure → Prop} {p : StoreCode α} (h : Learns who ok' φ ψ p) (huses : p.Uses Op.crypto)
    (hI : OnDisk I) (hP : (Sharing W I who ok).Stable P) (hdisk : OnDisk P)
    (hok : ∀ op c s, P s → ok op c s → ok' op c s) :
    Outline (exec who) (Sharing W I who ok) (fun a s => P s ∧ φ a) (fun e s => P s ∧ ψ e) P p := by
  have hgeneral : ∀ {P₀ : StoreHost → Prop} {p : StoreCode α}, Outline (exec who) (Among ok')
      (fun a _ => φ a) (fun e _ => ψ e) P₀ p → p.Uses Op.crypto →
      Outline (exec who) (Sharing W I who ok) (fun a s => P s ∧ φ a) (fun e s => P s ∧ ψ e)
        (fun s => P s ∧ P₀ s) p := by
    intro P₀ p h
    have hboth : ∀ {P₀ : StoreHost → Prop}, (Among ok').Stable P₀ →
        (Sharing W I who ok).Stable fun s => P s ∧ P₀ s :=
      fun h₀ s s' hr hs => ⟨hP s s' hr hs.1, h₀ s s' trivial hs.2⟩
    induction h with
    | ret hs hq => exact fun _ => .ret (hboth hs) fun s hp => ⟨hp.1, hq s hp.2⟩
    | raise hs he => exact fun _ => .raise (hboth hs) fun s hp => ⟨hp.1, he s hp.2⟩
    | call next hs hstep _ ih =>
        refine fun huses => .call (fun a s => P s ∧ next a s) (hboth hs) ?_
          fun a => ih a (huses.2 a)
        intro s c a s' hp hc hx
        have hsame := exec_crypto_disk huses.1 hx
        exact ⟨guar_of_disk hI hsame, hdisk s s' hsame hp.1,
          (hstep s c a s' hp.2 (hok _ c s hp.1 hc) hx).2⟩
  exact (hgeneral h huses).pre hP fun s hs => ⟨hs, trivial⟩

def Op.looks : Op Payload Memory → Prop
  | .fileExists _ => True
  | .readBytes _ => True
  | .stamp _ => True
  | .monotonic => True
  | _ => False

theorem exec_looks {op : Op Payload Memory} {c : Choice} {s s' : StoreHost}
    {a : Ans Payload Memory op} (hop : op.looks) (h : exec who op c s = some (a, s')) : s' = s := by
  cases op with
  | fileExists file =>
      cases h
      rfl
  | readBytes file =>
      cases c with
      | typed text => cases h
      | _ =>
          cases h
          rfl
  | stamp committed =>
      cases h
      rfl
  | monotonic =>
      cases h
      rfl
  | _ => exact hop.elim

theorem shares_look (op : Op Payload Memory) (hop : op.looks) {A : Ans Payload Memory op → StoreHost → Prop}
    (hI : OnDisk I) (hP : (Sharing W I who ok).Stable P)
    (hA : ∀ a, (Sharing W I who ok).Stable (A a))
    (h : ∀ s c a, P s → ok op c s → exec who op c s = some (a, s) → A a s)
    {E : Failure → StoreHost → Prop} :
    Outline (exec who) (Sharing W I who ok) (fun a s => P s ∧ A a s) E P
      (Prog.perform op : StoreCode (Ans Payload Memory op)) := by
  refine Outline.perform op hP (fun a => stable_and hP (hA a)) fun s c a s' hp hc hx => ?_
  cases exec_looks hop hx
  exact ⟨guar_of_disk hI rfl, hp, h s c a hp hc hx⟩

theorem sharing_true (b : Prop) : (Sharing W I who ok).Stable fun _ => b := fun _ _ _ h => h

theorem shares_skip (op : Op Payload Memory) (hop : op.looks) (hI : OnDisk I)
    (hP : (Sharing W I who ok).Stable P) {E : Failure → StoreHost → Prop} :
    Outline (exec who) (Sharing W I who ok) (fun _ => P) E P
      (Prog.perform op : StoreCode (Ans Payload Memory op)) :=
  (shares_look op hop hI hP (fun _ => sharing_true True) fun _ _ _ _ _ _ => trivial).post
    (fun _ _ h => h.1) fun _ _ h => h

-- ===== decoding

theorem onDisk_and {P Q : StoreHost → Prop} (hP : OnDisk P) (hQ : OnDisk Q) :
    OnDisk fun s => P s ∧ Q s := fun s s' h hs => ⟨hP s s' h hs.1, hQ s s' h hs.2⟩

/-- How decoding may fail: what is known of the bytes (`B`), of the text
(`φ`) and of the errors of decryption (`ψ`). -/
def Undecoded (A : Contents Payload → StoreHost → Prop) (B : Option (Contents Payload) → Prop)
    (φ : Contents Payload → Payload → Prop) (ψ : Failure → Prop) (e : Failure) (s : StoreHost) :
    Prop :=
  (e = .os ∧ B none)
    ∨ (e = .emptyStore ∧ ∃ contents, contents.size = 0 ∧ B (some contents) ∧ A contents s)
    ∨ (e = .notATable ∧ ∃ contents, B (some contents) ∧ φ contents none)
    ∨ ψ e

theorem shares_decode (ok' : Op Payload Memory → Choice → StoreHost → Prop) {file : File}
    {A : Contents Payload → StoreHost → Prop} {B : Option (Contents Payload) → Prop}
    {φ : Contents Payload → Payload → Prop} {ψ : Failure → Prop} (hI : OnDisk I)
    (hP : (Sharing W I who ok).Stable P) (hdisk : OnDisk P)
    (hA : ∀ contents, (Sharing W I who ok).Stable (A contents))
    (hAdisk : ∀ contents, OnDisk (A contents))
    (hsees : ∀ s c a, P s → ok (.readBytes file) c s → exec who (.readBytes file) c s = some (a, s) →
      B a ∧ ∀ contents, a = some contents → A contents s)
    (hlearns : ∀ contents, B (some contents) →
      Learns who ok' (φ contents) ψ (decryptCredentials contents))
    (hok : ∀ op c s, P s → ok op c s → ok' op c s) :
    Outline (exec who) (Sharing W I who ok)
      (fun table s => P s ∧ ∃ contents, B (some contents) ∧ φ contents (some table) ∧ A contents s)
      (fun e s => P s ∧ Undecoded A B φ ψ e s) P (decode file) := by
  have hsee : ∀ a, (Sharing W I who ok).Stable
      fun s => B a ∧ ∀ contents, a = some contents → A contents s := by
    intro a s s' hr hs
    exact ⟨hs.1, fun contents hc => hA contents s s' hr (hs.2 contents hc)⟩
  have hread : Outline (exec who) (Sharing W I who ok)
      (fun a s => P s ∧ B a ∧ ∀ contents, a = some contents → A contents s)
      (fun e s => P s ∧ Undecoded A B φ ψ e s) P (readBytes file) :=
    shares_look (.readBytes file) trivial
      (A := fun a s => B a ∧ ∀ contents, a = some contents → A contents s) hI hP hsee hsees
  refine hread.bind fun data => ?_
  have hstable : ∀ contents, (Sharing W I who ok).Stable fun s => P s ∧ A contents s :=
    fun contents => stable_and hP (hA contents)
  cases data with
  | none =>
      exact Outline.throw (stable_and hP (hsee none)) fun s hs => ⟨hs.1, Or.inl ⟨rfl, hs.2.1⟩⟩
  | some contents =>
      refine Outline.pre (P := fun s => (P s ∧ A contents s) ∧ B (some contents))
        (Outline.of_fact fun hB => ?_) (stable_and hP (hsee (some contents)))
        fun s hs => ⟨⟨hs.1, hs.2.2 contents rfl⟩, hs.2.1⟩
      refine Outline.ite (fun hsize => ?_) fun _ => ?_
      · exact Outline.throw (hstable contents)
          fun s hs => ⟨hs.1, Or.inr (Or.inl ⟨rfl, contents, hsize, hB, hs.2⟩)⟩
      · refine Outline.bind ((shares_crypto _ (hlearns contents hB)
          (decryptCredentials_crypto contents) hI (hstable contents)
          (onDisk_and hdisk (hAdisk contents)) fun op c s hs => hok op c s hs.1).post
          (fun _ _ h => h) fun e s h => ⟨h.1.1, Or.inr (Or.inr (Or.inr h.2))⟩) fun text => ?_
        refine Outline.of_fact fun htext => ?_
        cases text with
        | none =>
            exact Outline.throw (hstable contents)
              fun s hs => ⟨hs.1, Or.inr (Or.inr (Or.inl ⟨rfl, contents, hB, htext⟩))⟩
        | some table =>
            exact Outline.pure (hstable contents) fun s hs => ⟨hs.1, contents, hB, htext, hs.2⟩

/-- A fact about a table that was the store's when it was read. -/
structure Seen (W : Option (Contents Payload) → Contents Payload → Prop) (I : StoreHost → Prop)
    (who : Who Pid) (ok : Op Payload Memory → Choice → StoreHost → Prop) (P : StoreHost → Prop)
    (A : Table → StoreHost → Prop) : Prop where
  stable : ∀ table, (Sharing W I who ok).Stable (A table)
  disk : ∀ table, OnDisk (A table)
  now : ∀ s table, P s → s.table = some table → A table s

def Seen.bytes (A : Table → StoreHost → Prop) (contents : Contents Payload) (s : StoreHost) : Prop :=
  ∀ table, contents.table? = some table → A table s

section Decoding

variable {A : Table → StoreHost → Prop}

theorem Seen.bytes_stable (hA : Seen W I who ok P A) (contents : Contents Payload) :
    (Sharing W I who ok).Stable (Seen.bytes A contents) :=
  fun s s' hr h table ht => hA.stable table s s' hr (h table ht)

theorem Seen.bytes_disk (hA : Seen W I who ok P A) (contents : Contents Payload) :
    OnDisk (Seen.bytes A contents) := fun s s' hsame h table ht => hA.disk table s s' hsame (h table ht)

theorem Seen.bytes_now (hA : Seen W I who ok P A) {s : StoreHost} {contents : Contents Payload}
    (hp : P s) (h : s.files .primary = some contents) : Seen.bytes A contents s := by
  refine fun table ht => hA.now s table hp ?_
  rw [Host.table, h]
  exact ht

theorem readBytes_answer {file : File} {c : Choice} {s : StoreHost} {a : Option (Contents Payload)}
    (h : exec who (.readBytes file) c s = some (a, s)) :
    (c.isFailure = false → a = s.files file) ∧ ∀ contents, a = some contents → s.files file = some contents := by
  cases c with
  | succeeds =>
      cases h
      exact ⟨fun _ => rfl, fun _ hc => hc⟩
  | fails =>
      cases h
      exact ⟨fun hc => (by cases hc), fun _ hc => (by cases hc)⟩
  | typed text => cases h

theorem size_zero {contents : Contents Payload} (h : contents.size = 0) :
    contents.table? = some [] := by
  cases contents with
  | junk n => exact if_pos h
  | «sealed» blob => cases h

theorem opened_table {contents : Contents Payload} {table : Table}
    (h : ∃ blob, contents = .sealed blob ∧ some table = blob.text) :
    contents.table? = some table := by
  obtain ⟨blob, rfl, htext⟩ := h
  exact htext.symm

/-- Whatever the sources do, what decoding the store returns was its
table. -/
theorem decode_sound (hI : OnDisk I) (hP : (Sharing W I who ok).Stable P) (hdisk : OnDisk P)
    (hA : Seen W I who ok P A) :
    Outline (exec who) (Sharing W I who ok) (fun table s => P s ∧ A table s)
      (fun e s => P s ∧ (e = .emptyStore → A [] s)) P (decode .primary) := by
  refine Outline.post (shares_decode (fun _ _ _ => True) (A := Seen.bytes A)
    (B := fun _ => True) hI hP hdisk hA.bytes_stable hA.bytes_disk
    (fun s c a hp _ hx => ⟨trivial, fun contents hc => hA.bytes_now hp ((readBytes_answer hx).2 _ hc)⟩)
    (fun contents _ => learns_ends (decryptCredentials_ends contents)) fun _ _ _ _ _ => trivial)
    ?_ ?_
  · rintro table s ⟨hp, contents, -, hopened, hbytes⟩
    exact ⟨hp, hbytes table (opened_table hopened)⟩
  · rintro e s ⟨hp, hfail⟩
    refine ⟨hp, fun he => ?_⟩
    subst he
    rcases hfail with ⟨he, -⟩ | ⟨-, contents, hsize, -, hbytes⟩ | ⟨he, -⟩ | he | he
    · cases he
    · exact hbytes [] (size_zero hsize)
    · cases he
    · cases he
    · cases he

theorem decode_via (source : Source) (key : MasterKey) (hI : OnDisk I)
    (hP : (Sharing W I who ok).Stable P) (hdisk : OnDisk P) (hA : Seen W I who ok P A)
    (hpresent : ∀ s, P s → (s.files .primary).isSome = true)
    (hmode : ∀ op c s, P s → ok op c s → (Mode.via source key).Ok who.process op c s) :
    Outline (exec who) (Sharing W I who ok) (fun table s => P s ∧ A table s)
      (fun _ _ => False) P (decode .primary) := by
  have hlearns : ∀ contents : Contents Payload, SealedUnder key (some contents) →
      Learns who (Reaching Payload Memory who source key).ok
        (fun text => ∃ blob, contents = .sealed blob ∧ text = blob.text) (fun _ => False)
        (decryptCredentials contents : StoreCode Payload) := by
    intro contents hsealed
    cases contents with
    | junk n => exact hsealed.elim
    | «sealed» blob =>
        obtain ⟨rfl, -⟩ := hsealed
        exact Outline.post (gives_decrypt (κ := Memory) who source)
          (fun text _ htext => ⟨blob, rfl, htext⟩) fun _ _ h => h
  refine Outline.post (shares_decode _ (A := Seen.bytes A) (B := fun a => SealedUnder key a ∧ a ≠ none)
    hI hP hdisk hA.bytes_stable hA.bytes_disk ?_ (fun contents hB => hlearns contents hB.1)
    fun op c s hp hc => ⟨(hmode op c s hp hc).2.1, (hmode op c s hp hc).2.2.1⟩) ?_ ?_
  · intro s c a hp hc hx
    have hok := hmode _ c s hp hc
    have ha := (readBytes_answer hx).1 (hok.2.2.2 rfl)
    refine ⟨⟨ha ▸ hok.1, fun hnone => ?_⟩, fun contents hcontents => hA.bytes_now hp (ha ▸ hcontents)⟩
    have hsome := hpresent s hp
    rw [← ha, hnone] at hsome
    cases hsome
  · rintro table s ⟨hp, contents, -, hopened, hbytes⟩
    exact ⟨hp, hbytes table (opened_table hopened)⟩
  · rintro e s ⟨hp, hfail⟩
    rcases hfail with ⟨-, hB⟩ | ⟨-, contents, hsize, hB, -⟩ | ⟨-, contents, hB, blob, rfl, htext⟩ | he
    · exact hB.2 rfl
    · cases contents with
      | junk n => exact hB.1
      | «sealed» blob => cases hsize
    · have hsome := hB.1.2
      rw [← htext] at hsome
      cases hsome
    · exact he

theorem decode_closed {key : MasterKey} (hI : OnDisk I)
    (hP : (Sharing W I who ok).Stable P) (hdisk : OnDisk P)
    (hmode : ∀ op c s, P s → ok op c s → (Mode.closed key).Ok who.process op c s) :
    Outline (exec who) (Sharing W I who ok) (fun _ _ => False) (fun _ s => P s) P
      (decode .backup) := by
  have hlearns : ∀ contents : Contents Payload, OpensOnlyUnder key (some contents) →
      Learns who (Barred key who.process) (fun text => text = none) (fun _ => True)
        (decryptCredentials contents : StoreCode Payload) := by
    intro contents hopens
    cases contents with
    | junk n =>
        refine learns_ends ((decryptCredentials_ends _).mono ?_ fun _ _ => trivial)
        rintro text ⟨blob, hblob, -⟩
        cases hblob
    | «sealed» blob =>
        cases htext : blob.text with
        | none =>
            refine learns_ends ((decryptCredentials_ends _).mono ?_ fun _ _ => trivial)
            rintro text ⟨blob', hblob, rfl⟩
            cases hblob
            exact htext
        | some table =>
            have hkey : blob.key = key := hopens (by rw [htext]; rfl)
            subst hkey
            exact Outline.post barred_decrypt (fun _ _ h => h.elim) fun _ _ h => h
  refine Outline.post (shares_decode _ (A := fun _ _ => True) (B := OpensOnlyUnder key)
    hI hP hdisk (fun _ => sharing_true _) (fun _ _ _ _ h => h) ?_ hlearns
    fun op c s hp hc => (hmode op c s hp hc).2) ?_ fun _ _ h => h.1
  · intro s c a hp hc hx
    refine ⟨?_, fun _ _ => trivial⟩
    cases a with
    | none => exact trivial
    | some contents =>
        rw [← (readBytes_answer hx).2 contents rfl]
        exact (hmode _ c s hp hc).1 rfl
  · rintro table s ⟨-, contents, -, htable, -⟩
    cases htable

-- ===== reading the store

/-- What is known after a decoding in a `try`. -/
def Tried (Q : Table → StoreHost → Prop) (E : Failure → StoreHost → Prop) :
    Except Failure Table → StoreHost → Prop
  | .ok table => Q table
  | .error e => E e

theorem shares_tryDecode {file : File} {Q : Table → StoreHost → Prop}
    {E E' : Failure → StoreHost → Prop}
    (h : Outline (exec who) (Sharing W I who ok) Q E P (decode file))
    (hQ : ∀ table, (Sharing W I who ok).Stable (Q table))
    (hE : ∀ e, (Sharing W I who ok).Stable (E e)) :
    Outline (exec who) (Sharing W I who ok) (Tried Q E) E' P (tryDecode file) :=
  Outline.rescue (E := E) (h.bind fun table => Outline.pure (hQ table) fun _ hs => hs)
    fun e => Outline.pure (hE e) fun _ hs => hs

theorem present_stable :
    (Sharing W I who ok).Stable fun s => (s.files .primary).isSome = true := by
  intro s s' hr hs
  rcases hr.store with hsame | ⟨c, -, hputs⟩
  · rw [hsame.1]
    exact hs
  · rw [hputs.2.1]
    rfl

theorem keyringLookup_crypto {π κ : Type} (creates : Bool) :
    (keyringLookup creates : Code π κ (Option MasterKey × Bool)).Uses Op.crypto := by
  refine Prog.uses_bind (Prog.uses_perform trivial) fun answer => ?_
  cases answer with
  | failed => exact Prog.uses_pure _
  | answered entry => cases entry <;> exact Prog.uses_pure _

def Mode.closes : Mode → Bool
  | .via _ _ => false
  | .closed _ => true

def Refused (P : StoreHost → Prop) (mode : Mode) (e : Failure) (s : StoreHost) : Prop :=
  P s ∧ e.isStoreError = true ∧ mode.closes = true

theorem refused_stable {mode : Mode} (hP : (Sharing W I who ok).Stable P) (e : Failure) :
    (Sharing W I who ok).Stable (Refused P mode e) :=
  fun s s' hr h => ⟨hP s s' hr h.1, h.2⟩

theorem shares_unreadable {α : Type} {Q : α → StoreHost → Prop} (key : MasterKey) (e : Failure)
    (hI : OnDisk I) (hP : (Sharing W I who ok).Stable P) (hdisk : OnDisk P) :
    Outline (exec who) (Sharing W I who ok) Q (Refused P (.closed key)) P
      (unreadable e : StoreCode α) := by
  refine Outline.ite (fun _ => ?_) fun _ => Outline.throw hP fun s hs => ⟨hs, rfl, rfl⟩
  refine Outline.bind ((shares_crypto (fun _ _ _ => True)
    (learns_ends (keyringLookup_ends false)) (keyringLookup_crypto false) hI hP hdisk
    fun _ _ _ _ _ => trivial).post (fun _ _ h => h.1) fun _ _ h => h.2.elim)
    fun found => ?_
  exact Outline.ite (fun _ => Outline.throw hP fun s hs => ⟨hs, rfl, rfl⟩)
    fun _ => Outline.throw hP fun s hs => ⟨hs, rfl, rfl⟩

theorem shares_readBackup {key : MasterKey} {Q : Table × StoreSource → StoreHost → Prop}
    (e : Failure) (hI : OnDisk I) (hP : (Sharing W I who ok).Stable P) (hdisk : OnDisk P)
    (hmode : ∀ op c s, P s → ok op c s → (Mode.closed key).Ok who.process op c s) :
    Outline (exec who) (Sharing W I who ok) Q (Refused P (.closed key)) P (readBackup e) := by
  have hgive : Outline (exec who) (Sharing W I who ok) Q (Refused P (.closed key)) P
      (unreadable e : StoreCode (Table × StoreSource)) := shares_unreadable key e hI hP hdisk
  refine Outline.bind (shares_skip (.fileExists .backup) trivial hI hP) fun exists_ => ?_
  refine Outline.ite (fun _ => ?_) fun _ => hgive
  refine Outline.bind (shares_tryDecode (decode_closed hI hP hdisk hmode)
    (fun _ => sharing_true _) fun _ => hP) fun r => ?_
  cases r with
  | ok table => exact Outline.never _
  | error _ => exact hgive

/-- A read that goes well: what is read was the store's table, and it is
read where a source gives the key. -/
theorem shares_read (mode : Mode) (hI : OnDisk I) (hP : (Sharing W I who ok).Stable P)
    (hdisk : OnDisk P) (hA : Seen W I who ok P A)
    (hmode : ∀ op c s, P s → ok op c s → mode.Ok who.process op c s) :
    Outline (exec who) (Sharing W I who ok) (fun r s => P s ∧ A r.1 s) (Refused P mode) P
      readStore := by
  have hfound : ∀ (a : Bool), (Sharing W I who ok).Stable fun s =>
      (a = true → (s.files .primary).isSome = true) ∧ (a = false → A [] s) := fun a s s' hr hs =>
    ⟨fun ha => present_stable s s' hr (hs.1 ha), fun ha => hA.stable [] s s' hr (hs.2 ha)⟩
  refine Outline.bind (shares_look (.fileExists .primary) trivial
    (A := fun a s => (a = true → (s.files .primary).isSome = true) ∧ (a = false → A [] s))
    hI hP hfound ?_) fun found => ?_
  · intro s c a hp _ hx
    cases hx
    refine ⟨fun ha => ha, fun ha => hA.now s [] hp ?_⟩
    rw [Host.table, Option.isSome_eq_false_iff.1 ha |> Option.isNone_iff_eq_none.1]
    rfl
  have hand := fun table => stable_and hP (hA.stable table)
  refine Outline.ite (fun ha => ?_) fun ha => ?_
  · have hthere : (Sharing W I who ok).Stable fun s => P s ∧ (s.files .primary).isSome = true :=
      stable_and hP present_stable
    have hthereDisk : OnDisk fun s : StoreHost => P s ∧ (s.files .primary).isSome = true :=
      onDisk_and hdisk fun s s' hsame hs => by rw [(disk_fields hsame).1]; exact hs
    have hSeen : Seen W I who ok (fun s => P s ∧ (s.files .primary).isSome = true) A :=
      ⟨hA.stable, hA.disk, fun s table hs => hA.now s table hs.1⟩
    refine Outline.pre (P := fun s => P s ∧ (s.files .primary).isSome = true) ?_
      (stable_and hP (hfound found)) fun s hs => ⟨hs.1, hs.2.1 ha⟩
    cases mode with
    | via source key =>
        refine Outline.bind (shares_tryDecode (decode_via _ _ hI hthere hthereDisk hSeen
          (fun s hs => hs.2) fun op c s hs => hmode op c s hs.1)
          (fun table => stable_and hthere (hA.stable table)) fun _ => sharing_true _) fun r => ?_
        cases r with
        | ok table =>
            exact Outline.pure (stable_and hthere (hA.stable table)) fun s hs => ⟨hs.1.1, hs.2⟩
        | error e => exact Outline.never _
    | closed key =>
        have hback : ∀ e, Outline (exec who) (Sharing W I who ok) (fun r s => P s ∧ A r.1 s)
            (Refused P (.closed key)) P (readBackup e) :=
          fun e => shares_readBackup e hI hP hdisk hmode
        have hempty : ∀ e, (Sharing W I who ok).Stable fun s => P s ∧ (e = Failure.emptyStore → A [] s) :=
          fun e s s' hr hs => ⟨hP s s' hr hs.1, fun he => hA.stable [] s s' hr (hs.2 he)⟩
        refine (Outline.bind (shares_tryDecode (decode_sound hI hP hdisk hA) hand hempty)
          fun r => ?_).pre hthere fun s hs => hs.1
        cases r with
        | ok table => exact Outline.pure (hand table) fun _ hs => hs
        | error e =>
            refine Outline.ite (fun he => ?_) fun _ => (hback e).pre (hempty e) fun _ hs => hs.1
            refine Outline.bind (shares_skip (.fileExists .backup) trivial hI (hempty e)) fun a => ?_
            refine Outline.ite (fun _ => (hback e).pre (hempty e) fun _ hs => hs.1) fun _ => ?_
            exact Outline.pure (hempty e) fun s hs => ⟨hs.1, hs.2 he⟩
  · exact Outline.pure (stable_and hP (hfound found))
      fun s hs => ⟨hs.1, hs.2.2 (Bool.eq_false_iff.2 ha)⟩

end Decoding

end Velune.Providers
