/-
Decryption and the keys that can be reached, over every interleaving of
calls in several processes and every history of the key sources.

Two facts, and each fails on the code in one way. A text opens whenever
the source of its key still holds the key, unless that source is the
passphrase file and the environment holds another passphrase: only one of
the two is tried (`shadowed_file_unopened`). And no call replaces a
keyring key, unless two calls create one at a time: looking up and
storing are two steps (`creation_race`). `keys_stay_reachable` is the
rest.
-/
import Velune.Providers.Crypto

namespace Velune.Providers

open Lib
open Lib.Machine (Follows)

variable {π : Type}

-- ===== machine

inductive KeyCall (π : Type)
  | encrypt (plaintext : π) (protectStore : Bool)
  | decrypt (data : Contents π)
  | masterKey

def KeyCall.decrypts : KeyCall π → Bool
  | .decrypt _ => true
  | _ => false

instance : Inhabited (KeyCall π) := ⟨.masterKey⟩

inductive KeyResult (π : Type)
  | sealed (blob : Sealed π)
  | text (text : π)
  | key (key : MasterKey)

def KeyCall.program : KeyCall π → Code π Unit (KeyResult π)
  | .encrypt plaintext protectStore => do
      let blob ← encryptCredentials plaintext protectStore
      pure (.sealed blob)
  | .decrypt data => do
      let text ← decryptCredentials data
      pure (.text text)
  | .masterKey => do
      let key ← getOrCreateMasterKey
      pure (.key key)

/-- Processes that call these functions, among changes of the sources. -/
def keyMachine (π : Type) :
    Machine (Op π Unit) (Ans π Unit) Failure (KeyResult π) Choice (Host π Unit) Pid (KeyCall π)
      Change where
  program := KeyCall.program
  exec := exec
  crash := Host.crash ()
  env e s := some (s.change e)

abbrev KeyWorld (π : Type) :=
  World (Op π Unit) (Ans π Unit) Failure (KeyResult π) (Host π Unit) Pid (KeyCall π)

abbrev KeyEvent (π : Type) := Event Choice Pid (KeyCall π) Change

-- ===== sources

inductive Source
  | keyring | environment | passphraseFile | machine
  deriving DecidableEq

def PassphraseFile.value : PassphraseFile → Option PyStr
  | .missing => none
  | .empty => none
  | .encrypted passphrase => passphrase
  | .plain text => text

/-- The key a source holds for a process and can be read to give. -/
def Host.holds {κ : Type} (s : Host π κ) (i : Pid) : Source → Option MasterKey
  | .keyring => if s.answering then (match s.keyring with | .key key => some key | _ => none) else none
  | .environment => derivedKey (s.environ i)
  | .passphraseFile => derivedKey s.passphrase.value
  | .machine => some .fallback

def Host.unshadowed {κ : Type} (s : Host π κ) (i : Pid) : Prop :=
  s.holds i .environment = none ∨ s.holds i .passphraseFile = none
    ∨ s.holds i .environment = s.holds i .passphraseFile

-- ===== opening

section Opening

variable {κ : Type} {who : Who Pid} {source : Source} {key : MasterKey}

/-- A call among any others, at each of whose steps the source holds the
key and is not shadowed. -/
def Reaching (π κ : Type) (who : Who Pid) (source : Source) (key : MasterKey) :
    Setting (Op π κ) Choice (Host π κ) where
  ok _ _ s := s.holds who.process source = some key
    ∧ (source = .passphraseFile → s.unshadowed who.process)
  rely _ _ := True
  guar _ _ := True

/-- Among these the program never raises, and returns what meets `φ`. -/
def Gives {α : Type} (who : Who Pid) (source : Source) (key : MasterKey) (φ : α → Prop)
    (p : Code π κ α) : Prop :=
  Outline (exec who) (Reaching π κ who source key) (fun a _ => φ a) (fun _ _ => False)
    (fun _ => True) p

theorem reaching_stable (b : Prop) : (Reaching π κ who source key).Stable fun _ => b :=
  fun _ _ _ h => h

theorem gives_pure {α : Type} {φ : α → Prop} {a : α} (h : φ a) :
    Gives who source key φ (pure a : Code π κ α) :=
  Outline.pure (reaching_stable _) fun _ _ => h

theorem Gives.bind {α β : Type} {φ : α → Prop} {ψ : β → Prop} {p : Code π κ α}
    {f : α → Code π κ β} (hp : Gives who source key φ p)
    (hf : ∀ a, φ a → Gives who source key ψ (f a)) : Gives who source key ψ (p >>= f) :=
  Outline.bind hp fun a => Outline.of_pure (hf a)

theorem Gives.mono {α : Type} {φ ψ : α → Prop} {p : Code π κ α} (hp : Gives who source key φ p)
    (h : ∀ a, φ a → ψ a) : Gives who source key ψ p :=
  Outline.post hp (fun a _ ha => h a ha) fun _ _ hfalse => hfalse

/-- An operation, and what is known of its answer where the source holds
the key. -/
theorem gives_perform (op : Op π κ) {φ : Ans π κ op → Prop}
    (h : ∀ s c a s', s.holds who.process source = some key →
      (source = .passphraseFile → s.unshadowed who.process) → exec who op c s = some (a, s') → φ a) :
    Gives who source key φ (Prog.perform op : Code π κ (Ans π κ op)) :=
  Outline.perform op (reaching_stable _) (fun _ => reaching_stable _)
    fun s c a s' _ hok hx => ⟨trivial, h s c a s' hok.1 hok.2 hx⟩

theorem gives_any (op : Op π κ) :
    Gives who source key (fun _ => True) (Prog.perform op : Code π κ (Ans π κ op)) :=
  gives_perform op fun _ _ _ _ _ _ _ => trivial

theorem gives_persist (passphrase : PyStr) :
    Gives who source key (fun _ => True) (persistPassphrase passphrase : Code π κ PUnit) := by
  refine (gives_any .emptyPassphrase).bind fun emptied _ => ?_
  cases emptied with
  | false => exact gives_pure trivial
  | true => exact (gives_any (.writePassphrase passphrase)).bind fun _ _ => gives_pure trivial

theorem gives_stored : Gives who source key
    (fun stored => source = .passphraseFile → derivedKey stored = some key)
    (storedPassphrase : Code π κ (Option PyStr)) := by
  have hread : Gives who source key
      (fun file : PassphraseFile => source = .passphraseFile → derivedKey file.value = some key)
      (readPassphrase : Code π κ PassphraseFile) := by
    refine gives_perform .readPassphrase fun s c a s' hholds _ hx hsource => ?_
    cases hx
    subst hsource
    exact hholds
  refine hread.bind fun file hfile => ?_
  cases file with
  | missing => exact gives_pure hfile
  | empty => exact gives_pure hfile
  | encrypted passphrase => exact gives_pure hfile
  | plain text =>
      cases text with
      | none => exact gives_pure hfile
      | some legacy =>
          refine Outline.ite (fun hnil => ?_) fun _ => ?_
          · refine gives_pure fun hsource => ?_
            have hkey := hfile hsource
            rw [hnil] at hkey
            cases hkey
          · exact (gives_persist legacy).bind fun _ _ => gives_pure hfile

/-- The second candidate: the environment's passphrase, else the file's.
Where both hold one, only the first is looked at. -/
theorem gives_passphraseKey : Gives who source key
    (fun found => source = .environment ∨ source = .passphraseFile → found = some key)
    (passphraseMasterKey : Code π κ (Option MasterKey)) := by
  have hread : Gives who source key
      (fun value : Option PyStr => (source = .environment → derivedKey value = some key)
        ∧ (source = .passphraseFile → derivedKey value = none ∨ derivedKey value = some key))
      (environ : Code π κ (Option PyStr)) := by
    refine gives_perform .environ fun s c a s' hholds hshadow hx => ?_
    cases hx
    refine ⟨fun hsource => ?_, fun hsource => ?_⟩
    · subst hsource
      exact hholds
    have hfile : s.holds who.process .passphraseFile = some key := hsource ▸ hholds
    rcases hshadow hsource with henv | hnone | heq
    · exact Or.inl henv
    · rw [hnone] at hfile
      cases hfile
    · exact Or.inr (heq.trans hfile)
  refine hread.bind fun value hvalue => ?_
  cases hkey : derivedKey value with
  | some found =>
      rw [hkey] at hvalue
      refine gives_pure fun hsource => ?_
      rcases hsource with hsource | hsource
      · exact hvalue.1 hsource
      · rcases hvalue.2 hsource with hnone | hsome
        · cases hnone
        · exact hsome
  | none =>
      rw [hkey] at hvalue
      refine gives_stored.bind fun stored hstored => gives_pure fun hsource => ?_
      rcases hsource with hsource | hsource
      · cases hvalue.1 hsource
      · exact hstored hsource

theorem gives_lookup (creates : Bool) : Gives who source key
    (fun found => source = .keyring → found.1 = some key)
    (keyringLookup creates : Code π κ (Option MasterKey × Bool)) := by
  have hread : Gives who source key
      (fun answer : Lookup => source = .keyring → answer = .answered (.key key))
      (getPassword creates : Code π κ Lookup) := by
    refine gives_perform (.getPassword creates) fun s c a s' hholds _ hx hsource => ?_
    subst hsource
    unfold Host.holds at hholds
    by_cases hanswers : s.answering = true
    · rw [if_pos hanswers] at hholds
      have hentry : s.keyring = .key key := by
        cases hentry : s.keyring with
        | absent =>
            rw [hentry] at hholds
            cases hholds
        | key found =>
            rw [hentry] at hholds
            cases hholds
            rfl
        | damaged =>
            rw [hentry] at hholds
            cases hholds
      rw [exec_getPassword, if_pos hanswers, hentry] at hx
      cases hx
      rfl
    · rw [if_neg hanswers] at hholds
      cases hholds
  refine hread.bind fun answer hanswer => ?_
  cases answer with
  | failed => exact gives_pure fun hsource => by cases hanswer hsource
  | answered entry =>
      cases entry with
      | absent => exact gives_pure fun hsource => by cases hanswer hsource
      | key found =>
          refine gives_pure fun hsource => ?_
          cases hanswer hsource
          rfl
      | damaged => exact gives_pure fun hsource => by cases hanswer hsource

theorem gives_create : Gives who source key (fun _ => True)
    (keyringCreateKey : Code π κ (Option MasterKey)) := by
  refine (gives_any .generateKey).bind fun newKey _ => ?_
  refine (gives_any (.setPassword newKey)).bind fun stored _ => ?_
  cases stored with
  | false => exact gives_pure trivial
  | true => exact gives_pure trivial

theorem gives_prompted : Gives who source key (fun _ => True)
    (promptForPassphrase : Code π κ (Option PyStr)) := by
  refine (gives_any .prompt).bind fun entered _ => ?_
  cases entered with
  | none => exact gives_pure trivial
  | some text => exact gives_pure trivial

theorem gives_withoutKeyring : Gives who source key (fun _ => True)
    (keyWithoutKeyring : Code π κ MasterKey) := by
  refine gives_passphraseKey.bind fun found _ => ?_
  cases found with
  | some found => exact gives_pure trivial
  | none =>
      refine (gives_any (.fileExists .primary)).bind fun present _ => ?_
      cases present with
      | true => exact gives_pure trivial
      | false =>
          refine gives_prompted.bind fun chosen _ => ?_
          cases chosen with
          | none => exact gives_pure trivial
          | some chosen => exact (gives_persist chosen).bind fun _ _ => gives_pure trivial

theorem gives_masterKey : Gives who source key (fun found => source = .keyring → found = key)
    (getOrCreateMasterKey : Code π κ MasterKey) := by
  refine (gives_lookup true).bind fun found hfound => ?_
  obtain ⟨found, answered⟩ := found
  cases found with
  | some found =>
      refine gives_pure fun hsource => ?_
      exact Option.some.inj (hfound hsource)
  | none =>
      have hother : ∀ found : MasterKey, source = .keyring → found = key :=
        fun _ hsource => by cases hfound hsource
      cases answered with
      | false => exact gives_withoutKeyring.mono fun found _ => hother found
      | true =>
          refine gives_create.bind fun created _ => ?_
          cases created with
          | some created => exact gives_pure (hother created)
          | none => exact gives_withoutKeyring.mono fun found _ => hother found

theorem decrypt_self (blob : Sealed π) : (Contents.sealed blob).decrypt blob.key = some blob.text :=
  if_pos rfl

theorem decrypt_other {blob : Sealed π} {found : MasterKey} (h : found ≠ blob.key) :
    (Contents.sealed blob).decrypt found = none := if_neg h

/-- A program that would start with an operation, where the source never
holds the key. -/
theorem gives_unreached {α : Type} {φ : α → Prop} {op : Op π κ} {rest : Ans π κ op → Code π κ α}
    (h : ∀ s : Host π κ, s.holds who.process source ≠ some key) :
    Gives who source key φ (.call op rest) :=
  .call (fun _ _ => False) (reaching_stable _) (fun s _ _ _ _ hok => absurd hok.1 (h s))
    fun _ => Outline.never _

/-- A candidate that may be tried: it never raises, and where it is the
one for the source it is the key. -/
def Candidate (who : Who Pid) (source : Source) (key : MasterKey) (hit : Prop)
    (p : Code π κ (Option MasterKey)) : Prop :=
  Gives who source key (fun found => hit → found = some key) p

/-- The loop: while the key was not tried and one of the candidates left
is it, the text is reached. -/
theorem gives_tryKeys {blob : Sealed π} : ∀ (candidates : List (Code π κ (Option MasterKey)))
    (hits : List Prop) (seen : List MasterKey),
    List.Forall₂ (fun hit p => Candidate who source blob.key hit p) hits candidates →
      blob.key ∉ seen → (∃ hit ∈ hits, hit) →
      Gives who source blob.key (fun text => text = blob.text) (tryKeys (.sealed blob) candidates seen)
  | [], hits, seen, hall, _, hhit => by
      cases hall
      obtain ⟨hit, hmem, -⟩ := hhit
      cases hmem
  | candidate :: rest, hits, seen, hall, hseen, hhit => by
      cases hall with
      | @cons hit _ hits _ hfirst hrest =>
          refine hfirst.bind fun found hfound => ?_
          have hlater : (found ≠ some blob.key) → ∃ hit ∈ hits, hit := by
            intro hne
            obtain ⟨this, hmem, hthis⟩ := hhit
            rcases List.mem_cons.1 hmem with rfl | hmem
            · exact absurd (hfound hthis) hne
            · exact ⟨this, hmem, hthis⟩
          cases found with
          | none => exact gives_tryKeys rest hits seen hrest hseen (hlater fun h => by cases h)
          | some found =>
              by_cases hkey : found = blob.key
              · subst hkey
                refine Outline.ite (fun hmem => absurd hmem hseen) fun _ => ?_
                rw [decrypt_self]
                exact gives_pure rfl
              · have hrest := fun seen hseen => gives_tryKeys rest hits seen hrest hseen
                  (hlater fun h => hkey (Option.some.inj h))
                refine Outline.ite (fun _ => hrest seen hseen) fun _ => ?_
                rw [decrypt_other hkey]
                refine hrest (found :: seen) fun hmem => ?_
                rcases List.mem_cons.1 hmem with heq | hmem
                · exact hkey heq.symm
                · exact hseen hmem

variable (who source) in
theorem gives_decrypt {blob : Sealed π} : Gives who source blob.key (fun text => text = blob.text)
    (decryptCredentials (.sealed blob) : Code π κ π) := by
  by_cases hmachine : source = .machine ∧ blob.key ≠ .fallback
  · -- then the source never holds the key, and no step is taken
    obtain ⟨rfl, hne⟩ := hmachine
    exact gives_unreached fun s hs => hne (Option.some.inj hs).symm
  have hlong : ¬ 28 < 12 := by decide
  refine Outline.ite (fun hshort => absurd hshort hlong) fun _ => ?_
  have hfirst : Candidate who source blob.key (source = .keyring)
      (do
        let key ← getOrCreateMasterKey
        pure (some key) : Code π κ (Option MasterKey)) :=
    gives_masterKey.bind fun found hfound => gives_pure fun hsource => by rw [hfound hsource]
  have hlast : Candidate who source blob.key (source = .machine)
      (pure (some .fallback) : Code π κ (Option MasterKey)) := by
    refine gives_pure fun hsource => ?_
    by_cases hkey : blob.key = .fallback
    · rw [hkey]
    · exact absurd ⟨hsource, hkey⟩ hmachine
  refine gives_tryKeys candidateMasterKeys
    [source = .keyring, source = .environment ∨ source = .passphraseFile, source = .machine] []
    (.cons hfirst (.cons gives_passphraseKey (.cons hlast .nil))) List.not_mem_nil ?_
  cases source with
  | keyring => exact ⟨_, List.mem_cons_self, rfl⟩
  | environment => exact ⟨_, List.mem_cons_of_mem _ List.mem_cons_self, Or.inl rfl⟩
  | passphraseFile => exact ⟨_, List.mem_cons_of_mem _ List.mem_cons_self, Or.inr rfl⟩
  | machine =>
      exact ⟨_, List.mem_cons_of_mem _ (List.mem_cons_of_mem _ List.mem_cons_self), rfl⟩

end Opening

-- ===== creation

section Creation

variable {κ : Type}

def Creating (who : Who Pid) (s : Host π κ) : Prop := s.creating = [who] ∧ s.keyring = .absent

def NoneReplaced (s : Host π κ) : Prop := s.replaced = []

def Op.creates : Op π κ → Bool
  | .getPassword creates => creates
  | _ => false

/-- A call that may create a key looks for one while no other is
creating one. -/
def oneCreator (op : Op π κ) (s : Host π κ) : Prop :=
  op.creates = true → s.answering = true → s.keyring = .absent → s.creating.isEmpty = true

def creationRely (who : Who Pid) (s s' : Host π κ) : Prop :=
  (NoneReplaced s → NoneReplaced s') ∧ (Creating who s → Creating who s')

def creationGuar (who : Who Pid) (s s' : Host π κ) : Prop :=
  (NoneReplaced s → NoneReplaced s')
    ∧ ∀ other, other.thread ≠ who.thread → Creating other s → Creating other s'

def Creator (π κ : Type) (who : Who Pid) (ok : Op π κ → Choice → Host π κ → Prop) :
    Setting (Op π κ) Choice (Host π κ) where
  ok op c s := oneCreator op s ∧ ok op c s
  rely := creationRely who
  guar := creationGuar who

variable {who : Who Pid} {ok : Op π κ → Choice → Host π κ → Prop}

theorem keyState_guar {s s' : Host π κ} (h : s'.keyState = s.keyState) : creationGuar who s s' := by
  have hkeyring : s'.keyring = s.keyring := congrArg Prod.fst h
  have hcreating : s'.creating = s.creating := congrArg (fun k => k.2.2.1) h
  have hreplaced : s'.replaced = s.replaced := congrArg (fun k => k.2.2.2) h
  refine ⟨fun hnone => hreplaced.trans hnone, fun other _ hother => ?_⟩
  exact ⟨hcreating.trans hother.1, hkeyring.trans hother.2⟩

theorem noneReplaced_stable : (Creator π κ who ok).Stable NoneReplaced := fun _ _ hr => hr.1

theorem creating_stable :
    (Creator π κ who ok).Stable fun s => NoneReplaced s ∧ Creating who s :=
  fun _ _ hr hs => ⟨hr.1 hs.1, hr.2 hs.2⟩

def Spares {α : Type} (who : Who Pid) (ok : Op π κ → Choice → Host π κ → Prop) (p : Code π κ α) :
    Prop :=
  Outline (exec who) (Creator π κ who ok) (fun _ => NoneReplaced) (fun _ => NoneReplaced)
    NoneReplaced p

theorem spares_pure {α : Type} (a : α) : Spares who ok (pure a : Code π κ α) :=
  Outline.pure noneReplaced_stable fun _ h => h

theorem Spares.bind {α β : Type} {p : Code π κ α} {f : α → Code π κ β} (hp : Spares who ok p)
    (hf : ∀ a, Spares who ok (f a)) : Spares who ok (p >>= f) := Outline.bind hp hf

theorem spares_plain {α : Type} {p : Code π κ α} (h : p.Uses Op.plain) : Spares who ok p := by
  refine Outline.of_uses h noneReplaced_stable fun op hop s c a s' hs _ hx => ?_
  have hguar : creationGuar who s s' := keyState_guar (exec_quiet hop.quiet hx)
  exact ⟨hguar, hguar.1 hs⟩

theorem absent_stable {b : Prop} :
    (Creator π κ who ok).Stable fun s => NoneReplaced s ∧ (b → Creating who s) :=
  fun _ _ hr hs => ⟨hr.1 hs.1, fun hb => hr.2 (hs.2 hb)⟩

/-- The lookup of a call that creates: one that finds no entry is alone. -/
theorem getPassword_creating : Outline (exec who) (Creator π κ who ok)
    (fun answer s => NoneReplaced s ∧ (answer = .answered .absent → Creating who s))
    (fun _ => NoneReplaced) NoneReplaced (getPassword true : Code π κ Lookup) := by
  refine Outline.perform (.getPassword true) noneReplaced_stable (fun _ => absent_stable) fun s c a s' hs hok hx => ?_
  rw [exec_getPassword] at hx
  by_cases hanswers : s.answering = true
  · rw [if_pos hanswers] at hx
    by_cases habsent : s.keyring = .absent
    · have hnobody : s.creating = [] := List.isEmpty_iff.1 (hok.1 rfl hanswers habsent)
      have hmark : (true && decide (s.keyring = .absent)) = true := by simp [habsent]
      rw [if_pos hmark] at hx
      cases hx
      refine ⟨⟨fun h => h, fun other _ hother => ?_⟩, hs, fun _ => ⟨?_, habsent⟩⟩
      · exact absurd (hnobody.symm.trans hother.1) (List.cons_ne_nil _ _).symm
      · exact congrArg (List.cons who) hnobody
    · have hmark : ¬ (true && decide (s.keyring = .absent)) = true := by simp [habsent]
      rw [if_neg hmark] at hx
      cases hx
      refine ⟨keyState_guar rfl, hs, fun heq => ?_⟩
      injection heq with heq
      exact absurd heq habsent
  · rw [if_neg hanswers] at hx
    cases hx
    exact ⟨keyState_guar rfl, hs, fun heq => by cases heq⟩

theorem setPassword_spares (key : MasterKey) : Outline (exec who) (Creator π κ who ok)
    (fun _ => NoneReplaced) (fun _ => NoneReplaced) (fun s => NoneReplaced s ∧ Creating who s)
    (setPassword key : Code π κ Bool) := by
  refine Outline.perform (.setPassword key) creating_stable (fun _ => noneReplaced_stable) fun s c a s' hs _ hx => ?_
  obtain ⟨hnone, hcreating, habsent⟩ := hs
  have hothers : ∀ s' : Host π κ, ∀ other : Who Pid, other.thread ≠ who.thread →
      Creating other s → Creating other s' := by
    intro s' other hne hother
    have hsame : other = who := by
      have hlists := hother.1.symm.trans hcreating
      exact (List.cons.inj hlists).1
    exact absurd (congrArg Who.thread hsame) hne
  have hkept : NoneReplaced s' := by
    rw [exec_setPassword] at hx
    simp only at hx
    split at hx
    · rcases attempt_state hx with rfl | rfl
      · exact hnone
      · unfold NoneReplaced Host.setPassword
        rw [habsent]
        exact hnone
    · cases hx
      exact hnone
  exact ⟨⟨fun _ => hkept, hothers s'⟩, hkept⟩

theorem spares_create : Outline (exec who) (Creator π κ who ok) (fun _ => NoneReplaced)
    (fun _ => NoneReplaced) (fun s => NoneReplaced s ∧ Creating who s)
    (keyringCreateKey : Code π κ (Option MasterKey)) := by
  have hgenerate : Outline (exec who) (Creator π κ who ok)
      (fun _ s => NoneReplaced s ∧ Creating who s) (fun _ => NoneReplaced)
      (fun s => NoneReplaced s ∧ Creating who s) (generateKey : Code π κ MasterKey) := by
    refine Outline.perform .generateKey creating_stable (fun _ => creating_stable) fun s c a s' hs _ hx => ?_
    cases hx
    exact ⟨keyState_guar rfl, hs⟩
  refine hgenerate.bind fun newKey => (setPassword_spares newKey).bind fun stored => ?_
  cases stored with
  | false => exact spares_pure none
  | true => exact spares_pure (some newKey)

theorem spares_masterKey : Spares who ok (getOrCreateMasterKey : Code π κ MasterKey) := by
  have hwithout : Spares who ok (keyWithoutKeyring : Code π κ MasterKey) :=
    spares_plain keyWithoutKeyring_plain
  have hlookup : Outline (exec who) (Creator π κ who ok)
      (fun found s => NoneReplaced s ∧ (found = (none, true) → Creating who s))
      (fun _ => NoneReplaced) NoneReplaced
      (keyringLookup true : Code π κ (Option MasterKey × Bool)) := by
    refine getPassword_creating.bind fun answer => ?_
    have hother : ∀ found : Option MasterKey × Bool, found ≠ (none, true) →
        Outline (exec who) (Creator π κ who ok)
          (fun found s => NoneReplaced s ∧ (found = (none, true) → Creating who s))
          (fun _ => NoneReplaced)
          (fun s => NoneReplaced s ∧ (answer = .answered .absent → Creating who s))
          (pure found : Code π κ (Option MasterKey × Bool)) :=
      fun found hne => Outline.pure absent_stable fun s hs => ⟨hs.1, fun heq => absurd heq hne⟩
    cases answer with
    | failed => exact hother _ (by decide)
    | answered entry =>
        cases entry with
        | absent => exact Outline.pure absent_stable fun s hs => ⟨hs.1, fun _ => hs.2 rfl⟩
        | key key => exact hother _ fun heq => by cases heq
        | damaged => exact hother _ (by decide)
  refine hlookup.bind fun found => ?_
  obtain ⟨found, answered⟩ := found
  have hdrop : ∀ {p : Code π κ MasterKey}, Spares who ok p → Outline (exec who) (Creator π κ who ok)
      (fun _ => NoneReplaced) (fun _ => NoneReplaced)
      (fun s => NoneReplaced s ∧ ((found, answered) = (none, true) → Creating who s)) p :=
    fun hp => hp.pre absent_stable fun _ hs => hs.1
  cases found with
  | some key => exact hdrop (spares_pure key)
  | none =>
      cases answered with
      | false => exact hdrop hwithout
      | true =>
          refine (spares_create.pre absent_stable fun s hs => ⟨hs.1, hs.2 rfl⟩).bind fun created => ?_
          cases created with
          | some key => exact spares_pure key
          | none => exact hwithout

theorem spares_tryKeys (data : Contents π) :
    ∀ (candidates : List (Code π κ (Option MasterKey))) (seen : List MasterKey),
      (∀ p ∈ candidates, Spares who ok p) → Spares who ok (tryKeys data candidates seen)
  | [], _, _ => Outline.throw noneReplaced_stable fun _ h => h
  | candidate :: rest, seen, h => by
      have hrest := fun seen => spares_tryKeys data rest seen fun p hp => h p (List.mem_cons_of_mem _ hp)
      refine (h _ List.mem_cons_self).bind fun found => ?_
      cases found with
      | none => exact hrest seen
      | some key =>
          refine Outline.ite (fun _ => hrest seen) fun _ => ?_
          cases data.decrypt key with
          | some text => exact spares_pure text
          | none => exact hrest _

theorem spares_decrypt (data : Contents π) :
    Spares who ok (decryptCredentials data : Code π κ π) := by
  refine Outline.ite (fun _ => Outline.throw noneReplaced_stable fun _ h => h) fun _ => ?_
  refine spares_tryKeys data _ _ fun p hp => ?_
  rcases List.mem_cons.1 hp with rfl | hp
  · exact spares_masterKey.bind fun key => spares_pure (some key)
  rcases List.mem_cons.1 hp with rfl | hp
  · exact spares_plain passphraseMasterKey_plain
  · cases List.mem_singleton.1 hp
    exact spares_pure _

theorem spares_encrypt (plaintext : π) (protectStore : Bool) :
    Spares who ok (encryptCredentials plaintext protectStore : Code π κ (Sealed π)) := by
  have hseal : ∀ key, Spares who ok (encrypt key plaintext : Code π κ (Sealed π)) :=
    fun key => spares_plain (Prog.uses_perform trivial)
  refine spares_masterKey.bind fun key => Outline.ite (fun _ => ?_) fun _ => hseal key
  refine (spares_plain weakKeyWriteIsSafe_plain).bind fun safe => ?_
  exact Outline.ite (fun _ => hseal key) fun _ => Outline.throw noneReplaced_stable fun _ h => h

end Creation

-- ===== runs

/-- A call that creates a keyring key looks for one while no other call
is creating one, and a decryption is made where the environment holds no
other passphrase than the file. -/
def keysOk (who : Who Pid) (request : KeyCall π) (op : Op π Unit) (_ : Choice) (s : Host π Unit) :
    Prop :=
  oneCreator op s ∧ (request.decrypts = true → s.unshadowed who.process)

/-- No entry appears in the keyring while a key is being created. -/
def changeOk (e : Change) (s : Host π Unit) : Prop :=
  match e with
  | .keyring entry => entry = .absent ∨ s.creating.isEmpty = true
  | _ => True

def Orderly : KeyEvent π → KeyWorld π → Prop := Machine.Fine keysOk changeOk

def keyDiscipline (π : Type) : Discipline (keyMachine π) where
  okOp := keysOk
  okEnv := changeOk
  rely := creationRely
  guar who _ := creationGuar who
  start _ := NoneReplaced
  returns _ _ _ := NoneReplaced
  raises _ _ _ := NoneReplaced
  outline who request := by
    have hspares : Spares who (fun _ _ s => request.decrypts = true → s.unshadowed who.process)
        request.program := by
      cases request with
      | encrypt plaintext protectStore =>
          exact (spares_encrypt plaintext protectStore).bind fun blob => spares_pure (KeyResult.sealed blob)
      | decrypt data => exact (spares_decrypt data).bind fun text => spares_pure (KeyResult.text text)
      | masterKey => exact spares_masterKey.bind fun key => spares_pure (KeyResult.key key)
    exact hspares
  others who who' _ s s' hne h := ⟨h.1, h.2 who' fun heq => hne heq.symm⟩
  crashed i who s hne := by
    refine ⟨fun h => h, fun h => ⟨?_, h.2⟩⟩
    have hkept : s.creating.filter (fun w => w.process ≠ i) = [who] := by
      rw [h.1]
      simp [hne]
    exact hkept
  idle i who s h := h
  around e who s s' hok hs := by
    cases hs
    cases e with
    | keyring entry =>
        refine ⟨fun h => h, fun h => ⟨h.1, ?_⟩⟩
        rcases hok with habsent | hnobody
        · exact habsent
        · exact absurd ((List.isEmpty_iff.1 hnobody).symm.trans h.1) (List.cons_ne_nil _ _).symm
    | _ => exact ⟨fun h => h, fun h => h⟩

/-- What holds at the end of a run: no keyring key was replaced; a
decryption at each of whose steps a source gave the key of the text
returns the text, once it is over; a call that is not over can go on. -/
structure Reachable (s₀ : Host π Unit) (es : List (KeyEvent π)) (w : KeyWorld π) : Prop where
  kept : NoneReplaced w.shared
  opened : ∀ before i blob during source w₁,
    es = before ++ .begin i (.decrypt (.sealed blob)) :: during →
    run (keyMachine π).step before ⟨s₀, []⟩ = some w₁ →
    Meets (keyMachine π).step
      (Machine.OnStep w₁.threads.length fun v => v.shared.holds i source = some blob.key)
      (.begin i (.decrypt (.sealed blob)) :: during) w₁ →
    ∀ t p, w.threads[w₁.threads.length]? = some t → t.code = some p → p.isOver = true →
      p = .ret (.text blob.text)
  goesOn : ∀ n t p, w.threads[n]? = some t → t.code = some p → p.isOver = false →
    ∃ c w', (keyMachine π).step (.step n c) w = some w'

theorem program_crypto (request : KeyCall π) : request.program.Uses Op.crypto := by
  cases request with
  | encrypt plaintext protectStore =>
      exact Prog.uses_bind (encryptCredentials_crypto plaintext protectStore) fun _ => trivial
  | decrypt data => exact Prog.uses_bind (decryptCredentials_crypto data) fun _ => trivial
  | masterKey => exact Prog.uses_bind getOrCreateMasterKey_crypto fun _ => trivial

theorem decrypt_opens {i : Pid} {blob : Sealed π} {source : Source}
    {during : List (KeyEvent π)} {w₁ w : KeyWorld π}
    (horderly : Meets (keyMachine π).step Orderly (.begin i (.decrypt (.sealed blob)) :: during) w₁)
    (hholds : Meets (keyMachine π).step
      (Machine.OnStep w₁.threads.length fun v => v.shared.holds i source = some blob.key)
      (.begin i (.decrypt (.sealed blob)) :: during) w₁)
    (hrun : run (keyMachine π).step (.begin i (.decrypt (.sealed blob)) :: during) w₁ = some w)
    {t : Thread (Op π Unit) (Ans π Unit) Failure (KeyResult π) Pid (KeyCall π)}
    {p : Code π Unit (KeyResult π)} (ht : w.threads[w₁.threads.length]? = some t)
    (hp : t.code = some p) (hover : p.isOver = true) : p = .ret (.text blob.text) := by
  obtain ⟨w₂, hbegin, hrest⟩ := run_cons hrun
  have hmeets := (horderly.2 w₂ hbegin).and (hholds.2 w₂ hbegin)
  cases hbegin
  let n := w₁.threads.length
  let t₂ : Thread (Op π Unit) (Ans π Unit) Failure (KeyResult π) Pid (KeyCall π) :=
    ⟨i, .decrypt (.sealed blob), some (KeyCall.program (.decrypt (.sealed blob)))⟩
  have ht₂ : (w₁.threads ++ [t₂])[n]? = some t₂ := by
    rw [List.getElem?_append_right (Nat.le_refl _), Nat.sub_self]
    rfl
  have hkept := hmeets.and_kept (P := fun v : KeyWorld π => ∃ t, v.threads[n]? = some t
    ∧ t.owner = i ∧ t.request = .decrypt (.sealed blob)) (fun e v v' _ ⟨t, ht, howner, hrequest⟩ hs => by
      obtain ⟨t', ht', howner', hrequest'⟩ := Machine.step_thread hs ht
      exact ⟨t', ht', howner'.trans howner, hrequest'.trans hrequest⟩) ⟨t₂, ht₂, rfl, rfl⟩
  have hgives : Gives ⟨n, i⟩ source blob.key (fun r => r = KeyResult.text blob.text)
      (KeyCall.program (.decrypt (.sealed blob))) :=
    (gives_decrypt _ _).bind fun text htext => gives_pure (congrArg KeyResult.text htext)
  have hfollows := Machine.carried (S := Reaching π Unit ⟨n, i⟩ source blob.key)
    (Q := fun r _ => r = KeyResult.text blob.text) (E := fun _ _ => False) (n := n) ?_
    (fun _ _ _ _ _ _ _ _ _ => Or.inr trivial) hkept ?_ ?_ hrest t ht
  · cases p with
    | ret r => rw [hfollows.returned hp]
    | raise e => exact (hfollows.raised hp).elim
    | call op rest => cases hover
  · rintro c v u op rest ⟨⟨hfine, hsource⟩, u', hu', howner, hrequest⟩ hu hcode
    cases Option.some.inj (hu.symm.trans hu')
    have hok := hfine.at hu hcode
    rw [howner, hrequest] at hok
    exact ⟨hsource rfl, fun _ => hok.2 rfl⟩
  · exact (List.getElem?_eq_some_iff.1 ht₂).1
  · intro u hu q hq
    cases Option.some.inj (ht₂.symm.trans hu)
    cases hq
    exact ⟨_, hgives, trivial⟩

/-- Keys that can be reached stay so, in every run in which keyring keys
are created one at a time and no decryption is made where the environment
shadows the passphrase file. -/
theorem keys_stay_reachable (s₀ : Host π Unit) (hs₀ : NoneReplaced s₀) (es : List (KeyEvent π))
    (w : KeyWorld π) (horderly : Meets (keyMachine π).step Orderly es ⟨s₀, []⟩)
    (hrun : run (keyMachine π).step es ⟨s₀, []⟩ = some w) : Reachable s₀ es w where
  kept := by
    have hinv := Discipline.kept horderly
      (Discipline.inv_start (d := keyDiscipline π) fun _ => hs₀) hrun
    exact hinv.idle ⟨w.threads.length, 0⟩ (Nat.le_refl _)
  opened before i blob during source w₁ hes hbefore hholds t p ht hp hover := by
    subst hes
    exact decrypt_opens (meets_drop horderly hbefore) hholds (run_drop hrun hbefore) ht hp hover
  goesOn n t p ht hp hover := by
    have huse := run_preserves (P := Machine.AllUse Op.crypto)
      (Machine.step_uses (m := keyMachine π) program_crypto) (fun n t p ht => by cases ht) hrun
    exact Machine.goes_on huse (fun who op s hop => exec_crypto s hop) ht hp hover

-- ===== concrete

instance (who : Who Pid) (request : KeyCall π) (op : Op π Unit) (c : Choice) (s : Host π Unit) :
    Decidable (keysOk who request op c s) :=
  inferInstanceAs (Decidable ((_ → _ → _ → _) ∧ (_ → _ ∨ _ ∨ _)))

instance (e : Change) (s : Host π Unit) : Decidable (changeOk e s) :=
  match e with
  | .keyring entry => inferInstanceAs (Decidable (entry = .absent ∨ s.creating.isEmpty = true))
  | .answering _ => isTrue trivial
  | .environ _ _ => isTrue trivial
  | .passphrase _ => isTrue trivial
  | .clock _ => isTrue trivial

def newHost (answering : Bool) (file : PassphraseFile) : Host PyStr Unit where
  keyring := .absent
  answering := answering
  minted := 0
  environ _ := none
  passphrase := file
  files _ := none
  mark := 0
  lock := none
  mutex _ := none
  own _ := ()
  clock := 0
  creating := []
  sealing := []
  replaced := []
  commits := []

def steps (n : Nat) (count : Nat) : List (KeyEvent PyStr) :=
  List.replicate count (.step n .succeeds)

def secret : PyStr := "sk".toList

def fileBlob : Sealed PyStr := ⟨.derived "p".toList, secret⟩

def fileHost : Host PyStr Unit := newHost false (.encrypted (some "p".toList))

def openingRun : List (KeyEvent PyStr) := .begin 0 (.decrypt (.sealed fileBlob)) :: steps 0 3

theorem openingRun_reachable : ∃ w,
    run (keyMachine PyStr).step openingRun ⟨fileHost, []⟩ = some w
      ∧ Reachable fileHost openingRun w := by
  have hsome : (run (keyMachine PyStr).step openingRun ⟨fileHost, []⟩).isSome = true := by
    decide +kernel
  obtain ⟨w, hw⟩ := Option.isSome_iff_exists.1 hsome
  have hnone : NoneReplaced fileHost := rfl
  have horderly : Meets (keyMachine PyStr).step Orderly openingRun ⟨fileHost, []⟩ := by
    unfold Orderly
    decide +kernel
  exact ⟨w, hw, keys_stay_reachable fileHost hnone openingRun w horderly hw⟩

/-- A text is sealed under the passphrase of the file, the environment
then holds another, and the text is opened again. -/
def shadowRun : List (KeyEvent PyStr) :=
  .begin 0 (.encrypt secret false) :: steps 0 4 ++ [.env (.environ 0 (some "q".toList))]

def shadowDecryption : List (KeyEvent PyStr) := steps 1 3

/-- Two processes find no entry, create a key each and seal with it. -/
def raceRun : List (KeyEvent PyStr) :=
  [.begin 0 (.encrypt secret false), .begin 1 (.encrypt secret false), .step 0 .succeeds,
    .step 1 .succeeds] ++ steps 0 3 ++ steps 1 3

/-- Both fail on the code: the file's passphrase is not tried while the
environment holds another, and a keyring key that has sealed is
replaced. -/
theorem keys_lost :
    (¬ ∀ w, run (keyMachine PyStr).step
        (shadowRun ++ .begin 0 (.decrypt (.sealed fileBlob)) :: shadowDecryption) ⟨fileHost, []⟩
          = some w →
        Reachable fileHost
          (shadowRun ++ .begin 0 (.decrypt (.sealed fileBlob)) :: shadowDecryption) w)
      ∧ ¬ ∀ w, run (keyMachine PyStr).step raceRun ⟨newHost true .missing, []⟩ = some w →
        Reachable (newHost true .missing) raceRun w := by
  refine ⟨fun h => ?_, fun h => ?_⟩
  · have hfirst : (run (keyMachine PyStr).step shadowRun ⟨fileHost, []⟩).map (fun w₁ =>
        (w₁.threads.length, decide (Meets (keyMachine PyStr).step
          (Machine.OnStep w₁.threads.length fun v =>
            v.shared.holds 0 .passphraseFile = some fileBlob.key)
          (.begin 0 (.decrypt (.sealed fileBlob)) :: shadowDecryption) w₁))) = some (1, true) := by
      decide +kernel
    have hlast : (run (keyMachine PyStr).step
        (shadowRun ++ .begin 0 (.decrypt (.sealed fileBlob)) :: shadowDecryption) ⟨fileHost, []⟩).map
          (fun w => w.threads[1]?.map fun t => t.code.map Prog.hasRaised)
        = some (some (some true)) := by
      decide +kernel
    obtain ⟨w₁, hw₁, hpair⟩ := Option.map_eq_some_iff.1 hfirst
    obtain ⟨w, hw, hthread⟩ := Option.map_eq_some_iff.1 hlast
    obtain ⟨t, ht, hcode⟩ := Option.map_eq_some_iff.1 hthread
    obtain ⟨p, hp, hraised⟩ := Option.map_eq_some_iff.1 hcode
    have hlength : w₁.threads.length = 1 := congrArg Prod.fst hpair
    have hholds := of_decide_eq_true (congrArg Prod.snd hpair)
    have hover : p.isOver = true := by
      cases p with
      | raise e => rfl
      | _ => cases hraised
    have hopened := (h w hw).opened shadowRun 0 fileBlob shadowDecryption .passphraseFile w₁ rfl hw₁
      hholds t p (hlength ▸ ht) hp hover
    rw [hopened] at hraised
    cases hraised
  · have hreplaced : (run (keyMachine PyStr).step raceRun ⟨newHost true .missing, []⟩).map
        (fun w => w.shared.replaced) = some [.random 0] := by decide +kernel
    obtain ⟨w, hw, hkeys⟩ := Option.map_eq_some_iff.1 hreplaced
    have hnone : w.shared.replaced = [] := (h w hw).kept
    rw [hkeys] at hnone
    cases hnone

end Velune.Providers
