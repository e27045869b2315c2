/-
What can come out of opening and sealing a text, whatever the sources do:
a text that is opened is the one that was sealed, and a process none of
whose sources gives the key at any of its steps does not open it.

With `gives_decrypt` these are what the store's own proofs use of the
encryption layer.
-/
import Velune.Providers.Proofs.Crypto

namespace Velune.Providers

open Lib
open Prog (ends_bind ends_any ends_ite ends_perform)

variable {π κ : Type}

-- ===== what returns

theorem decrypt_text {data : Contents π} {key : MasterKey} {text : π}
    (h : data.decrypt key = some text) : ∃ blob, data = .sealed blob ∧ text = blob.text := by
  cases data with
  | junk n => cases h
  | «sealed» blob =>
      refine ⟨blob, rfl, ?_⟩
      by_cases hkey : key = blob.key
      · exact (Option.some.inj ((if_pos hkey).symm.trans h)).symm
      · cases (if_neg hkey).symm.trans h

theorem ends_operation {op : Op π κ} :
    (Prog.perform op : Code π κ (Ans π κ op)).Ends (fun _ => True) fun _ => False := ends_perform op

theorem persistPassphrase_ends (passphrase : PyStr) :
    (persistPassphrase passphrase : Code π κ PUnit).Ends (fun _ => True) fun _ => False := by
  refine ends_bind ends_operation fun emptied _ => ?_
  cases emptied with
  | false => exact trivial
  | true => exact ends_bind ends_operation fun _ _ => trivial

theorem storedPassphrase_ends :
    (storedPassphrase : Code π κ (Option PyStr)).Ends (fun _ => True) fun _ => False := by
  refine ends_bind ends_operation fun file _ => ?_
  cases file with
  | plain text =>
      cases text with
      | none => exact trivial
      | some legacy =>
          exact ends_ite trivial (ends_bind (persistPassphrase_ends legacy) fun _ _ => trivial)
  | _ => exact trivial

theorem passphraseMasterKey_ends :
    (passphraseMasterKey : Code π κ (Option MasterKey)).Ends (fun _ => True) fun _ => False := by
  refine ends_bind ends_operation fun value _ => ?_
  cases derivedKey value with
  | some key => exact trivial
  | none => exact ends_bind storedPassphrase_ends fun _ _ => trivial

theorem keyringLookup_ends (creates : Bool) :
    (keyringLookup creates : Code π κ (Option MasterKey × Bool)).Ends (fun _ => True)
      fun _ => False := by
  refine ends_bind ends_operation fun answer _ => ?_
  cases answer with
  | failed => exact trivial
  | answered entry => cases entry <;> exact trivial

theorem promptForPassphrase_ends :
    (promptForPassphrase : Code π κ (Option PyStr)).Ends (fun _ => True) fun _ => False := by
  refine ends_bind ends_operation fun entered _ => ?_
  cases entered <;> exact trivial

theorem keyringCreateKey_ends :
    (keyringCreateKey : Code π κ (Option MasterKey)).Ends (fun _ => True) fun _ => False :=
  ends_bind ends_operation fun _ _ => ends_bind ends_operation fun _ _ => ends_ite trivial trivial

theorem keyWithoutKeyring_ends :
    (keyWithoutKeyring : Code π κ MasterKey).Ends (fun _ => True) fun _ => False := by
  refine ends_bind passphraseMasterKey_ends fun found _ => ?_
  cases found with
  | some key => exact trivial
  | none =>
      refine ends_bind ends_operation fun present _ => ends_ite trivial ?_
      refine ends_bind promptForPassphrase_ends fun chosen _ => ?_
      cases chosen with
      | none => exact trivial
      | some chosen => exact ends_bind (persistPassphrase_ends chosen) fun _ _ => trivial

theorem getOrCreateMasterKey_ends :
    (getOrCreateMasterKey : Code π κ MasterKey).Ends (fun _ => True) fun _ => False := by
  refine ends_bind (keyringLookup_ends true) fun found _ => ?_
  obtain ⟨found, answered⟩ := found
  cases found with
  | some key => exact trivial
  | none =>
      cases answered with
      | false => exact keyWithoutKeyring_ends
      | true =>
          refine ends_bind keyringCreateKey_ends fun created _ => ?_
          cases created with
          | some key => exact trivial
          | none => exact keyWithoutKeyring_ends

theorem tryKeys_ends (data : Contents π) :
    ∀ (candidates : List (Code π κ (Option MasterKey))) (seen : List MasterKey),
      (∀ p ∈ candidates, p.Ends (fun _ => True) fun _ => False) →
      (tryKeys data candidates seen).Ends (fun text => ∃ blob, data = .sealed blob ∧ text = blob.text)
        fun e => e = .decryption
  | [], _, _ => rfl
  | candidate :: rest, seen, h => by
      have hrest := fun seen => tryKeys_ends data rest seen fun p hp => h p (List.mem_cons_of_mem _ hp)
      refine ends_bind ((h _ List.mem_cons_self).mono (fun _ h => h) fun _ h => h.elim)
        fun found _ => ?_
      cases found with
      | none => exact hrest seen
      | some key =>
          refine ends_ite (hrest seen) ?_
          cases htext : data.decrypt key with
          | some text => exact decrypt_text htext
          | none => exact hrest _

/-- What decryption returns is what was sealed; else it raises one of two
errors. -/
theorem decryptCredentials_ends (data : Contents π) :
    (decryptCredentials data : Code π κ π).Ends
      (fun text => ∃ blob, data = .sealed blob ∧ text = blob.text)
      fun e => e = .tooShort ∨ e = .decryption := by
  refine ends_ite (Or.inl rfl) ((tryKeys_ends data _ _ fun p hp => ?_).mono (fun _ h => h)
    fun _ h => Or.inr h)
  rcases List.mem_cons.1 hp with rfl | hp
  · exact ends_bind getOrCreateMasterKey_ends fun _ _ => trivial
  rcases List.mem_cons.1 hp with rfl | hp
  · exact passphraseMasterKey_ends
  · cases List.mem_singleton.1 hp
    exact trivial

-- ===== learning

section Learns

variable {who : Who Pid} {ok : Op π κ → Choice → Host π κ → Prop} {ψ : Failure → Prop}

/-- A call among any others, at each of whose steps `ok` holds. -/
def Among (ok : Op π κ → Choice → Host π κ → Prop) : Setting (Op π κ) Choice (Host π κ) :=
  ⟨ok, fun _ _ => True, fun _ _ => True⟩

/-- Among these the program returns only what meets `φ` and raises only
what meets `ψ`. -/
def Learns {α : Type} (who : Who Pid) (ok : Op π κ → Choice → Host π κ → Prop) (φ : α → Prop)
    (ψ : Failure → Prop) (p : Code π κ α) : Prop :=
  Outline (exec who) (Among ok) (fun a _ => φ a) (fun e _ => ψ e) (fun _ => True) p

theorem among_stable (b : Prop) : (Among ok).Stable fun _ => b := fun _ _ _ h => h

theorem learns_pure {α : Type} {φ : α → Prop} {a : α} (h : φ a) :
    Learns who ok φ ψ (pure a : Code π κ α) := Outline.pure (among_stable _) fun _ _ => h

theorem Learns.bind {α β : Type} {φ : α → Prop} {χ : β → Prop} {p : Code π κ α}
    {f : α → Code π κ β} (hp : Learns who ok φ ψ p) (hf : ∀ a, φ a → Learns who ok χ ψ (f a)) :
    Learns who ok χ ψ (p >>= f) := Outline.bind hp fun a => Outline.of_pure (hf a)

theorem learns_perform (op : Op π κ) {φ : Ans π κ op → Prop}
    (h : ∀ s c a s', ok op c s → exec who op c s = some (a, s') → φ a) :
    Learns who ok φ ψ (Prog.perform op : Code π κ (Ans π κ op)) :=
  Outline.perform op (among_stable _) (fun _ => among_stable _)
    fun s c a s' _ hok hx => ⟨trivial, h s c a s' hok hx⟩

theorem learns_ends {α : Type} {φ : α → Prop} {p : Code π κ α} (h : p.Ends φ ψ) :
    Learns who ok φ ψ p := by
  induction p with
  | ret a => exact learns_pure h
  | raise e => exact Outline.throw (among_stable _) fun _ _ => h
  | call op rest ih =>
      exact .call (fun _ _ => True) (among_stable _) (fun _ _ _ _ _ _ _ => ⟨trivial, trivial⟩)
        fun a => ih a (h a)

theorem learns_any {α : Type} (p : Code π κ α) : Learns who ok (fun _ => True) (fun _ => True) p :=
  learns_ends (ends_any p)

theorem learns_encrypt (plaintext : π) (protectStore : Bool) :
    Learns who ok (fun blob => blob.text = plaintext) (fun _ => True)
      (encryptCredentials plaintext protectStore : Code π κ (Sealed π)) := by
  have hseal : ∀ key, Learns who ok (fun blob => blob.text = plaintext) (fun _ => True)
      (encrypt key plaintext : Code π κ (Sealed π)) := by
    refine fun key => learns_perform (.encrypt key plaintext) fun s c a s' _ hx => ?_
    cases hx
    rfl
  refine (learns_any getOrCreateMasterKey).bind fun key _ => Outline.ite (fun _ => ?_) fun _ => hseal key
  refine (learns_any weakKeyWriteIsSafe).bind fun safe _ => ?_
  exact Outline.ite (fun _ => hseal key) fun _ => Outline.throw (among_stable _) fun _ _ => trivial

end Learns

-- ===== no way in

def Op.brings : Op π κ → Choice → Option MasterKey
  | .setPassword key, _ => some key
  | .prompt, .typed (some text) => derivedKey (some (Text.strip text))
  | _, _ => none

def Barred (key : MasterKey) (i : Pid) (op : Op π κ) (c : Choice) (s : Host π κ) : Prop :=
  (∀ source, s.holds i source ≠ some key) ∧ op.brings c ≠ some key

section Barred

variable {who : Who Pid} {key : MasterKey}

theorem barred_stored : Learns who (Barred key who.process)
    (fun stored => derivedKey stored ≠ some key) (fun _ => True) (storedPassphrase : Code π κ (Option PyStr)) := by
  have hread : Learns who (Barred key who.process)
      (fun file : PassphraseFile => derivedKey file.value ≠ some key) (fun _ => True)
      (readPassphrase : Code π κ PassphraseFile) := by
    refine learns_perform .readPassphrase fun s c a s' hok hx => ?_
    cases hx
    exact hok.1 .passphraseFile
  refine hread.bind fun file hfile => ?_
  cases file with
  | missing => exact learns_pure hfile
  | empty => exact learns_pure hfile
  | encrypted passphrase => exact learns_pure hfile
  | plain text =>
      cases text with
      | none => exact learns_pure hfile
      | some legacy =>
          refine Outline.ite (fun _ => learns_pure fun h => by cases h) fun _ => ?_
          exact (learns_any _).bind fun _ _ => learns_pure hfile

theorem barred_passphraseKey : Learns who (Barred key who.process)
    (fun found => found ≠ some key) (fun _ => True) (passphraseMasterKey : Code π κ (Option MasterKey)) := by
  have hread : Learns who (Barred key who.process)
      (fun value : Option PyStr => derivedKey value ≠ some key) (fun _ => True)
      (environ : Code π κ (Option PyStr)) := by
    refine learns_perform .environ fun s c a s' hok hx => ?_
    cases hx
    exact hok.1 .environment
  refine hread.bind fun value hvalue => ?_
  cases hkey : derivedKey value with
  | some found =>
      rw [hkey] at hvalue
      exact learns_pure hvalue
  | none => exact barred_stored.bind fun stored hstored => learns_pure hstored

theorem barred_prompted : Learns who (Barred key who.process)
    (fun chosen => ∀ text, chosen = some text → MasterKey.derived text ≠ key) (fun _ => True)
    (promptForPassphrase : Code π κ (Option PyStr)) := by
  have hask : Learns who (Barred key who.process)
      (fun entered : Option PyStr => ∀ text, entered = some text →
        derivedKey (some (Text.strip text)) ≠ some key) (fun _ => True) (prompt : Code π κ (Option PyStr)) := by
    refine learns_perform .prompt fun s c a s' hok hx text htext => ?_
    cases c with
    | typed entered =>
        cases hx
        subst htext
        exact hok.2
    | _ => cases hx
  refine hask.bind fun entered hentered => ?_
  cases entered with
  | none => exact learns_pure fun text h => by cases h
  | some text =>
      refine learns_pure ?_
      by_cases hnil : Text.strip text = []
      · rw [if_pos hnil]
        exact fun text h => by cases h
      · rw [if_neg hnil]
        intro stripped h hkey
        cases h
        refine hentered text rfl ?_
        rw [derivedKey, if_neg hnil, hkey]

theorem barred_withoutKeyring (hkey : key ≠ .fallback) : Learns who (Barred key who.process)
    (fun found => found ≠ key) (fun _ => True) (keyWithoutKeyring : Code π κ MasterKey) := by
  refine barred_passphraseKey.bind fun found hfound => ?_
  cases found with
  | some found => exact learns_pure fun h => hfound (congrArg some h)
  | none =>
      refine (learns_any (fileExists .primary)).bind fun present _ => ?_
      cases present with
      | true => exact learns_pure hkey.symm
      | false =>
          refine barred_prompted.bind fun chosen hchosen => ?_
          cases chosen with
          | none => exact learns_pure hkey.symm
          | some chosen =>
              exact (learns_any (persistPassphrase chosen)).bind fun _ _ =>
                learns_pure (hchosen chosen rfl)

theorem barred_lookup (creates : Bool) : Learns who (Barred key who.process)
    (fun found => found.1 ≠ some key) (fun _ => True)
    (keyringLookup creates : Code π κ (Option MasterKey × Bool)) := by
  have hread : Learns who (Barred key who.process)
      (fun answer : Lookup => answer ≠ .answered (.key key)) (fun _ => True) (getPassword creates : Code π κ Lookup) := by
    refine learns_perform (.getPassword creates) fun s c a s' hok hx hanswer => ?_
    rw [exec_getPassword] at hx
    have hkeyring := hok.1 .keyring
    unfold Host.holds at hkeyring
    by_cases hanswers : s.answering = true
    · rw [if_pos hanswers] at hx hkeyring
      cases hx
      injection hanswer with hentry
      rw [hentry] at hkeyring
      exact hkeyring rfl
    · rw [if_neg hanswers] at hx
      cases hx
      cases hanswer
  refine hread.bind fun answer hanswer => ?_
  cases answer with
  | failed => exact learns_pure fun h => by cases h
  | answered entry =>
      cases entry with
      | absent => exact learns_pure fun h => by cases h
      | key found =>
          refine learns_pure fun h => hanswer ?_
          rw [Option.some.inj h]
      | damaged => exact learns_pure fun h => by cases h

theorem barred_create : Learns who (Barred key who.process) (fun created => created ≠ some key)
    (fun _ => True) (keyringCreateKey : Code π κ (Option MasterKey)) := by
  refine (learns_any generateKey).bind fun newKey _ => ?_
  have hset : Learns who (Barred key who.process) (fun _ => newKey ≠ key) (fun _ => True)
      (setPassword newKey : Code π κ Bool) :=
    learns_perform (.setPassword newKey) fun s c a s' hok _ h => hok.2 (congrArg some h)
  refine hset.bind fun stored hne => ?_
  cases stored with
  | false => exact learns_pure fun h => by cases h
  | true => exact learns_pure fun h => hne (Option.some.inj h)

theorem barred_masterKey (hkey : key ≠ .fallback) : Learns who (Barred key who.process)
    (fun found => found ≠ key) (fun _ => True) (getOrCreateMasterKey : Code π κ MasterKey) := by
  refine (barred_lookup true).bind fun found hfound => ?_
  obtain ⟨found, answered⟩ := found
  cases found with
  | some found => exact learns_pure fun h => hfound (congrArg some h)
  | none =>
      cases answered with
      | false => exact barred_withoutKeyring hkey
      | true =>
          refine barred_create.bind fun created hcreated => ?_
          cases created with
          | some created => exact learns_pure fun h => hcreated (congrArg some h)
          | none => exact barred_withoutKeyring hkey

theorem barred_tryKeys {blob : Sealed π} : ∀ (candidates : List (Code π κ (Option MasterKey)))
    (seen : List MasterKey), (∀ p ∈ candidates, Learns who (Barred blob.key who.process)
      (fun found => found ≠ some blob.key) (fun _ => True) p) →
      Learns who (Barred blob.key who.process) (fun _ => False) (fun _ => True)
        (tryKeys (.sealed blob) candidates seen)
  | [], _, _ => Outline.throw (among_stable _) fun _ _ => trivial
  | candidate :: rest, seen, h => by
      have hrest := fun seen => barred_tryKeys rest seen fun p hp => h p (List.mem_cons_of_mem _ hp)
      refine (h _ List.mem_cons_self).bind fun found hfound => ?_
      cases found with
      | none => exact hrest seen
      | some found =>
          refine Outline.ite (fun _ => hrest seen) fun _ => ?_
          rw [decrypt_other fun heq => hfound (congrArg some heq)]
          exact hrest _

/-- A process that is given the key by no source does not open the
text. -/
theorem barred_decrypt {blob : Sealed π} : Learns who (Barred blob.key who.process)
    (fun _ => False) (fun _ => True) (decryptCredentials (.sealed blob) : Code π κ π) := by
  by_cases hkey : blob.key = .fallback
  · -- then the machine always gives it, and no step is taken
    refine .call (fun _ _ => False) (among_stable _) (fun s c a s' _ hok => ?_) fun _ =>
      Outline.never _
    exact absurd (congrArg some hkey.symm) (hok.1 .machine)
  refine Outline.ite (fun _ => Outline.throw (among_stable _) fun _ _ => trivial) fun _ => barred_tryKeys _ _ fun p hp => ?_
  rcases List.mem_cons.1 hp with rfl | hp
  · exact (barred_masterKey hkey).bind fun found hfound =>
      learns_pure fun h => hfound (Option.some.inj h)
  rcases List.mem_cons.1 hp with rfl | hp
  · exact barred_passphraseKey
  · cases List.mem_singleton.1 hp
    exact learns_pure fun h => hkey (Option.some.inj h).symm

end Barred

end Velune.Providers
