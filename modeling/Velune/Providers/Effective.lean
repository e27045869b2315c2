/-
What is asked about a provider's key (`providers/keystore.py`): the key,
where it comes from, its state, whether there is one, and which providers
have one.

Each answer is computed for itself from the environment and the record.
They agree unless the environment has no key and the record has none either
(`agree_iff`): the listing counts such a record, and `has_key` an empty key.
The text of a key is a string, as every writer of the store leaves it.
-/
import Velune.Providers.Verifier

namespace Velune.Providers

open Lib

-- ===== environment

def PROVIDER_ENV_VARS : List (PyStr × PyStr) :=
  [("anthropic", "ANTHROPIC_API_KEY"), ("openai", "OPENAI_API_KEY"), ("xai", "XAI_API_KEY"),
    ("google", "GOOGLE_API_KEY"), ("groq", "GROQ_API_KEY"), ("openrouter", "OPENROUTER_API_KEY"),
    ("huggingface", "HF_TOKEN"), ("together", "TOGETHER_API_KEY"),
    ("fireworks", "FIREWORKS_API_KEY"), ("deepseek", "DEEPSEEK_API_KEY"),
    ("mistral", "MISTRAL_API_KEY"), ("cohere", "COHERE_API_KEY"), ("nvidia", "NVIDIA_API_KEY"),
    ("meta", "LLAMA_API_KEY")].map fun entry => (entry.1.toList, entry.2.toList)

def envAliases (providerId : PyStr) : List PyStr :=
  if providerId = "nvidia".toList then ["NGC_API_KEY".toList] else []

def PREFER_ENV_VAR : PyStr := "VELUNE_PREFER_ENV_KEYS".toList

def knownProviders : List PyStr := PROVIDER_ENV_VARS.map (·.1)

def providerEnvVars (providerId : PyStr) : List PyStr :=
  match PROVIDER_ENV_VARS.lookup providerId with
  | none => []
  | some primary => primary :: envAliases providerId

/-- `os.environ`. -/
abbrev Getenv := PyStr → Option PyStr

def envKey (getenv : Getenv) (providerId : PyStr) : Option (PyStr × PyStr) :=
  (providerEnvVars providerId).findSome? fun name =>
    let value := Text.strip ((getenv name).getD [])
    if value = [] then none else some (name, value)

def preferEnv (getenv : Getenv) : Bool :=
  ["1", "true", "yes", "on"].any fun word =>
    (Text.strip ((getenv PREFER_ENV_VAR).getD [])).map Char.toLower == word.toList

def environOf (getenv : Getenv) : Environ where
  key providerId := (envKey getenv providerId).map (·.2)
  prefer := preferEnv getenv

-- ===== answers

/-- `KeyState`: the states of a stored key, and two more. -/
inductive CredentialState
  | env
  | missing
  | known (state : KeyState)
  deriving DecidableEq

def verificationState (young : PyStr → Bool) (env : Environ) (table : Table) (providerId : PyStr) :
    CredentialState :=
  match env.keySource table providerId with
  | .environment => .env
  | .none => .missing
  | .stored => .known (storedState young ((table.get? providerId).getD []))

def hasKey (env : Environ) (table : Table) (providerId : PyStr) : Bool :=
  (env.getKey table providerId).isSome

/-- `list_configured_providers`; `ollama` says that it is asked for and
alive. -/
def listConfiguredProviders (getenv : Getenv) (table : Table) (ollama : Bool) : List PyStr :=
  let ordered := knownProviders.filter fun providerId =>
    (envKey getenv providerId).isSome || (table.get? providerId).isSome
  if ollama then "ollama".toList :: ordered else ordered

-- ===== agreement

def IsKey (value : Option Value) : Prop := ∃ text, text ≠ [] ∧ value = some (.str text)

structure Agree (young : PyStr → Bool) (getenv : Getenv) (table : Table) (ollama : Bool)
    (providerId : PyStr) : Prop where
  source : IsKey ((environOf getenv).getKey table providerId)
    ↔ (environOf getenv).keySource table providerId ≠ .none
  state : (environOf getenv).keySource table providerId ≠ .none
    ↔ verificationState young (environOf getenv) table providerId ≠ .missing
  has : verificationState young (environOf getenv) table providerId ≠ .missing
    ↔ hasKey (environOf getenv) table providerId = true
  environment : ∀ text, (environOf getenv).key providerId = some text →
    ((environOf getenv).getKey table providerId = some (.str text) ↔
      (environOf getenv).keySource table providerId = .environment
        ∨ storedKey table providerId = some (.str text))
  stored : ∀ text, text ≠ [] → storedKey table providerId = some (.str text) →
    ((environOf getenv).getKey table providerId = some (.str text) ↔
      (environOf getenv).keySource table providerId = .stored
        ∨ (environOf getenv).key providerId = some text)
  listed : providerId ∈ knownProviders →
    (providerId ∈ listConfiguredProviders getenv table ollama
      ↔ hasKey (environOf getenv) table providerId = true)

/-- A record that is asked for its key has one; one of a provider without
variables may be without the field. -/
def Keyed (getenv : Getenv) (table : Table) (providerId : PyStr) : Prop :=
  envKey getenv providerId = none → ∀ record, table.get? providerId = some record →
    IsKey (record.get? "key".toList) ∨
      (record.get? "key".toList = none ∧ providerId ∉ knownProviders)

theorem truthy_str {text : PyStr} : (Value.str text).truthy = true ↔ text ≠ [] := by
  cases text <;> simp [Value.truthy]

theorem value_ne_nil {getenv : Getenv} {providerId name value : PyStr}
    (h : envKey getenv providerId = some (name, value)) : value ≠ [] := by
  obtain ⟨candidate, -, hfound⟩ := List.exists_of_findSome?_eq_some h
  dsimp only at hfound
  split at hfound
  · cases hfound
  next hvalue =>
    cases hfound
    exact hvalue

theorem mem_listConfigured {getenv : Getenv} {table : Table} {ollama : Bool} {providerId : PyStr}
    (h : providerId ∈ knownProviders) :
    providerId ∈ listConfiguredProviders getenv table ollama ↔
      (envKey getenv providerId).isSome = true ∨ (table.get? providerId).isSome = true := by
  have hother : providerId ≠ "ollama".toList := by
    rintro rfl
    exact absurd h (by decide +kernel)
  have hordered : providerId ∈ listConfiguredProviders getenv table false ↔
      (envKey getenv providerId).isSome = true ∨ (table.get? providerId).isSome = true := by
    simp [listConfiguredProviders, h]
  cases ollama with
  | false => exact hordered
  | true => exact (List.mem_cons.trans (or_iff_right hother)).trans hordered

/-- Whose key is in effect, and what the other answers are then. -/
inductive InEffect (env : Environ) (table : Table) (providerId : PyStr) : Prop
  | environment {text : PyStr} : text ≠ [] → env.key providerId = some text →
      env.getKey table providerId = some (.str text) →
      env.keySource table providerId = .environment → InEffect env table providerId
  | stored {text : PyStr} : text ≠ [] → storedKey table providerId = some (.str text) →
      env.getKey table providerId = some (.str text) →
      env.keySource table providerId = .stored → InEffect env table providerId
  | neither : env.key providerId = none →
      (storedKey table providerId = none ∨ storedKey table providerId = some (.str [])) →
      env.getKey table providerId = storedKey table providerId →
      env.keySource table providerId = .none → InEffect env table providerId

variable {young : PyStr → Bool} {getenv : Getenv} {table : Table} {ollama : Bool}
  {providerId : PyStr}

theorem inEffect (hkeys : ∀ value, storedKey table providerId = some value → ∃ text, value = .str text) :
    InEffect (environOf getenv) table providerId := by
  unfold environOf
  cases henv : envKey getenv providerId with
  | none =>
      cases hstored : storedKey table providerId with
      | none =>
          exact .neither (by simp [henv]) (.inl hstored) (by simp [Environ.getKey, henv, hstored])
            (by simp [Environ.keySource, henv, hstored])
      | some value =>
          obtain ⟨text, rfl⟩ := hkeys value hstored
          by_cases htext : text = []
          · subst htext
            exact .neither (by simp [henv]) (.inr hstored) (by simp [Environ.getKey, henv, hstored])
              (by simp [Environ.keySource, henv, hstored, Value.truthy])
          · exact .stored htext hstored (by simp [Environ.getKey, henv, hstored])
              (by simp [Environ.keySource, henv, hstored, truthy_str, htext])
  | some found =>
      obtain ⟨name, text⟩ := found
      have htext := value_ne_nil henv
      cases hstored : storedKey table providerId with
      | none =>
          exact .environment htext (by simp [henv]) (by simp [Environ.getKey, henv, hstored])
            (by simp [Environ.keySource, henv, hstored])
      | some value =>
          obtain ⟨own, rfl⟩ := hkeys value hstored
          by_cases hown : preferEnv getenv = true ∨ own = []
          · refine .environment htext (by simp [henv]) ?_ ?_
            · rcases hown with h | h <;> simp [Environ.getKey, henv, hstored, h, Value.truthy]
            · rcases hown with h | h <;> simp [Environ.keySource, henv, hstored, h, Value.truthy]
          · obtain ⟨hprefer, hown⟩ := not_or.1 hown
            have htruthy : (Value.str own).truthy = true := truthy_str.2 hown
            refine .stored hown hstored ?_ ?_
            · simp [Environ.getKey, henv, hstored, htruthy, hprefer]
            · simp [Environ.keySource, henv, hstored, htruthy, hprefer]

theorem state_missing_iff {env : Environ} :
    verificationState young env table providerId = .missing
      ↔ env.keySource table providerId = .none := by
  unfold verificationState
  cases env.keySource table providerId <;> simp

/-- The answers agree exactly when no record is without a key that the
environment does not have either. -/
theorem agree_iff (young : PyStr → Bool) (ollama : Bool)
    (hkeys : ∀ value, storedKey table providerId = some value → ∃ text, value = .str text) :
    Agree young getenv table ollama providerId ↔ Keyed getenv table providerId := by
  have hkey : ∀ {text : PyStr}, (environOf getenv).key providerId = some text →
      (envKey getenv providerId).isSome = true := by
    intro text h
    obtain ⟨found, hfound, -⟩ := Option.map_eq_some_iff.1 h
    rw [hfound]
    rfl
  have hrecord : ∀ {value : Value}, storedKey table providerId = some value →
      (table.get? providerId).isSome = true := by
    intro value h
    obtain ⟨record, hrecord, -⟩ := Option.bind_eq_some_iff.1 h
    rw [hrecord]
    rfl
  cases @inEffect getenv table providerId hkeys with
  | environment htext henv hget hsource =>
      refine iff_of_true ?_ fun hnone => ?_
      · refine ⟨?_, ?_, ?_, fun text h => ?_, fun text _ h => ?_, fun hknown => ?_⟩
        · exact iff_of_true ⟨_, htext, hget⟩ (by rw [hsource]; decide)
        · rw [ne_eq, ne_eq, state_missing_iff]
        · rw [ne_eq, state_missing_iff, hasKey, hget, hsource]
          exact iff_of_true (by decide) rfl
        · rw [henv, Option.some.injEq] at h
          exact iff_of_true (by rw [hget, h]) (.inl hsource)
        · rw [hget, hsource, henv]
          simp
        · rw [mem_listConfigured hknown, hasKey, hget]
          exact iff_of_true (.inl (hkey henv)) rfl
      · have hsome := hkey henv
        rw [hnone] at hsome
        cases hsome
  | stored htext hstored hget hsource =>
      refine iff_of_true ?_ fun hnone record hrec => .inl ⟨_, htext, ?_⟩
      · refine ⟨?_, ?_, ?_, fun text h => ?_, fun text _ h => ?_, fun hknown => ?_⟩
        · exact iff_of_true ⟨_, htext, hget⟩ (by rw [hsource]; decide)
        · rw [ne_eq, ne_eq, state_missing_iff]
        · rw [ne_eq, state_missing_iff, hasKey, hget, hsource]
          exact iff_of_true (by decide) rfl
        · rw [hget, hsource, hstored]
          simp
        · rw [hstored, Option.some.injEq] at h
          exact iff_of_true (by rw [hget, h]) (.inl hsource)
        · rw [mem_listConfigured hknown, hasKey, hget]
          exact iff_of_true (.inr (hrecord hstored)) rfl
      · rwa [storedKey, hrec] at hstored
  | neither henv hstored hget hsource =>
      have hnone : envKey getenv providerId = none := Option.map_eq_none_iff.1 henv
      constructor
      · intro h _ record hrec
        have hhas := h.has
        rw [ne_eq, state_missing_iff, hasKey, hget] at hhas
        have hmissing : storedKey table providerId = none := by
          refine hstored.resolve_right fun hempty => ?_
          rw [hempty] at hhas
          exact hhas.2 rfl hsource
        refine .inr ⟨by rwa [storedKey, hrec] at hmissing, fun hknown => ?_⟩
        have hlisted := (h.listed hknown).1 ((mem_listConfigured hknown).2 (.inr (by rw [hrec]; rfl)))
        rw [hasKey, hget, hmissing] at hlisted
        cases hlisted
      · intro h
        have hmissing : storedKey table providerId = none ∧
            (providerId ∈ knownProviders → table.get? providerId = none) := by
          cases hrec : table.get? providerId with
          | none => exact ⟨by rw [storedKey, hrec]; rfl, fun _ => rfl⟩
          | some record =>
              have hfield : storedKey table providerId = record.get? "key".toList := by
                rw [storedKey, hrec]
                rfl
              rcases h hnone record hrec with ⟨text, htext, hkeyed⟩ | ⟨hno, hunknown⟩
              · rw [hfield, hkeyed] at hstored
                rcases hstored with hbad | hbad
                · cases hbad
                · cases hbad
                  exact absurd rfl htext
              · exact ⟨by rw [hfield, hno], fun hknown => absurd hknown hunknown⟩
        rw [hmissing.1] at hget
        refine ⟨?_, ?_, ?_, fun text h => ?_, fun text _ h => ?_, fun hknown => ?_⟩
        · refine iff_of_false (fun ⟨text, _, h⟩ => ?_) fun hne => hne hsource
          rw [hget] at h
          cases h
        · rw [ne_eq, ne_eq, state_missing_iff]
        · rw [ne_eq, state_missing_iff, hasKey, hget]
          exact iff_of_false (fun hne => hne hsource) (by decide)
        · rw [henv] at h
          cases h
        · rw [hmissing.1] at h
          cases h
        · rw [mem_listConfigured hknown, hnone, hmissing.2 hknown, hasKey, hget]
          decide

def savedOnly : Table := [("openai".toList, [("key".toList, .str "sk".toList)])]

theorem agree_iff_saved : Agree (fun _ => false) (fun _ => none) savedOnly true "openai".toList := by
  refine (agree_iff (fun _ => false) true fun value h => ⟨"sk".toList, ?_⟩).2 fun _ record h => ?_
  · exact (Option.some.inj h).symm
  · obtain rfl := Option.some.inj h
    exact .inl ⟨"sk".toList, by decide, rfl⟩

/-- A record whose key is empty: `has_key` says that there is one. -/
theorem not_agree_empty : ¬ Agree (fun _ => false) (fun _ => none)
    [("openai".toList, [("key".toList, .str [])])] false "openai".toList := fun h =>
  h.has.2 rfl rfl

end Velune.Providers
