/-
The adapters of a process (`providers/registry.py`): built by factories
with the key in effect, or handed in, and kept by name. Whether one is
still good is told by the revision of its key, which the manager of this
process counts up when it saves or deletes a key.

`served` is the table a read of this process gives; another process that
writes the store changes it. What an adapter does with its key is left
out, and so are base URLs.
-/
import Velune.Lib.Dict
import Velune.Providers.Verifier

namespace Velune.Providers

open Lib

-- ===== adapters

def canonicalProviderId (providerId : PyStr) : PyStr :=
  if providerId = "nvidia_nim".toList then "nvidia".toList
  else if providerId = "nvidia_nim_local".toList then "openai-compat".toList
  else providerId

def keyedFactories : List String :=
  ["openai", "anthropic", "huggingface", "xai", "google", "groq", "openrouter", "together",
    "fireworks", "deepseek", "mistral", "cohere", "nvidia", "meta"]

def plainFactories : List String := ["ollama", "lmstudio", "openai-compat", "llamacpp"]

def takesKey (name : PyStr) : Bool := keyedFactories.any fun factory => name = factory.toList

def hasFactory (name : PyStr) : Bool :=
  takesKey name || plainFactories.any fun factory => name = factory.toList

inductive Provider
  /-- An instance that was handed in. -/
  | handed (id : Nat)
  /-- One a factory built with this key. -/
  | keyed (key : Option Value)
  /-- One a factory built without. -/
  | plain
  deriving DecidableEq

/-- A process: its manager, its environment and its registry; and the
instances that were handed in since they were invalidated or the key of
their name changed. -/
structure RegistryState where
  served : Table
  env : Environ
  keyRevisions : Assoc PyStr Nat
  providers : Assoc PyStr Provider
  providerKeyRevisions : Assoc PyStr Nat
  owned : Dict PyStr Nat

/-- `keystore.get_key`. -/
def RegistryState.key (s : RegistryState) (name : PyStr) : Option Value :=
  s.env.getKey s.served name

def RegistryState.keyRevision (s : RegistryState) (name : PyStr) : Nat :=
  (s.keyRevisions.get? name).getD 0

def RegistryState.bumpRevision (s : RegistryState) (name : PyStr) : RegistryState :=
  { s with keyRevisions := s.keyRevisions.set name (s.keyRevision name + 1) }

def RegistryState.build (s : RegistryState) (name : PyStr) : Provider :=
  if takesKey name then .keyed (s.key name) else .plain

/-- The end of `get`, where nothing is cached. -/
def RegistryState.rebuild (s : RegistryState) (name : PyStr) : Option Provider × RegistryState :=
  if hasFactory name then
    (some (s.build name),
      { s with
        providers := s.providers.set name (s.build name)
        providerKeyRevisions := s.providerKeyRevisions.set name (s.keyRevision name) })
  else (none, s)

def RegistryState.get (s : RegistryState) (name : PyStr) : Option Provider × RegistryState :=
  let name := canonicalProviderId name
  match s.providers.get? name with
  | some provider =>
      if hasFactory name && s.providerKeyRevisions.get? name ≠ some (s.keyRevision name) then
        { s with providers := s.providers.pop name }.rebuild name
      else (some provider, s)
  | none => s.rebuild name

-- ===== events

inductive RegistryEvent
  | get (name : PyStr)
  | register (name : PyStr) (id : Nat)
  | invalidate (name : Option PyStr)
  /-- `save_provider`, on the table that is read under the lock. -/
  | save (name key status now : PyStr) (stored : Table)
  | delete (name : PyStr) (stored : Table)
  | updateStatus (name status now : PyStr) (extra : Record) (stored : Table)
  /-- Another process writes the store. -/
  | foreign (stored : Table)
  | environ (env : Environ)

/-- An instance is owned no longer when the key of its name has changed. -/
def RegistryState.since (s' s : RegistryState) : RegistryState :=
  { s' with owned := fun name => if s'.key name = s.key name then s'.owned name else none }

def RegistryState.invalidate (s : RegistryState) : Option PyStr → RegistryState
  | none => { s with providers := [], providerKeyRevisions := [], owned := Dict.empty }
  | some name =>
      { s with
        providers := s.providers.pop name
        providerKeyRevisions := s.providerKeyRevisions.pop name
        owned := s.owned.erase name }

def RegistryState.after (s : RegistryState) : RegistryEvent → RegistryState
  | .get name => (s.get name).2
  | .register name id =>
      { s with providers := s.providers.set name (.handed id), owned := s.owned.insert name id }
  | .invalidate name => s.invalidate name
  | .save name key status now stored =>
      { s with served := applySave name (savedRecord key status now) stored }.bumpRevision name
  | .delete name stored =>
      if (s.served.get? name).isSome then
        { s with served := applyDelete name stored }.bumpRevision name
      else s
  | .updateStatus name status now extra stored =>
      if (s.served.get? name).isSome then
        { s with served := applyStatus name status now extra stored }
      else s
  | .foreign stored => { s with served := stored }
  | .environ env => { s with env := env }

def registryStep (event : RegistryEvent) (s : RegistryState) : Option RegistryState :=
  some ((s.after event).since s)

end Velune.Providers
