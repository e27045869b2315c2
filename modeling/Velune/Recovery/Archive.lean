/-
Backup and restore of the state of a machine (`recovery/archive.py`), and
what a dry run of the restore says of it.

A place is looked at before the dry run returns, but the records of the
providers are not, and to ask for the place of the memory makes its
directory. So a dry run predicts a restore exactly when it meets no record
that would be skipped and does not make that directory, when no place is
blocked, and when no two items that are both missing share one place
(`predicted_iff`).

Places are what paths resolve to. An item stands for the texts that both
runs list it by; the LanceDB store is one item. The directory of the memory
can be made and the store of the keys can be saved.
-/
import Mathlib.Data.List.Lex
import Mathlib.Data.List.Sort
import Velune.Providers.Effective

namespace Velune.Recovery

open Lib Providers

-- ===== archives

inductive Subsystem where
  | sessions
  | config
  | providers
  | memory
  | trust
  deriving DecidableEq

def SUBSYSTEMS : List Subsystem := [.sessions, .config, .providers, .memory, .trust]

inductive Slot where
  | session (name : PyStr)
  | workspaceToml
  | workspaceDot
  | homeToml
  | db
  | store
  | trust
  deriving DecidableEq

structure Records where
  entries : Assoc PyStr PyStr
  nodup : entries.keys.Nodup

inductive ProviderExport where
  | plain (records : Records)
  | encrypted (passphrase : PyStr) (records : Records)

/-- An archive: the subsystems of its manifest, the names of its sessions in
order, which other files it has, and the export of the providers. -/
structure Archive where
  manifest : List Subsystem
  sessions : List PyStr
  holds : Slot → Bool
  content : Slot → List UInt8
  providers : Option ProviderExport

inductive Item where
  | file (slot : Slot)
  | provider (pid : PyStr)
  | passphraseRequired
  | wrongPassphrase
  deriving DecidableEq

variable {Place : Type}

/-- The target machine. A place that is blocked cannot be written, as a file
stands in its way. -/
structure Machine (Place : Type) where
  files : Place → Option (List UInt8)
  blocked : Place → Bool
  storage : Bool
  getenv : Getenv
  table : Table

def MASK : PyStr := "***".toList

def exportProviderSecrets (m : Machine Place) : Assoc PyStr PyStr :=
  PROVIDER_ENV_VARS.foldl
    (fun snap entry =>
      match snap.get? entry.1, m.getenv entry.2 with
      | none, some (c :: value) => snap.set entry.1 (c :: value)
      | _, _ => snap)
    (m.table.map fun entry => (entry.1, (((entry.2.get? "key".toList).map Value.text).getD [])))

-- ===== restore

section Restore

variable [DecidableEq Place] (target : Slot → Place) (archive : Archive) (passphrase : PyStr)
  (overwrite dry : Bool)

/-- `_place_file`, and the branch of the LanceDB store. To ask for a place of
the memory makes its directory. -/
def placeFile (m : Machine Place) (slot : Slot) :
    Option (Machine Place × List Item × List Item) :=
  let m := if slot = .db ∨ slot = .store then { m with storage := true } else m
  if (m.files (target slot)).isSome && !overwrite then some (m, [], [.file slot])
  else if dry then some (m, [.file slot], [])
  else if m.blocked (target slot) then none
  else
    some ({ m with files := Function.update m.files (target slot) (some (archive.content slot)) },
      [.file slot], [])

/-- `import_providers_json`: the table, what is imported and what is
skipped. -/
def importProvidersJson (getenv : Getenv) : Assoc PyStr PyStr → Table →
    Table × List PyStr × List PyStr
  | [], table => (table, [], [])
  | (pid, entry) :: rest, table =>
      let key := Text.strip entry
      if key = [] ∨ key = MASK ∨ (!overwrite && hasKey (environOf getenv) table pid) then
        let (table, imported, skipped) := importProvidersJson getenv rest table
        (table, imported, pid :: skipped)
      else
        let (table, imported, skipped) := importProvidersJson getenv rest
          (table.set pid [("key".toList, .str key), ("status".toList, .str STATUS_UNVERIFIED)])
        (table, pid :: imported, skipped)

def Archive.payload : Except (List Item) Records :=
  match archive.providers with
  | none => .error []
  | some (.plain records) => .ok records
  | some (.encrypted secret records) =>
      if passphrase = [] then .error [.passphraseRequired]
      else if passphrase = secret then .ok records
      else .error [.wrongPassphrase]

def sortedIds (pids : List PyStr) : List Item := (pids.insertionSort (· ≤ ·)).map .provider

def restoreProviders (m : Machine Place) : Machine Place × List Item × List Item :=
  match archive.payload passphrase with
  | .error skipped => (m, [], skipped)
  | .ok records =>
      if dry then (m, sortedIds records.entries.keys, [])
      else
        let (table, imported, skipped) := importProvidersJson overwrite m.getenv records.entries m.table
        ({ m with table := table }, sortedIds imported, sortedIds skipped)

inductive Step where
  | place (slot : Slot)
  | providers

def Archive.steps : Subsystem → List Step
  | .sessions => archive.sessions.map fun name => .place (.session name)
  | .config => ([.workspaceToml, .workspaceDot, .homeToml].filter archive.holds).map .place
  | .providers => [.providers]
  | .memory => ([.db, .store].filter archive.holds).map .place
  | .trust => ([.trust].filter archive.holds).map .place

def runStep (m : Machine Place) : Step → Option (Machine Place × List Item × List Item)
  | .place slot => placeFile target archive overwrite dry m slot
  | .providers => some (restoreProviders archive passphrase overwrite dry m)

/-- The steps' restored and skipped items, one list behind another. -/
def runSteps : List Step → Machine Place → Option (Machine Place × List Item × List Item)
  | [], m => some (m, [], [])
  | step :: rest, m =>
      (runStep target archive passphrase overwrite dry m step).bind fun first =>
        (runSteps rest first.1).map fun later =>
          (later.1, first.2.1 ++ later.2.1, first.2.2 ++ later.2.2)

/-- The steps of the subsystems that are selected (all, when none is) and in
the manifest. -/
def Archive.plan (selected : List Subsystem) : List Step :=
  (SUBSYSTEMS.filter fun name => (selected = [] ∨ name ∈ selected) ∧ name ∈ archive.manifest).flatMap
    archive.steps

/-- `restore_backup`; nothing where it raises. -/
def restoreBackup (selected : List Subsystem) (m : Machine Place) :
    Option (Machine Place × List Item × List Item) :=
  runSteps target archive passphrase overwrite dry (archive.plan selected) m

end Restore

/-- `create_backup`, of a machine with these session files; with a passphrase
the keys are exported, and encrypted. -/
def createBackup (target : Slot → Place) (m : Machine Place) (sessions : List PyStr)
    (selected : List Subsystem) (passphrase : Option PyStr)
    (h : (exportProviderSecrets m).keys.Nodup) : Archive where
  manifest := SUBSYSTEMS.filter fun name => selected = [] ∨ name ∈ selected
  sessions := sessions.insertionSort (· ≤ ·)
  holds slot := (m.files (target slot)).isSome
  content slot := (m.files (target slot)).getD []
  providers :=
    match passphrase with
    | some secret => some (.encrypted secret ⟨exportProviderSecrets m, h⟩)
    | none => some (.plain ⟨(exportProviderSecrets m).map fun entry => (entry.1, MASK), by
        rw [Assoc.keys, List.map_map]; exact h⟩)

-- ===== property

section Property

variable (target : Slot → Place) (archive : Archive) (passphrase : PyStr) (overwrite : Bool)

/-- A dry run leaves the machine as it is and lists what the restore lists. -/
structure Predicted [DecidableEq Place] (selected : List Subsystem) (m : Machine Place) : Prop where
  untouched : ∃ lists, restoreBackup target archive passphrase overwrite true selected m =
    some (m, lists)
  listed : (restoreBackup target archive passphrase overwrite true selected m).map (·.2) =
    (restoreBackup target archive passphrase overwrite false selected m).map (·.2)

def Stays (m : Machine Place) (slot : Slot) : Prop :=
  (m.files (target slot)).isSome = true ∧ overwrite = false

def Importable (m : Machine Place) (record : PyStr × PyStr) : Prop :=
  Text.strip record.2 ≠ [] ∧ Text.strip record.2 ≠ MASK ∧
    (overwrite = true ∨ hasKey (environOf m.getenv) m.table record.1 = false)

/-- What a dry run does not look at is as it takes it to be; `taken` are
places that are written before. -/
structure Clear (m : Machine Place) (taken : Place → Prop) (steps : List Step) : Prop where
  unblocked : ∀ slot, .place slot ∈ steps → Stays target overwrite m slot ∨
    (m.blocked (target slot) = false ∧ (overwrite = true ∨ ¬ taken (target slot)))
  apart : overwrite = true ∨ steps.Pairwise fun a b => ∀ s t, a = .place s → b = .place t →
    Stays target overwrite m s ∨ target s ≠ target t
  records : .providers ∈ steps → ∀ records, archive.payload passphrase = .ok records →
    ∀ record ∈ records.entries, Importable overwrite m record

def Asks : Step → Prop
  | .place slot => slot = .db ∨ slot = .store
  | .providers => False

end Property

-- ===== the records

section Records

variable {archive : Archive} {passphrase : PyStr} {overwrite : Bool} {getenv : Getenv}

theorem hasKey_set {env : Environ} {table : Table} {pid other : PyStr} (record : Record)
    (h : other ≠ pid) : hasKey env (table.set pid record) other = hasKey env table other := by
  rw [hasKey, hasKey, Environ.getKey, Environ.getKey, storedKey, storedKey,
    Assoc.get?_set_of_ne _ _ h]

theorem imported_length : ∀ (entries : Assoc PyStr PyStr) (table : Table),
    (importProvidersJson overwrite getenv entries table).2.1.length +
      (importProvidersJson overwrite getenv entries table).2.2.length = entries.length := by
  intro entries
  induction entries with
  | nil => exact fun _ => rfl
  | cons e rest ih =>
      intro table
      rw [importProvidersJson]
      split
      next => exact (Nat.add_succ _ _).trans (congrArg Nat.succ (ih table))
      next => exact (Nat.succ_add _ _).trans (congrArg Nat.succ (ih _))

theorem imported_all : ∀ (entries : Assoc PyStr PyStr) (table : Table),
    (importProvidersJson overwrite getenv entries table).2.2 = [] →
      (importProvidersJson overwrite getenv entries table).2.1 = entries.keys := by
  intro entries
  induction entries with
  | nil => exact fun _ _ => rfl
  | cons e rest ih =>
      intro table
      rw [importProvidersJson]
      split
      next => exact fun h => by cases h
      next => exact fun h => congrArg (e.1 :: ·) (ih _ h)

variable (overwrite getenv) in
/-- No record is skipped exactly when each may be imported at the start. -/
theorem skipped_iff : ∀ (entries : Assoc PyStr PyStr) (table : Table), entries.keys.Nodup →
    ((importProvidersJson overwrite getenv entries table).2.2 = [] ↔
      ∀ record ∈ entries, Text.strip record.2 ≠ [] ∧ Text.strip record.2 ≠ MASK ∧
        (overwrite = true ∨ hasKey (environOf getenv) table record.1 = false)) := by
  intro entries
  induction entries with
  | nil => exact fun _ _ => iff_of_true rfl fun _ h => absurd h List.not_mem_nil
  | cons e rest ih =>
      intro table h
      obtain ⟨hnew, hrest⟩ := List.nodup_cons.1 h
      rw [importProvidersJson, List.forall_mem_cons]
      split
      next hskip =>
        refine iff_of_false (fun h => by cases h) fun hall => ?_
        rcases hskip with hempty | hmask | hhas
        · exact hall.1.1 hempty
        · exact hall.1.2.1 hmask
        · rw [Bool.and_eq_true, Bool.not_eq_true'] at hhas
          rcases hall.1.2.2 with hover | hfree
          · cases hhas.1.symm.trans hover
          · cases hhas.2.symm.trans hfree
      next hkept =>
        have hhead : Text.strip e.2 ≠ [] ∧ Text.strip e.2 ≠ MASK ∧
            (overwrite = true ∨ hasKey (environOf getenv) table e.1 = false) := by
          refine ⟨fun heq => hkept (.inl heq), fun heq => hkept (.inr (.inl heq)), ?_⟩
          cases hover : overwrite with
          | true => exact .inl rfl
          | false => exact .inr (Bool.eq_false_iff.2 fun hhas => hkept (.inr (.inr (by
              rw [hover, hhas]; rfl))))
        refine (ih _ hrest).trans ((forall₂_congr fun record hrecord => ?_).trans
          (and_iff_right hhead).symm)
        have hkey : record.1 ∈ Assoc.keys rest := List.mem_map_of_mem hrecord
        have hne : record.1 ≠ e.1 := fun heq => by
          rw [heq] at hkey
          exact hnew hkey
        rw [hasKey_set _ hne]

def dryProviders (archive : Archive) (passphrase : PyStr) : List Item × List Item :=
  match archive.payload passphrase with
  | .error skipped => ([], skipped)
  | .ok records => (sortedIds records.entries.keys, [])

theorem restoreProviders_dry (m : Machine Place) :
    restoreProviders archive passphrase overwrite true m = (m, dryProviders archive passphrase) := by
  unfold restoreProviders dryProviders
  cases archive.payload passphrase with
  | error skipped => rfl
  | ok records => rfl

variable (archive passphrase overwrite) in
/-- Both runs list the same records exactly when none is to be skipped; the
real one never lists more of them as restored. -/
theorem restoreProviders_lists (m d : Machine Place) (hgetenv : m.getenv = d.getenv) :
    (restoreProviders archive passphrase overwrite false m).2.1.length ≤
        (dryProviders archive passphrase).1.length ∧
      (m.table = d.table →
        ((restoreProviders archive passphrase overwrite false m).2 =
            dryProviders archive passphrase ∧
          ∀ records, archive.payload passphrase = .ok records →
            ∀ record ∈ records.entries, Importable overwrite d record) ∨
        ((restoreProviders archive passphrase overwrite false m).2.1.length <
            (dryProviders archive passphrase).1.length ∧
          ¬ ∀ records, archive.payload passphrase = .ok records →
            ∀ record ∈ records.entries, Importable overwrite d record)) := by
  unfold restoreProviders dryProviders
  cases hpayload : archive.payload passphrase with
  | error skipped => exact ⟨le_refl _, fun _ => .inl ⟨rfl, fun _ h => by cases h⟩⟩
  | ok records =>
      have hskipped := skipped_iff overwrite d.getenv records.entries
        d.table records.nodup
      have hlength : ∀ table, (sortedIds (importProvidersJson overwrite d.getenv records.entries
          table).2.1).length + (importProvidersJson overwrite d.getenv records.entries
            table).2.2.length = (sortedIds records.entries.keys).length := fun table => by
        simp only [sortedIds, List.length_map, List.length_insertionSort, Assoc.keys]
        exact imported_length _ _
      dsimp only
      rw [hgetenv]
      refine ⟨(Nat.le_add_right _ _).trans (hlength m.table).le, fun htable => ?_⟩
      rw [htable]
      by_cases hnone : (importProvidersJson overwrite d.getenv records.entries d.table).2.2 = []
      · refine .inl ⟨?_, fun other hother => ?_⟩
        · show (sortedIds _, sortedIds _) = (sortedIds _, [])
          rw [imported_all _ _ hnone, hnone]
          rfl
        · obtain rfl : records = other := Except.ok.inj hother
          exact hskipped.1 hnone
      · refine .inr ⟨?_, fun hall => hnone (hskipped.2 (hall records rfl))⟩
        exact lt_of_lt_of_eq (Nat.lt_add_of_pos_right (List.length_pos_iff.2 hnone)) (hlength d.table)

end Records

-- ===== both runs

section Runs

variable [DecidableEq Place] {target : Slot → Place} {archive : Archive} {passphrase : PyStr}
  {overwrite : Bool}

def dryLists (target : Slot → Place) (archive : Archive) (passphrase : PyStr) (overwrite : Bool)
    (files : Place → Option (List UInt8)) : List Step → List Item × List Item
  | [] => ([], [])
  | .place slot :: rest =>
      let later := dryLists target archive passphrase overwrite files rest
      if (files (target slot)).isSome && !overwrite then (later.1, .file slot :: later.2)
      else (.file slot :: later.1, later.2)
  | .providers :: rest =>
      let later := dryLists target archive passphrase overwrite files rest
      ((dryProviders archive passphrase).1 ++ later.1, (dryProviders archive passphrase).2 ++ later.2)

def touch (m : Machine Place) (slot : Slot) : Machine Place :=
  if slot = .db ∨ slot = .store then { m with storage := true } else m

variable (target archive overwrite) in
theorem placeFile_eq (dry : Bool) (m : Machine Place) (slot : Slot) :
    placeFile target archive overwrite dry m slot =
      if (m.files (target slot)).isSome && !overwrite then some (touch m slot, [], [.file slot])
      else if dry then some (touch m slot, [.file slot], [])
      else if m.blocked (target slot) then none
      else
        some ({ touch m slot with
            files := Function.update m.files (target slot) (some (archive.content slot)) },
          [.file slot], []) := by
  unfold placeFile touch
  by_cases h : slot = .db ∨ slot = .store
  · rw [if_pos h]
  · rw [if_neg h]

variable (target archive passphrase overwrite) in
/-- A dry run does nothing but make the directory of the memory, when it asks
for a place there. -/
theorem dry_run : ∀ (steps : List Step) (d : Machine Place), ∃ storage,
    runSteps target archive passphrase overwrite true steps d = some ({ d with storage := storage },
        dryLists target archive passphrase overwrite d.files steps) ∧
      (storage = true ↔ d.storage = true ∨ ∃ step ∈ steps, Asks step) := by
  intro steps
  induction steps with
  | nil => exact fun d => ⟨d.storage, rfl, (or_iff_left fun ⟨_, h, _⟩ => by cases h).symm⟩
  | cons step rest ih =>
      intro d
      cases step with
      | place slot =>
          obtain ⟨storage, hrun, hstorage⟩ := ih (touch d slot)
          have hsame : { touch d slot with storage := storage } = { d with storage := storage } ∧
              (touch d slot).files = d.files ∧
                ((touch d slot).storage = true ↔ d.storage = true ∨ Asks (.place slot)) := by
            unfold touch
            split
            next h => exact ⟨rfl, rfl, iff_of_true rfl (.inr h)⟩
            next h => exact ⟨rfl, rfl, (or_iff_left h).symm⟩
          rw [hsame.1, hsame.2.1] at hrun
          refine ⟨storage, ?_, ?_⟩
          · rw [runSteps, runStep, placeFile_eq target archive overwrite, dryLists]
            split
            next => rw [Option.bind_some, hrun]; rfl
            next => rw [if_pos rfl, Option.bind_some, hrun]; rfl
          · rw [hstorage, hsame.2.2, List.exists_mem_cons_iff, or_assoc]
      | providers =>
          obtain ⟨storage, hrun, hstorage⟩ := ih d
          refine ⟨storage, ?_, ?_⟩
          · rw [runSteps, runStep, restoreProviders_dry, Option.bind_some, hrun]
            rfl
          · rw [hstorage, List.exists_mem_cons_iff, or_congr_right (or_iff_right id).symm]
            rfl

/-- The machine of a restore beside the one that it started from; `taken` are
the places written meanwhile. -/
structure Ahead (m d : Machine Place) (taken : Place → Prop) : Prop where
  files : ∀ p, (m.files p).isSome = true ↔ (d.files p).isSome = true ∨ taken p
  blocked : m.blocked = d.blocked
  getenv : m.getenv = d.getenv

variable (target archive overwrite) in
inductive Fares (m d : Machine Place) (taken : Place → Prop) (slot : Slot) : Prop
  | stays (h : Stays target overwrite d slot)
      (hreal : placeFile target archive overwrite false m slot = some (touch m slot, [], [.file slot]))
  | late (h : ¬ Stays target overwrite d slot) (hover : overwrite = false) (htaken : taken (target slot))
      (hreal : placeFile target archive overwrite false m slot = some (touch m slot, [], [.file slot]))
  | stuck (h : ¬ Stays target overwrite d slot) (hblocked : d.blocked (target slot) = true)
      (hreal : placeFile target archive overwrite false m slot = none)
  | written (h : ¬ Stays target overwrite d slot) (hblocked : d.blocked (target slot) = false)
      (hfree : overwrite = true ∨ ¬ taken (target slot)) {m' : Machine Place}
      (hreal : placeFile target archive overwrite false m slot = some (m', [.file slot], []))
      (hahead : Ahead m' d fun p => taken p ∨ p = target slot) (htable : m'.table = m.table)

omit [DecidableEq Place] in
theorem touch_same (m : Machine Place) (slot : Slot) : (touch m slot).files = m.files ∧
    (touch m slot).blocked = m.blocked ∧ (touch m slot).getenv = m.getenv ∧
      (touch m slot).table = m.table := by
  unfold touch
  split <;> exact ⟨rfl, rfl, rfl, rfl⟩

omit [DecidableEq Place] in
variable {taken : Place → Prop}

theorem Ahead.touch {m d : Machine Place} (h : Ahead m d taken)
    (slot : Slot) : Ahead (touch m slot) d taken := by
  obtain ⟨hfiles, hblocked, hgetenv, -⟩ := touch_same m slot
  exact ⟨fun p => by rw [hfiles]; exact h.files p, hblocked.trans h.blocked, hgetenv.trans h.getenv⟩

variable (target archive overwrite) in
theorem fares {m d : Machine Place} (h : Ahead m d taken) (slot : Slot) :
    Fares target archive overwrite m d taken slot := by
  have hfiles := h.files (target slot)
  have hreal := placeFile_eq target archive overwrite false m slot
  by_cases hin : (m.files (target slot)).isSome = true ∧ overwrite = false
  · rw [if_pos (by rw [hin.1, hin.2]; rfl)] at hreal
    rcases hfiles.1 hin.1 with hold | hnew
    · exact .stays ⟨hold, hin.2⟩ hreal
    · by_cases hstays : Stays target overwrite d slot
      · exact .stays hstays hreal
      · exact .late hstays hin.2 hnew hreal
  · have hstays : ¬ Stays target overwrite d slot := fun hs => hin ⟨hfiles.2 (.inl hs.1), hs.2⟩
    rw [if_neg fun hand => hin (by rwa [Bool.and_eq_true, Bool.not_eq_true'] at hand),
      if_neg Bool.false_ne_true, h.blocked] at hreal
    cases hblocked : d.blocked (target slot) with
    | true =>
        rw [hblocked] at hreal
        exact .stuck hstays hblocked hreal
    | false =>
        rw [hblocked] at hreal
        obtain ⟨-, hb, hg, ht⟩ := touch_same m slot
        refine .written hstays hblocked ?_ hreal ⟨fun p => ?_, hb.trans h.blocked,
          hg.trans h.getenv⟩ ht
        · cases hover : overwrite with
          | true => exact .inl rfl
          | false => exact .inr fun hnew => hin ⟨hfiles.2 (.inr hnew), hover⟩
        · show (Function.update m.files (target slot) _ p).isSome = true ↔ _
          by_cases hp : p = target slot
          · subst hp
            rw [Function.update_self]
            exact iff_of_true rfl (.inr (.inr rfl))
          · rw [Function.update_of_ne hp, h.files]
            exact or_congr_right (or_iff_left hp).symm

omit [DecidableEq Place] in
theorem Ahead.providers {m d : Machine Place} (h : Ahead m d taken) :
    Ahead (restoreProviders archive passphrase overwrite false m).1 d taken := by
  unfold restoreProviders
  cases archive.payload passphrase with
  | error skipped => exact h
  | ok records => exact ⟨h.files, h.blocked, h.getenv⟩

theorem restored_le : ∀ (steps : List Step) {m d m' : Machine Place} {taken : Place → Prop}
    {real : List Item × List Item}, Ahead m d taken →
    runSteps target archive passphrase overwrite false steps m = some (m', real) →
      real.1.length ≤ (dryLists target archive passphrase overwrite d.files steps).1.length := by
  intro steps
  induction steps with
  | nil =>
      intro m d m' taken real _ hrun
      obtain rfl := (Prod.mk.inj (Option.some.inj hrun)).2
      exact le_refl _
  | cons step rest ih =>
      intro m d m' taken real h hrun
      rw [runSteps] at hrun
      obtain ⟨first, hfirst, hlater⟩ := Option.bind_eq_some_iff.1 hrun
      obtain ⟨later, hrest, heq⟩ := Option.map_eq_some_iff.1 hlater
      obtain rfl := (Prod.mk.inj heq).2
      rw [List.length_append]
      cases step with
      | place slot =>
          have hlist : (dryLists target archive passphrase overwrite d.files rest).1.length ≤
              (dryLists target archive passphrase overwrite d.files (.place slot :: rest)).1.length := by
            rw [dryLists]
            split
            next => exact le_refl _
            next => exact Nat.le_succ _
          cases fares target archive overwrite h slot with
          | stays _ hreal | late _ _ _ hreal =>
              obtain rfl := Option.some.inj (hfirst.symm.trans hreal)
              rw [List.length_nil, Nat.zero_add]
              exact (ih (h.touch slot) hrest).trans hlist
          | stuck _ _ hreal => cases hfirst.symm.trans hreal
          | written hstays _ _ hreal hahead _ =>
              obtain rfl := Option.some.inj (hfirst.symm.trans hreal)
              rw [dryLists, if_neg fun hand => hstays (by
                rwa [Bool.and_eq_true, Bool.not_eq_true'] at hand)]
              exact (Nat.add_comm _ _).trans_le (Nat.succ_le_succ (ih hahead hrest))
      | providers =>
          obtain rfl := Option.some.inj hfirst
          rw [dryLists, List.length_append]
          exact Nat.add_le_add (restoreProviders_lists archive passphrase overwrite _ _ h.getenv).1
            (ih h.providers hrest)

omit [DecidableEq Place] in
theorem prepend_iff {x : Option (Machine Place × List Item × List Item)} {l : List Item × List Item}
    (r k : List Item) :
    (x.map fun later => (later.1, r ++ later.2.1, k ++ later.2.2)).map (·.2) = some (r ++ l.1, k ++ l.2)
      ↔ x.map (·.2) = some l := by
  cases x with
  | none => exact iff_of_false (fun h => by cases h) fun h => by cases h
  | some later =>
      rw [Option.map_some, Option.map_some, Option.map_some, Option.some.injEq, Option.some.injEq,
        Prod.mk.injEq, List.append_cancel_left_eq, List.append_cancel_left_eq, Prod.ext_iff]

/-- From a step on that the dry run lists more of as restored, the lists stay
apart. -/
theorem lists_ne {m d : Machine Place} {rest : List Step} (h : Ahead m d taken)
    {r k r' k' : List Item} (hlt : r.length < r'.length) :
    ((runSteps target archive passphrase overwrite false rest m).map fun later =>
        (later.1, r ++ later.2.1, k ++ later.2.2)).map (·.2) ≠
      some (r' ++ (dryLists target archive passphrase overwrite d.files rest).1, k') := by
  intro heq
  obtain ⟨all, hall, hlists⟩ := Option.map_eq_some_iff.1 heq
  obtain ⟨later, hlater, rfl⟩ := Option.map_eq_some_iff.1 hall
  have hlen := congrArg List.length (Prod.mk.inj hlists).1
  have hle := restored_le rest h hlater
  rw [List.length_append, List.length_append] at hlen
  omega

section Clear

variable {d : Machine Place} {taken : Place → Prop} {slot : Slot} {rest : List Step}

omit [DecidableEq Place] in
theorem clear_stays (hstays : Stays target overwrite d slot) :
    Clear target archive passphrase overwrite d taken (.place slot :: rest) ↔
      Clear target archive passphrase overwrite d taken rest := by
  constructor
  · intro h
    exact ⟨fun t ht => h.unblocked t (List.mem_cons_of_mem _ ht),
      h.apart.imp_right fun hp => (List.pairwise_cons.1 hp).2,
      fun hp => h.records (List.mem_cons_of_mem _ hp)⟩
  · intro h
    refine ⟨fun t ht => ?_, h.apart.imp_right fun hp => List.pairwise_cons.2
      ⟨fun b _ s t hs _ => .inl ?_, hp⟩, fun hp => h.records ?_⟩
    · rcases List.mem_cons.1 ht with heq | ht
      · cases heq
        exact .inl hstays
      · exact h.unblocked t ht
    · cases hs
      exact hstays
    · exact (List.mem_cons.1 hp).resolve_left fun heq => by cases heq

omit [DecidableEq Place] in
theorem clear_written (hstays : ¬ Stays target overwrite d slot)
    (hblocked : d.blocked (target slot) = false) (hfree : overwrite = true ∨ ¬ taken (target slot)) :
    Clear target archive passphrase overwrite d taken (.place slot :: rest) ↔
      Clear target archive passphrase overwrite d (fun p => taken p ∨ p = target slot) rest := by
  constructor
  · intro h
    refine ⟨fun t ht => ?_, h.apart.imp_right fun hp => (List.pairwise_cons.1 hp).2,
      fun hp => h.records (List.mem_cons_of_mem _ hp)⟩
    refine (h.unblocked t (List.mem_cons_of_mem _ ht)).imp_right fun ⟨hopen, hfree⟩ => ⟨hopen, ?_⟩
    rcases h.apart with hover | hp
    · exact .inl hover
    · refine hfree.imp_right fun hnew hin => hin.elim hnew fun heq => ?_
      rcases (List.pairwise_cons.1 hp).1 _ ht slot t rfl rfl with hs | hne
      · exact hstays hs
      · exact hne heq.symm
  · intro h
    refine ⟨fun t ht => ?_, ?_, fun hp => h.records ?_⟩
    · rcases List.mem_cons.1 ht with heq | ht
      · cases heq
        exact .inr ⟨hblocked, hfree⟩
      · exact (h.unblocked t ht).imp_right fun ⟨hopen, hfree⟩ =>
          ⟨hopen, hfree.imp_right fun hnew hin => hnew (.inl hin)⟩
    · cases hover : overwrite with
      | true => exact .inl rfl
      | false =>
          have hp := h.apart.resolve_left (by rw [hover]; exact Bool.false_ne_true)
          rw [hover] at hp
          refine .inr (List.pairwise_cons.2 ⟨fun b hb s t hs ht => .inr fun heq => ?_, hp⟩)
          cases hs
          subst ht
          rcases h.unblocked t hb with hthere | ⟨-, hfree⟩
          · exact hstays ⟨heq ▸ hthere.1, hthere.2⟩
          · exact hfree.elim (fun ho => by cases hover.symm.trans ho) fun hnew => hnew (.inr heq.symm)
    · exact (List.mem_cons.1 hp).resolve_left fun heq => by cases heq

omit [DecidableEq Place] in
theorem clear_providers (hall : ∀ records, archive.payload passphrase = .ok records →
    ∀ record ∈ records.entries, Importable overwrite d record) (hnone : .providers ∉ rest) :
    Clear target archive passphrase overwrite d taken (.providers :: rest) ↔
      Clear target archive passphrase overwrite d taken rest := by
  constructor
  · intro h
    exact ⟨fun t ht => h.unblocked t (List.mem_cons_of_mem _ ht),
      h.apart.imp_right fun hp => (List.pairwise_cons.1 hp).2, fun hp => absurd hp hnone⟩
  · intro h
    refine ⟨fun t ht => h.unblocked t ((List.mem_cons.1 ht).resolve_left fun heq => by cases heq),
      h.apart.imp_right fun hp => List.pairwise_cons.2 ⟨fun b _ s t hs _ => (by cases hs), hp⟩,
      fun _ => hall⟩

end Clear

variable (target archive passphrase overwrite) in
/-- The restore lists what the dry run lists exactly when its way is clear. -/
theorem lists_iff : ∀ (steps : List Step) (m d : Machine Place) (taken : Place → Prop),
    Ahead m d taken → (.providers ∈ steps → m.table = d.table) →
    (steps.Pairwise fun a b => a = .providers → b ≠ .providers) →
    ((runSteps target archive passphrase overwrite false steps m).map (·.2) =
        some (dryLists target archive passphrase overwrite d.files steps) ↔
      Clear target archive passphrase overwrite d taken steps) := by
  intro steps
  induction steps with
  | nil =>
      intro m d taken _ _ _
      exact iff_of_true rfl ⟨fun _ h => absurd h List.not_mem_nil, .inr List.Pairwise.nil,
        fun h => absurd h List.not_mem_nil⟩
  | cons step rest ih =>
      intro m d taken h htable honce
      obtain ⟨hone, hrest⟩ := List.pairwise_cons.1 honce
      rw [runSteps]
      cases step with
      | place slot =>
          have hin : .providers ∈ rest → .providers ∈ Step.place slot :: rest :=
            List.mem_cons_of_mem _
          rw [runStep, dryLists]
          have hadd : ∀ hstays : ¬ Stays target overwrite d slot,
              ((d.files (target slot)).isSome && !overwrite) = false := fun hstays => by
            rw [Bool.eq_false_iff]
            intro hand
            exact hstays (by rwa [Bool.and_eq_true, Bool.not_eq_true'] at hand)
          cases fares target archive overwrite h slot with
          | stays hstays hreal =>
              have htail := ih _ _ _ (h.touch slot) (fun hp => (touch_same m slot).2.2.2.trans
                (htable (hin hp))) hrest
              rw [hreal, Option.bind_some, if_pos (by rw [hstays.1, hstays.2]; rfl)]
              exact (prepend_iff [] [.file slot]).trans (htail.trans (clear_stays hstays).symm)
          | late hstays hover htaken hreal =>
              have hless : ([] : List Item).length < [Item.file slot].length := Nat.zero_lt_one
              rw [hreal, Option.bind_some, hadd hstays, if_neg Bool.false_ne_true]
              refine iff_of_false (lists_ne (h.touch slot) hless)
                fun hclear => ?_
              rcases hclear.unblocked slot (List.mem_cons_self ..) with hs | ⟨-, hfree⟩
              · exact hstays hs
              · exact hfree.elim (fun ho => by cases hover.symm.trans ho) fun hn => hn htaken
          | stuck hstays hblocked hreal =>
              rw [hreal, hadd hstays, if_neg Bool.false_ne_true]
              refine iff_of_false (fun heq => by cases heq) fun hclear => ?_
              rcases hclear.unblocked slot (List.mem_cons_self ..) with hs | ⟨hopen, -⟩
              · exact hstays hs
              · cases hblocked.symm.trans hopen
          | written hstays hblocked hfree hreal hahead htable' =>
              have htail := ih _ _ _ hahead (fun hp => htable'.trans (htable (hin hp))) hrest
              rw [hreal, Option.bind_some, hadd hstays, if_neg Bool.false_ne_true]
              exact (prepend_iff [.file slot] []).trans (htail.trans
                (clear_written hstays hblocked hfree).symm)
      | providers =>
          have hlists := restoreProviders_lists archive passphrase overwrite m d h.getenv
          rw [runStep, dryLists, Option.bind_some]
          rcases hlists.2 (htable (List.mem_cons_self ..)) with ⟨hsame, hall⟩ | ⟨hlt, hnone⟩
          · rw [hsame]
            exact (prepend_iff _ _).trans ((ih _ _ _ h.providers (fun hp => absurd rfl (hone _ hp rfl))
              hrest).trans (clear_providers hall fun hp => hone _ hp rfl rfl).symm)
          · exact iff_of_false (lists_ne h.providers hlt) fun hclear =>
              hnone (hclear.records (List.mem_cons_self ..))

theorem plan_once (archive : Archive) (selected : List Subsystem) :
    (archive.plan selected).Pairwise fun a b => a = .providers → b ≠ .providers := by
  have hfiles : ∀ (slots : List Slot), ∀ step ∈ slots.map Step.place, step ≠ .providers := by
    intro slots step hstep heq
    obtain ⟨slot, -, rfl⟩ := List.mem_map.1 hstep
    cases heq
  have honly : ∀ name, ∀ step ∈ archive.steps name, step = .providers → name = .providers := by
    intro name step hstep heq
    cases name with
    | providers => rfl
    | sessions =>
        obtain ⟨session, -, hsession⟩ := List.mem_map.1 hstep
        cases hsession.trans heq
    | config | memory | trust => exact absurd heq (hfiles _ step hstep)
  refine List.pairwise_flatMap.2 ⟨fun name _ => ?_, ?_⟩
  · by_cases hname : name = .providers
    · subst hname
      exact List.pairwise_singleton _ _
    · exact List.pairwise_of_forall_mem_list fun a ha _ _ heq => absurd (honly name a ha heq) hname
  · refine List.Pairwise.filter _ (List.Pairwise.imp (fun hne a ha b hb heq hb' => hne ?_)
      (show SUBSYSTEMS.Pairwise (· ≠ ·) by decide))
    rw [honly _ a ha heq, honly _ b hb hb']

/-- A dry run predicts a restore exactly when the way is clear and the
directory of the memory, if it is asked for, is there. -/
theorem predicted_iff (target : Slot → Place) (archive : Archive) (passphrase : PyStr)
    (overwrite : Bool) (selected : List Subsystem) (m : Machine Place) :
    Predicted target archive passphrase overwrite selected m ↔
      Clear target archive passphrase overwrite m (fun _ => False) (archive.plan selected) ∧
        ((∃ step ∈ archive.plan selected, Asks step) → m.storage = true) := by
  obtain ⟨storage, hdry, hstorage⟩ := dry_run target archive passphrase overwrite
    (archive.plan selected) m
  have hlists := lists_iff target archive passphrase overwrite (archive.plan selected) m m (fun _ => False)
    ⟨fun p => (or_iff_left id).symm, rfl, rfl⟩ (fun _ => rfl) (plan_once archive selected)
  constructor
  · intro h
    obtain ⟨lists, hsame⟩ := h.untouched
    have hlisted := h.listed
    rw [restoreBackup, hdry] at hsame hlisted
    refine ⟨hlists.1 hlisted.symm, fun hask => ?_⟩
    rw [← (Prod.mk.inj (Option.some.inj hsame)).1]
    exact hstorage.2 (.inr hask)
  · rintro ⟨hclear, hask⟩
    have hsame : storage = m.storage := by
      rw [Bool.eq_iff_iff, hstorage]
      exact or_iff_left_of_imp hask
    subst hsame
    refine ⟨⟨_, hdry⟩, ?_⟩
    rw [restoreBackup, restoreBackup, hdry, hlists.2 hclear]
    rfl

end Runs

def machineWith (table : Table) : Machine Slot :=
  ⟨fun _ => none, fun _ => false, true, fun _ => none, table⟩

def oneKey : Table := [(['o'], [("key".toList, .str ['s'])])]

/-- The backup of one key without its secret: the dry run announces that a
masked key is imported, and the restore skips it. -/
theorem not_predicted_masked : ¬ Predicted id
    (createBackup id (machineWith oneKey) [] [.providers] none (by decide +kernel)) [] false []
      (machineWith []) := by
  intro h
  exact absurd h.listed (by decide +kernel)

end Velune.Recovery
