/-
The registered configurations against their sources.

Everything is read off `entryOf`: one equation for each loop says which
entry stands under a name afterwards, and with which configuration
(`entryOf_merge`, `entryOf_addEnv`). The merge keeps the last definition
it meets, and no step ever takes an entry away; `Precedes` is the order
the source documents. The two meet exactly on the sources `LoadFine` and
`ReloadFine` describe.
-/
import Velune.Mcp.Config

namespace Velune.Mcp

open Lib

-- ===== entries

variable {entries : List ServerEntry} {name : PyStr} {e : ServerEntry}

theorem entryOf_append_ne
    (h : e.name ≠ name) : entryOf (entries ++ [e]) name = entryOf entries name := by
  unfold entryOf
  rw [List.find?_append, List.find?_cons_of_neg (by simpa using h), List.find?_nil, Option.or_none]

theorem entryOf_append_self
    (h : entryOf entries e.name = none) : entryOf (entries ++ [e]) e.name = some e := by
  unfold entryOf at *
  rw [List.find?_append, h, List.find?_cons_of_pos (by simp)]
  rfl

theorem entryOf_set {f : ServerEntry → ServerEntry}
    (hf : ∀ e, e.name = name → (f e).name = name) (other : PyStr) :
    entryOf (setEntry entries name f) other
      = if other = name then (entryOf entries other).map f else entryOf entries other := by
  induction entries with
  | nil => simp [entryOf, setEntry]
  | cons e rest ih =>
      unfold entryOf setEntry at ih ⊢
      rw [List.map_cons]
      by_cases he : e.name = name
      · rw [if_pos he]
        by_cases ho : other = name
        · subst ho
          rw [List.find?_cons_of_pos (by simpa using hf e he),
            List.find?_cons_of_pos (by simpa using he), if_pos rfl]
          rfl
        · have hne : name ≠ other := fun h => ho h.symm
          rw [List.find?_cons_of_neg (by rw [hf e he]; simpa using hne),
            List.find?_cons_of_neg (by rw [he]; simpa using hne)]
          exact ih
      · rw [if_neg he]
        by_cases ho : e.name = other
        · have hne : other ≠ name := fun h => he (ho.trans h)
          rw [List.find?_cons_of_pos (by simpa using ho), List.find?_cons_of_pos (by simpa using ho),
            if_neg hne]
        · rw [List.find?_cons_of_neg (by simpa using ho), List.find?_cons_of_neg (by simpa using ho)]
          exact ih

theorem mem_names : name ∈ entries.map (·.name) ↔ (entryOf entries name).isSome = true := by
  unfold entryOf
  rw [List.find?_isSome]
  simp

/-- One definition merged: its name's entry has it, with the runtime
state it had. -/
theorem entryOf_merge (entries : List ServerEntry) (cfg : ServerConfig) (name : PyStr) :
    entryOf (mergeConfig entries cfg) name
      = if name = cfg.name then
          some { (entryOf entries name).getD { config := cfg } with config := cfg }
        else entryOf entries name := by
  unfold mergeConfig
  by_cases hs : (entryOf entries cfg.name).isSome = true
  · rw [if_pos hs]
    have hset := @entryOf_set entries cfg.name (fun e => { e with config := cfg }) (fun _ _ => rfl) name
    unfold setEntry at hset
    rw [hset]
    by_cases hname : name = cfg.name
    · subst hname
      obtain ⟨e, he⟩ := Option.isSome_iff_exists.1 hs
      rw [if_pos rfl, if_pos rfl, he]
      rfl
    · rw [if_neg hname, if_neg hname]
  · rw [if_neg hs]
    have hnone : entryOf entries cfg.name = none := by simpa using hs
    by_cases hname : name = cfg.name
    · subst hname
      rw [if_pos rfl, hnone]
      exact @entryOf_append_self entries { config := cfg } hnone
    · rw [if_neg hname]
      exact entryOf_append_ne fun h => hname h.symm

/-- The definition a dictionary of them would have under a name. -/
def defined (configs : List ServerConfig) (name : PyStr) : Option ServerConfig :=
  configs.reverse.find? (·.name == name)

theorem defined_append (a b : List ServerConfig) (name : PyStr) :
    defined (a ++ b) name = (defined b name).or (defined a name) := by
  unfold defined
  rw [List.reverse_append, List.find?_append]

theorem defined_cons (cfg : ServerConfig) (rest : List ServerConfig) (name : PyStr) :
    defined (cfg :: rest) name
      = (defined rest name).or (if cfg.name = name then some cfg else none) := by
  have hone : defined [cfg] name = if cfg.name = name then some cfg else none := by
    by_cases h : cfg.name = name <;> simp [defined, h]
  rw [← hone, ← defined_append]
  rfl

/-- The merge: a name's entry has the last definition of it, and the
runtime state it had. -/
theorem entryOf_load : ∀ (configs : List ServerConfig) (entries : List ServerEntry) (name : PyStr),
    entryOf (configs.foldl mergeConfig entries) name
      = match defined configs name with
        | none => entryOf entries name
        | some cfg => some { (entryOf entries name).getD { config := cfg } with config := cfg }
  | [], _, _ => rfl
  | cfg :: rest, entries, name => by
      rw [List.foldl_cons, entryOf_load rest, entryOf_merge, defined_cons]
      cases hrest : defined rest name with
      | none =>
          by_cases hname : cfg.name = name
          · subst hname
            simp
          · have hne : name ≠ cfg.name := fun h => hname h.symm
            simp [hname, hne]
      | some last =>
          by_cases hname : name = cfg.name
          · cases entryOf entries name <;> simp [hname]
          · simp [hname]

def configOf (entries : List ServerEntry) (name : PyStr) : Option ServerConfig :=
  (entryOf entries name).map (·.config)

theorem configOf_load (configs : List ServerConfig) (entries : List ServerEntry) (name : PyStr) :
    configOf (configs.foldl mergeConfig entries) name
      = (defined configs name).or (configOf entries name) := by
  unfold configOf
  rw [entryOf_load]
  cases defined configs name <;> rfl

/-- The environment's servers: they join where there is none of their
name. -/
theorem entryOf_addEnv : ∀ (configs : List ServerConfig) (entries : List ServerEntry)
    (name : PyStr), entryOf (configs.foldl addConfig entries) name
      = (entryOf entries name).or
          ((configs.find? (·.name == name)).map fun cfg => { config := cfg })
  | [], _, _ => by simp
  | cfg :: rest, entries, name => by
      rw [List.foldl_cons, entryOf_addEnv rest]
      unfold addConfig
      by_cases hname : cfg.name = name
      · subst hname
        rw [List.find?_cons_of_pos (by simp)]
        by_cases hs : (entryOf entries cfg.name).isSome = true
        · obtain ⟨e, he⟩ := Option.isSome_iff_exists.1 hs
          rw [if_pos hs, he]
          rfl
        · have hnone : entryOf entries cfg.name = none := by simpa using hs
          have hadd := @entryOf_append_self entries { config := cfg } hnone
          rw [if_neg hs, hnone]
          exact congrArg (Option.or · _) hadd
      · rw [List.find?_cons_of_neg (by simpa using hname)]
        by_cases hs : (entryOf entries cfg.name).isSome = true
        · rw [if_pos hs]
        · have hne : ({ config := cfg } : ServerEntry).name ≠ name := hname
          rw [if_neg hs, entryOf_append_ne hne]

-- ===== reload

theorem afterConnect_config (e : ServerEntry) (outcome : Option (ConnId × List ToolInfo)) :
    (e.afterConnect outcome).config = e.config := by
  unfold ServerEntry.afterConnect
  by_cases hc : e.isConnected = true
  · rw [if_pos hc]
  · rw [if_neg hc]
    cases outcome <;> rfl

/-- Connecting leaves an entry its configuration, and the others
everything. -/
theorem entryOf_connects (connects : Connects) : ∀ (names : List PyStr)
    (entries : List ServerEntry) (name : PyStr),
    (entryOf (names.foldl (connectEntry connects) entries) name).map (·.config)
        = (entryOf entries name).map (·.config)
      ∧ (name ∉ names →
        entryOf (names.foldl (connectEntry connects) entries) name = entryOf entries name)
  | [], _, _ => ⟨rfl, fun _ => rfl⟩
  | n :: rest, entries, name => by
      have hone : entryOf (connectEntry connects entries n) name
          = if name = n then (entryOf entries name).map fun e => e.afterConnect (connects n)
            else entryOf entries name :=
        entryOf_set (fun e h => (congrArg ServerConfig.name (afterConnect_config e _)).trans h) name
      obtain ⟨hmap, hsame⟩ := entryOf_connects connects rest (connectEntry connects entries n) name
      rw [List.foldl_cons]
      refine ⟨hmap.trans ?_, fun hmem => ?_⟩
      · rw [hone]
        by_cases hname : name = n
        · rw [if_pos hname, Option.map_map]
          exact Option.map_congr fun e _ => afterConnect_config e _
        · rw [if_neg hname]
      · rw [List.mem_cons, not_or] at hmem
        rw [hsame hmem.2, hone, if_neg hmem.1]

def reloaded (entries : List ServerEntry) (trusted : Bool) (s : Sources) : List ServerEntry :=
  loadEnv (loadConfig entries trusted s []) s

theorem entryOf_reloaded (entries : List ServerEntry) (trusted : Bool) (s : Sources)
    (name : PyStr) : entryOf (reloaded entries trusted s) name
      = (entryOf (loadConfig entries trusted s []) name).or
          ((s.env.find? (·.name == name)).map fun cfg => { config := cfg }) :=
  entryOf_addEnv _ _ _

theorem load_keeps {configs : List ServerConfig} (h : entryOf entries name = some e) :
    ∃ cfg, entryOf (configs.foldl mergeConfig entries) name = some { e with config := cfg } := by
  rw [entryOf_load, h]
  cases defined configs name with
  | none => exact ⟨e.config, rfl⟩
  | some cfg => exact ⟨cfg, rfl⟩

theorem reloaded_keeps {trusted : Bool} {s : Sources} (h : entryOf entries name = some e) :
    ∃ cfg, entryOf (reloaded entries trusted s) name = some { e with config := cfg } := by
  obtain ⟨cfg, hload⟩ := @load_keeps _ _ _ (loadedConfigs trusted s []) h
  refine ⟨cfg, ?_⟩
  rw [entryOf_reloaded, loadConfig, hload]
  rfl

/-- A hot reload removes nothing: the loads it compares have kept every
name. -/
theorem hotReload_eq (entries : List ServerEntry) (trusted : Bool) (s : Sources)
    (connects : Connects) :
    hotReload entries trusted s connects
      = ((((reloaded entries trusted s).map (·.name)).filter
          fun name => !(entries.map (·.name)).contains name).foldl (connectEntry connects)
          (reloaded entries trusted s), []) := by
  have hremoved : (entries.map (·.name)).filter
      (fun name => !((reloaded entries trusted s).map (·.name)).contains name) = [] := by
    rw [List.filter_eq_nil_iff]
    intro name hname
    obtain ⟨e, he⟩ := Option.isSome_iff_exists.1 (mem_names.1 hname)
    obtain ⟨cfg, hkept⟩ := @reloaded_keeps entries name e trusted s he
    have hnew : name ∈ (reloaded entries trusted s).map (·.name) := by
      rw [mem_names, hkept]
      rfl
    simpa using hnew
  unfold hotReload
  simp only
  rw [show loadEnv (loadConfig entries trusted s []) s = reloaded entries trusted s from rfl, hremoved]
  rfl

/-- The configuration a reload registers: the last file's definition,
else the one there was, else the environment's. -/
theorem configOf_hotReload (entries : List ServerEntry) (trusted : Bool) (s : Sources)
    (connects : Connects) (name : PyStr) :
    configOf (hotReload entries trusted s connects).1 name
      = ((defined (loadedConfigs trusted s []) name).or (configOf entries name)).or
          (s.env.find? (·.name == name)) := by
  rw [hotReload_eq]
  unfold configOf
  rw [(entryOf_connects connects _ _ name).1, entryOf_reloaded, Option.map_or, Option.map_map]
  have hload := configOf_load (loadedConfigs trusted s []) entries name
  unfold configOf at hload
  rw [loadConfig, hload]
  congr 1
  cases s.env.find? (·.name == name) <;> rfl

/-- An entry there was is there after a reload, as it was but for its
configuration. -/
theorem hotReload_keeps {trusted : Bool} {s : Sources}
    {connects : Connects} (h : entryOf entries name = some e) :
    ∃ cfg, entryOf (hotReload entries trusted s connects).1 name
      = some { e with config := cfg } := by
  obtain ⟨cfg, hkept⟩ := @reloaded_keeps entries name e trusted s h
  refine ⟨cfg, ?_⟩
  have hold : name ∈ entries.map (·.name) := by
    rw [mem_names, h]
    rfl
  rw [hotReload_eq, (entryOf_connects connects _ _ name).2 ?_, hkept]
  rw [List.mem_filter, not_and]
  intro _
  simpa using hold

-- ===== precedence

inductive Source
  | workspace | user | toml | env | extras
  deriving DecidableEq

/-- The documented order: the workspace's file over the user's over the
extras. Of `velune.toml` and the environment it says nothing. -/
inductive Outranks : Source → Source → Prop
  | workspaceUser : Outranks .workspace .user
  | workspaceExtras : Outranks .workspace .extras
  | userExtras : Outranks .user .extras

/-- What a source says of a name; an untrusted workspace says nothing. -/
def definition (s : Sources) (trusted : Bool) (extras : List ServerConfig) (name : PyStr) :
    Source → Option ServerConfig
  | .workspace => if trusted then defined s.workspace name else none
  | .user => defined s.user name
  | .toml => if trusted then defined s.toml name else none
  | .env => s.env.find? (·.name == name)
  | .extras => defined extras name

/-- A definition by a source that no other source of the name outranks. -/
def Best (d : Source → Option ServerConfig) (cfg : ServerConfig) : Prop :=
  ∃ src, d src = some cfg ∧ ∀ other, (d other).isSome = true → ¬Outranks other src

theorem best_iff {d : Source → Option ServerConfig} {cfg : ServerConfig} :
    Best d cfg ↔ d .toml = some cfg ∨ d .env = some cfg ∨ d .workspace = some cfg
      ∨ (d .workspace = none ∧ d .user = some cfg)
      ∨ (d .workspace = none ∧ d .user = none ∧ d .extras = some cfg) := by
  have hnone : ∀ {src}, ¬(d src).isSome = true ↔ d src = none := by
    intro src
    simp
  constructor
  · rintro ⟨src, hsrc, htop⟩
    cases src with
    | toml => exact Or.inl hsrc
    | env => exact Or.inr (Or.inl hsrc)
    | workspace => exact Or.inr (Or.inr (Or.inl hsrc))
    | user =>
        have hw := hnone.1 fun h => htop .workspace h .workspaceUser
        exact Or.inr (Or.inr (Or.inr (Or.inl ⟨hw, hsrc⟩)))
    | extras =>
        have hw := hnone.1 fun h => htop .workspace h .workspaceExtras
        have hu := hnone.1 fun h => htop .user h .userExtras
        exact Or.inr (Or.inr (Or.inr (Or.inr ⟨hw, hu, hsrc⟩)))
  · rintro (h | h | h | ⟨hw, h⟩ | ⟨hw, hu, h⟩)
    · exact ⟨.toml, h, fun other _ ho => by cases ho⟩
    · exact ⟨.env, h, fun other _ ho => by cases ho⟩
    · exact ⟨.workspace, h, fun other _ ho => by cases ho⟩
    · refine ⟨.user, h, fun other hother ho => ?_⟩
      cases ho
      exact hnone.2 hw hother
    · refine ⟨.extras, h, fun other hother ho => ?_⟩
      cases ho
      · exact hnone.2 hw hother
      · exact hnone.2 hu hother

theorem defined_loaded (trusted : Bool) (s : Sources) (extras : List ServerConfig) (name : PyStr) :
    defined (loadedConfigs trusted s extras) name
      = (((definition s trusted extras name .extras).or (definition s trusted extras name .toml)).or
          (definition s trusted extras name .user)).or
          (definition s trusted extras name .workspace) := by
  have hif : ∀ l : List ServerConfig,
      defined (if trusted = true then l else []) name = if trusted = true then defined l name else none := by
    intro l
    cases trusted <;> rfl
  unfold loadedConfigs
  rw [defined_append, defined_append, defined_append, hif, hif]
  simp only [definition, Option.or_assoc]

-- ===== claims

/-- What the configuration promises of a step. After a load: a name some
source defines is registered with a definition no other source outranks,
and an untrusted workspace's files make no difference. After a hot
reload: exactly the defined names are registered, each so; a server no
source defines has been disconnected; and one whose definition did not
change stays connected. -/
def Follows : ConfigStep → Configured → Prop
  | .loadConfig s extras trusted, st =>
      let after := loadConfig st.entries trusted s extras
      let d := definition { s with env := [] } trusted extras
      (∀ name, (∃ src, (d name src).isSome = true) →
        ∃ cfg, configOf after name = some cfg ∧ Best (d name) cfg) ∧
      (trusted = false → ∀ s' : Sources, s'.user = s.user →
        loadConfig st.entries trusted s' extras = after)
  | .hotReload s connects, st =>
      let after := hotReload st.entries st.trusted s connects
      let d := definition s st.trusted st.extras
      (∀ name, (configOf after.1 name).isSome = true ↔ ∃ src, (d name src).isSome = true) ∧
      (∀ name cfg, configOf after.1 name = some cfg → Best (d name) cfg) ∧
      (∀ name e c, entryOf st.entries name = some e → (∀ src, d name src = none) →
        e.connection = some c → c ∈ after.2) ∧
      (∀ name e e', entryOf st.entries name = some e → entryOf after.1 name = some e' →
        e.isConnected = true → e'.config = e.config →
        e'.isConnected = true ∧ e'.connection = e.connection)
  | .loadEnv _, _ | .runtime _ _ _ _, _ => True

/-- The sources of a load agree where the load and the documentation
order them differently: the extras, read last, with the file that should
outrank them; the user's file, read after the workspace's, with that. -/
def LoadFine (d : Source → Option ServerConfig) : Prop :=
  (∀ c, d .extras = some c →
    d .toml = some c ∨ ∀ c', (d .workspace).or (d .user) = some c' → c' = c) ∧
  (d .extras = none → d .toml = none →
    ∀ c, d .user = some c → ∀ c', d .workspace = some c' → c' = c)

/-- The sources of a reload agree likewise; and a name no file defines is
registered only as the environment or the extras still define it. -/
def ReloadFine (d : Source → Option ServerConfig) (registered : Option ServerConfig) : Prop :=
  (d .toml = none → ∀ c, d .user = some c →
    d .env = some c ∨ ∀ c', d .workspace = some c' → c' = c) ∧
  (d .toml = none → d .user = none → d .workspace = none →
    (∀ c, registered = some c → d .env = some c ∨ d .extras = some c) ∧
    (registered = none → d .env = none → d .extras = none))

def SourcesAgree : ConfigStep → Configured → Prop
  | .loadConfig s extras trusted, _ =>
      ∀ name, LoadFine (definition { s with env := [] } trusted extras name)
  | .hotReload s _, st =>
      ∀ name, ReloadFine (definition s st.trusted st.extras name) (configOf st.entries name)
  | .loadEnv _, _ | .runtime _ _ _ _, _ => True

theorem load_best_iff (w u t x : Option ServerConfig) :
    (∀ c, ((x.or t).or u).or w = some c →
      t = some c ∨ w = some c ∨ (w = none ∧ u = some c) ∨ (w = none ∧ u = none ∧ x = some c)) ↔
    ((∀ c, x = some c → t = some c ∨ ∀ c', w.or u = some c' → c' = c) ∧
      (x = none → t = none → ∀ c, u = some c → ∀ c', w = some c' → c' = c)) := by
  cases x <;> cases t <;> cases u <;> cases w <;> simp

theorem reload_best_iff (w u t v x p : Option ServerConfig) :
    ((∀ c, (((t.or u).or w).or p).or v = some c →
      t = some c ∨ v = some c ∨ w = some c ∨ (w = none ∧ u = some c)
        ∨ (w = none ∧ u = none ∧ x = some c)) ∧
     ((((t.or u).or w).or p).or v = none → x = none)) ↔
    ((t = none → ∀ c, u = some c → v = some c ∨ ∀ c', w = some c' → c' = c) ∧
     (t = none → u = none → w = none →
       (∀ c, p = some c → v = some c ∨ x = some c) ∧ (p = none → v = none → x = none))) := by
  cases t <;> cases u <;> cases w <;> cases p <;> cases v <;> cases x <;> simp

/-- Untrusted, a load reads no more than the user's file and the
extras. -/
theorem loadConfig_untrusted (entries : List ServerEntry) (s s' : Sources)
    (extras : List ServerConfig) (h : s'.user = s.user) :
    loadConfig entries false s' extras = loadConfig entries false s extras := by
  simp [loadConfig, loadedConfigs, h]

theorem load_follows_iff (s : Sources) (extras : List ServerConfig) (trusted : Bool)
    (st : Configured) :
    Follows (.loadConfig s extras trusted) st ↔ SourcesAgree (.loadConfig s extras trusted) st := by
  have hread : ∀ name, configOf (loadConfig st.entries trusted s extras) name
      = ((((definition { s with env := [] } trusted extras name .extras).or
            (definition { s with env := [] } trusted extras name .toml)).or
          (definition { s with env := [] } trusted extras name .user)).or
          (definition { s with env := [] } trusted extras name .workspace)).or
          (configOf st.entries name) := by
    intro name
    unfold loadConfig
    rw [configOf_load, defined_loaded]
    rfl
  have henv : ∀ name, definition { s with env := [] } trusted extras name .env = none :=
    fun _ => rfl
  unfold Follows SourcesAgree
  simp only
  constructor
  · rintro ⟨hbest, -⟩ name
    refine (load_best_iff _ _ _ _).1 fun c hc => ?_
    have hsome : ∃ src, (definition { s with env := [] } trusted extras name src).isSome = true := by
      by_contra hno
      have hnone : ∀ src, definition { s with env := [] } trusted extras name src = none := by
        intro src
        by_contra hsrc
        exact hno ⟨src, Option.isSome_iff_ne_none.2 hsrc⟩
      simp only [hnone] at hc
      cases hc
    obtain ⟨cfg, hreg, hb⟩ := hbest name hsome
    rw [hread, hc] at hreg
    cases hreg
    have hb := best_iff.1 hb
    rw [henv] at hb
    simpa using hb
  · intro hfine
    refine ⟨fun name hdef => ?_, fun ht s' hs' => ?_⟩
    · have hall := (load_best_iff _ _ _ _).2 (hfine name)
      have hne : (((definition { s with env := [] } trusted extras name .extras).or
            (definition { s with env := [] } trusted extras name .toml)).or
          (definition { s with env := [] } trusted extras name .user)).or
          (definition { s with env := [] } trusted extras name .workspace) ≠ none := by
        intro hnone
        simp only [Option.or_eq_none_iff] at hnone
        obtain ⟨src, hsrc⟩ := hdef
        cases src <;> simp_all
      obtain ⟨c, hc⟩ := Option.ne_none_iff_exists'.1 hne
      refine ⟨c, by rw [hread, hc]; rfl, best_iff.2 ?_⟩
      rcases hall c hc with h | h
      · exact Or.inl h
      · exact Or.inr (Or.inr h)
    · subst ht
      exact loadConfig_untrusted _ _ _ _ hs'

theorem reload_follows_iff (s : Sources) (connects : Connects) (st : Configured) :
    Follows (.hotReload s connects) st ↔ SourcesAgree (.hotReload s connects) st := by
  have hread : ∀ name, configOf (hotReload st.entries st.trusted s connects).1 name
      = ((((definition s st.trusted st.extras name .toml).or
            (definition s st.trusted st.extras name .user)).or
          (definition s st.trusted st.extras name .workspace)).or
          (configOf st.entries name)).or (definition s st.trusted st.extras name .env) := by
    intro name
    rw [configOf_hotReload, defined_loaded]
    rfl
  unfold Follows SourcesAgree
  simp only
  constructor
  · rintro ⟨hnames, hbest, -, -⟩ name
    refine (reload_best_iff _ _ _ _ _ _).1 ⟨fun c hc => ?_, fun hnone => ?_⟩
    · exact best_iff.1 (hbest name c (by rw [hread, hc]))
    · by_contra hx
      have hsome := (hnames name).2 ⟨.extras, Option.isSome_iff_ne_none.2 hx⟩
      rw [hread, hnone] at hsome
      cases hsome
  · intro hfine
    have hall := fun name => (reload_best_iff _ _ _ _ _ _).2 (hfine name)
    have hbest : ∀ name cfg, configOf (hotReload st.entries st.trusted s connects).1 name = some cfg →
        Best (definition s st.trusted st.extras name) cfg := by
      intro name cfg hcfg
      rw [hread] at hcfg
      exact best_iff.2 ((hall name).1 cfg hcfg)
    have hnames : ∀ name, (configOf (hotReload st.entries st.trusted s connects).1 name).isSome = true ↔
        ∃ src, (definition s st.trusted st.extras name src).isSome = true := by
      intro name
      constructor
      · intro hsome
        obtain ⟨cfg, hcfg⟩ := Option.isSome_iff_exists.1 hsome
        obtain ⟨src, hsrc, -⟩ := hbest name cfg hcfg
        exact ⟨src, by rw [hsrc]; rfl⟩
      · rintro ⟨src, hsrc⟩
        by_contra hno
        have hnone := Option.not_isSome_iff_eq_none.1 hno
        rw [hread] at hnone
        have hx := (hall name).2 hnone
        simp only [Option.or_eq_none_iff] at hnone
        cases src <;> simp_all
    refine ⟨hnames, hbest, fun name e c he hundef hc => ?_, fun name e e' he he' hconn hcfg => ?_⟩
    · -- a registered name is a defined one, so none of them is undefined
      obtain ⟨cfg, hkept⟩ := @hotReload_keeps st.entries name e st.trusted s connects he
      obtain ⟨src, hsrc⟩ := (hnames name).1 (by rw [configOf, hkept]; rfl)
      rw [hundef src] at hsrc
      cases hsrc
    · obtain ⟨cfg, hkept⟩ := @hotReload_keeps st.entries name e st.trusted s connects he
      rw [hkept] at he'
      cases he'
      exact ⟨hconn, rfl⟩

/-- A run of loads, reloads and runtime changes keeps the promise at
every step exactly when the sources agree at every step. -/
theorem config_follows_iff (steps : List ConfigStep) (st : Configured) :
    Meets configStep Follows steps st ↔ Meets configStep SourcesAgree steps st := by
  refine meets_congr fun a s => ?_
  cases a with
  | loadConfig sources extras trusted => exact load_follows_iff sources extras trusted s
  | hotReload sources connects => exact reload_follows_iff sources connects s
  | loadEnv => exact Iff.rfl
  | runtime => exact Iff.rfl

-- One server, defined by the workspace's file and then by no source.

def onlyServer : ServerConfig := { name := "docs".toList, command := "uvx".toList }

def noSources : Sources := ⟨[], [], [], []⟩

/-- Deleted from every source, it stays registered. -/
theorem deleted_server_stays :
    ¬Meets configStep Follows
      [.loadConfig { noSources with workspace := [onlyServer] } [] true,
        .hotReload noSources fun _ => none] {} := by
  rintro ⟨-, hrest⟩
  obtain ⟨⟨hnames, -⟩, -⟩ := hrest _ rfl
  obtain ⟨src, hsrc⟩ := (hnames "docs".toList).1 (by decide)
  cases src <;> cases hsrc

end Velune.Mcp
