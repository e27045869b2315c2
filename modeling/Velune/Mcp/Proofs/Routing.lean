/-
Where `call_tool` routes a name.

An entry writes a name into the index when it is connected and has a
tool of that qualified name; the index holds the last writer
(`index_last`). From there a call by a qualified name reaches its tool
exactly when no later entry writes the same name, and a call by a bare
name, which only a server without a name is given, exactly when nothing
else answers to it (`route_iff`).
-/
import Mathlib.Data.List.Nodup
import Velune.Mcp.Registry

namespace Velune.Mcp

open Lib

-- ===== index

def Writes (e : ServerEntry) (name : PyStr) : Prop :=
  e.isConnected = true ∧ ∃ t ∈ e.tools, indexKey e t = name

variable {name : PyStr} {e : ServerEntry} {before after : List ServerEntry}
variable {entries : List ServerEntry} {r : Registry}

theorem foldl_insert_eq {tools : List ToolInfo} :
    ∀ {index : Dict PyStr PyStr},
      (tools.foldl (fun index tool => index.insert (indexKey e tool) e.name) index) name
        = if ∃ t ∈ tools, indexKey e t = name then some e.name else index name := by
  induction tools with
  | nil =>
      intro index
      simp
  | cons t rest ih =>
      intro index
      rw [List.foldl_cons, ih]
      by_cases hrest : ∃ u ∈ rest, indexKey e u = name
      · obtain ⟨u, hu, hkey⟩ := hrest
        rw [if_pos ⟨u, hu, hkey⟩, if_pos ⟨u, List.mem_cons_of_mem _ hu, hkey⟩]
      · rw [if_neg hrest]
        by_cases ht : indexKey e t = name
        · rw [if_pos ⟨t, List.mem_cons_self, ht⟩, ← ht, Dict.insert_self]
        · rw [Dict.insert_of_ne _ _ fun h => ht h.symm, if_neg]
          rintro ⟨u, hu, hkey⟩
          rcases List.mem_cons.1 hu with rfl | hu
          · exact ht hkey
          · exact hrest ⟨u, hu, hkey⟩

theorem indexEntry_of_writes (h : Writes e name)
    (index : Dict PyStr PyStr) : indexEntry index e name = some e.name := by
  obtain ⟨hc, hkey⟩ := h
  rw [indexEntry, if_pos hc, foldl_insert_eq, if_pos hkey]

theorem indexEntry_of_not (h : ¬Writes e name)
    (index : Dict PyStr PyStr) : indexEntry index e name = index name := by
  unfold indexEntry
  by_cases hc : e.isConnected = true
  · rw [if_pos hc, foldl_insert_eq, if_neg fun hkey => h ⟨hc, hkey⟩]
  · rw [if_neg hc]

theorem foldl_indexEntry_of_not : ∀ {entries : List ServerEntry}
    {index : Dict PyStr PyStr}, (∀ e ∈ entries, ¬Writes e name) →
    entries.foldl indexEntry index name = index name
  | [], _, _ => rfl
  | e :: rest, index, h => by
      rw [List.forall_mem_cons] at h
      rw [List.foldl_cons, foldl_indexEntry_of_not h.2, indexEntry_of_not h.1]

theorem index_last (hw : Writes e name) (hlast : ∀ e' ∈ after, ¬Writes e' name) :
    qualifiedIndex (before ++ e :: after) name = some e.name := by
  rw [qualifiedIndex, List.foldl_append, List.foldl_cons, foldl_indexEntry_of_not hlast,
    indexEntry_of_writes hw]

theorem index_none (h : ∀ e ∈ entries, ¬Writes e name) : qualifiedIndex entries name = none :=
  foldl_indexEntry_of_not h

theorem exists_last_writer : ∀ {entries : List ServerEntry}, (∃ e ∈ entries, Writes e name) →
    ∃ before e after, entries = before ++ e :: after ∧ Writes e name
      ∧ ∀ e' ∈ after, ¬Writes e' name
  | [], h => by
      obtain ⟨e, he, -⟩ := h
      cases he
  | e :: rest, h => by
      by_cases hrest : ∃ e' ∈ rest, Writes e' name
      · obtain ⟨before, e', after, rfl, hw, hlast⟩ := exists_last_writer hrest
        exact ⟨e :: before, e', after, rfl, hw, hlast⟩
      · obtain ⟨e', he', hw⟩ := h
        rcases List.mem_cons.1 he' with rfl | he'
        · exact ⟨[], e', rest, rfl, hw, fun u hu hwu => hrest ⟨u, hu, hwu⟩⟩
        · exact absurd ⟨e', he', hw⟩ hrest

-- ===== stripping

theorem strip_key (server tool : PyStr) :
    stripServerPrefix (server ++ '_' :: tool) server = tool := by
  have hsplit : server ++ '_' :: tool = (server ++ ['_']) ++ tool := by simp
  have hpre : (server ++ ['_']).isPrefixOf (server ++ '_' :: tool) = true := by
    rw [hsplit, List.isPrefixOf_iff_prefix]
    exact List.prefix_append _ _
  rw [stripServerPrefix, if_pos hpre, hsplit]
  have hlen : server.length + 1 = (server ++ ['_']).length := by simp
  rw [hlen, List.drop_left]

/-- Two servers whose qualified names meet call them by different bare
names. -/
theorem key_tool_ne {s s' t t' : PyStr} (hne : s ≠ s') (h : s ++ '_' :: t = s' ++ '_' :: t') :
    t' ≠ t := by
  rintro rfl
  exact hne (List.append_cancel_right h)

theorem key_longer {s t t' : PyStr} (h : s ++ '_' :: t' = t) : t' ≠ t := by
  rintro rfl
  have hlen := congrArg List.length h
  simp only [List.length_append, List.length_cons] at hlen
  omega

-- ===== routing

theorem find_name (hn : (entries.map (·.name)).Nodup) (he : e ∈ entries) :
    entries.find? (·.name == e.name) = some e := by
  induction entries with
  | nil => cases he
  | cons d rest ih =>
      rw [List.map_cons, List.nodup_cons] at hn
      rcases List.mem_cons.1 he with rfl | he
      · simp
      · have hd : d.name ≠ e.name := fun h => hn.1 (h ▸ List.mem_map_of_mem he)
        rw [List.find?_cons_of_neg (by simpa using hd)]
        exact ih hn.2 he

def Registry.connectionOf (r : Registry) (server : PyStr) : Option ConnId :=
  (r.entries.find? (·.name == server)).bind (·.connection)

/-- A call whose name is found to be a connected entry's is made on that
entry's connection. -/
theorem route_of_found (hn : (entries.map (·.name)).Nodup) (he : e ∈ entries)
    (hc : e.isConnected = true) {c : ConnId}
    (hconn : e.connection = some c) {index : Dict PyStr PyStr}
    (hs : (index name).or (scanOwner name entries none) = some e.name) :
    route entries index name = .ok (c, stripServerPrefix name e.name) := by
  unfold route
  rw [hs]
  simp only [find_name hn he, hc, hconn]

theorem route_of_owner (he : e ∈ r.entries) (hc : e.isConnected = true)
    (hs : ((rebuildToolIndex r.entries) name).or (scanOwner name r.entries none) = some e.name) :
    ∃ c, e.connection = some c ∧ r.route name = .ok (c, stripServerPrefix name e.name) := by
  obtain ⟨c, hconn⟩ := Option.isSome_iff_exists.1 (r.live e he hc)
  exact ⟨c, hconn, route_of_found r.names_nodup he hc hconn hs⟩

theorem route_written (hr : r.entries = before ++ e :: after) (hw : Writes e name)
    (hlast : ∀ e' ∈ after, ¬Writes e' name) :
    ∃ c, e.connection = some c ∧ r.route name = .ok (c, stripServerPrefix name e.name) := by
  have he : e ∈ r.entries := by
    rw [hr]
    exact List.mem_append_right _ List.mem_cons_self
  refine route_of_owner he hw.1 ?_
  have hindex : rebuildToolIndex r.entries name = some e.name := by
    unfold rebuildToolIndex
    rw [hr, index_last hw hlast]
  rw [hindex]
  rfl

theorem entry_name_ne {e e' : ServerEntry}
    (hr : r.entries = before ++ e :: after) (he : e' ∈ after) : e.name ≠ e'.name := by
  have hn := r.names_nodup
  rw [hr, List.map_append, List.map_cons] at hn
  have hcons := (List.nodup_append.1 hn).2.1
  exact fun h => (List.nodup_cons.1 hcons).1 (h ▸ List.mem_map_of_mem he)

/-- A call by a tool's qualified name reaches the tool on its own
server's connection exactly when no later entry writes the name. -/
theorem routes_qualified
    (hr : r.entries = before ++ e :: after) (hc : e.isConnected = true) {t : ToolInfo}
    (ht : t ∈ e.tools) :
    (∃ c, e.connection = some c ∧ r.route (indexKey e t) = .ok (c, t.name)) ↔
      ∀ e' ∈ after, ¬Writes e' (indexKey e t) := by
  constructor
  · rintro ⟨c, -, hroute⟩ e' he' hw
    -- the last writer behind the tool's own entry takes the call
    obtain ⟨mid, e₂, rest, hafter, hw₂, hlast⟩ := exists_last_writer ⟨e', he', hw⟩
    have hr₂ : r.entries = (before ++ e :: mid) ++ e₂ :: rest := by
      rw [hr, hafter]
      simp
    obtain ⟨c₂, -, hroute₂⟩ := route_written hr₂ hw₂ hlast
    obtain ⟨-, t₂, -, hkey⟩ := hw₂
    have hne : e.name ≠ e₂.name := entry_name_ne hr (hafter ▸ List.mem_append_right _ List.mem_cons_self)
    rw [← hkey, indexKey, strip_key, ← indexKey, hkey, hroute] at hroute₂
    have htool : t.name = t₂.name := congrArg Prod.snd (Except.ok.inj hroute₂)
    exact key_tool_ne hne hkey.symm htool.symm
  · intro hlast
    obtain ⟨c, hconn, hroute⟩ := route_written hr ⟨hc, t, ht, rfl⟩ hlast
    refine ⟨c, hconn, ?_⟩
    rw [hroute, indexKey, strip_key]

-- ===== bare

def Answers (e : ServerEntry) (name : PyStr) : Prop :=
  e.isConnected = true ∧ ∃ t ∈ e.tools, t.name = name

theorem answers_iff : (e.isConnected && e.tools.any (·.name == name)) = true ↔ Answers e name := by
  simp [Answers]

theorem mem_bareOwners {name server : PyStr} :
    server ∈ bareOwners entries name ↔ ∃ e ∈ entries, Answers e name ∧ e.name = server := by
  simp only [bareOwners, List.mem_map, List.mem_filter, answers_iff, and_assoc]

theorem scanOwner_named : ∀ {entries : List ServerEntry} {found : Option PyStr},
    (∃ e ∈ entries, Answers e name ∧ e.name ≠ []) → (∀ s ∈ found, s = []) →
    ∃ e ∈ entries, Answers e name ∧ e.name ≠ [] ∧ scanOwner name entries found = some e.name
  | [], _, h, _ => by
      obtain ⟨e, he, -⟩ := h
      cases he
  | e :: rest, found, h, hfound => by
      unfold scanOwner
      by_cases ha : Answers e name
      · rw [if_pos (answers_iff.2 ha)]
        cases hname : e.name with
        | cons c cs => exact ⟨e, List.mem_cons_self, ha, by rw [hname]; exact List.cons_ne_nil _ _, by rw [hname]⟩
        | nil =>
            have hrest : ∃ e' ∈ rest, Answers e' name ∧ e'.name ≠ [] := by
              obtain ⟨e', he', ha', hne⟩ := h
              rcases List.mem_cons.1 he' with rfl | he'
              · exact absurd hname hne
              · exact ⟨e', he', ha', hne⟩
            have hempty : ∀ s ∈ (some [] : Option PyStr), s = [] :=
              fun s hs => (Option.mem_some.1 hs).symm
            obtain ⟨e', he', ha', hne, hscan⟩ := scanOwner_named hrest hempty
            exact ⟨e', List.mem_cons_of_mem _ he', ha', hne, hscan⟩
      · rw [if_neg fun h => ha (answers_iff.1 h)]
        have hrest : ∃ e' ∈ rest, Answers e' name ∧ e'.name ≠ [] := by
          obtain ⟨e', he', ha', hne⟩ := h
          rcases List.mem_cons.1 he' with rfl | he'
          · exact absurd ha' ha
          · exact ⟨e', he', ha', hne⟩
        obtain ⟨e', he', ha', hne, hscan⟩ := scanOwner_named hrest hfound
        refine ⟨e', List.mem_cons_of_mem _ he', ha', hne, ?_⟩
        cases found with
        | none => exact hscan
        | some s =>
            cases hfound s rfl
            exact hscan

theorem entry_eq_of_name {e e' : ServerEntry} (he : e ∈ r.entries)
    (he' : e' ∈ r.entries) (h : e.name = e'.name) : e = e' := by
  have hfind := find_name r.names_nodup he
  rw [h, find_name r.names_nodup he'] at hfind
  exact (Option.some.inj hfind).symm

/-- A bare name nobody writes and one server answers to is that
server's. -/
theorem index_bare (he : e ∈ r.entries)
    (ha : Answers e name) (hw : ∀ e' ∈ r.entries, ¬Writes e' name)
    (hone : ∀ e' ∈ r.entries, Answers e' name → e'.name = e.name) :
    rebuildToolIndex r.entries name = some e.name := by
  have hfilter : (r.entries.filter fun d => d.isConnected && d.tools.any (·.name == name)) = [e] := by
    have hmem : ∀ d, d ∈ r.entries.filter (fun d => d.isConnected && d.tools.any (·.name == name)) ↔
        d = e := by
      intro d
      rw [List.mem_filter, answers_iff]
      constructor
      · rintro ⟨hd, hans⟩
        exact entry_eq_of_name hd he (hone d hd hans)
      · rintro rfl
        exact ⟨he, ha⟩
    have hnodup : (r.entries.filter fun d => d.isConnected && d.tools.any (·.name == name)).Nodup :=
      (List.Nodup.of_map _ r.names_nodup).filter _
    exact List.perm_singleton.1 ((List.perm_ext_iff_of_nodup hnodup (List.nodup_singleton e)).2
      fun d => by rw [hmem, List.mem_singleton])
  unfold rebuildToolIndex
  rw [index_none hw, bareOwners, hfilter]
  rfl

/-- A bare name nobody writes and two servers answer to is not in the
index. -/
theorem index_ambiguous {e e' : ServerEntry} (he : e ∈ r.entries)
    (he' : e' ∈ r.entries) (ha : Answers e name) (ha' : Answers e' name) (hne : e.name ≠ e'.name)
    (hw : ∀ e' ∈ r.entries, ¬Writes e' name) : rebuildToolIndex r.entries name = none := by
  unfold rebuildToolIndex
  rw [index_none hw]
  have hm : e.name ∈ bareOwners r.entries name := mem_bareOwners.2 ⟨e, he, ha, rfl⟩
  have hm' : e'.name ∈ bareOwners r.entries name := mem_bareOwners.2 ⟨e', he', ha', rfl⟩
  cases hb : bareOwners r.entries name with
  | nil => rfl
  | cons s rest =>
      cases rest with
      | cons _ _ => rfl
      | nil =>
          rw [hb] at hm hm'
          exact absurd ((List.mem_singleton.1 hm).trans (List.mem_singleton.1 hm').symm) hne

theorem strip_nameless : stripServerPrefix name [] = name ↔ name.head? ≠ some '_' := by
  cases name with
  | nil => simp [stripServerPrefix]
  | cons c cs =>
      by_cases hc : c = '_'
      · subst hc
        have hlen : cs ≠ '_' :: cs := fun h => absurd (congrArg List.length h) (by simp)
        simp [stripServerPrefix, hlen]
      · have hne : ¬ '_' = c := fun h => hc h.symm
        simp [stripServerPrefix, hc, hne]

/-- A call by the bare name of a nameless server's tool reaches it
exactly when the name does not begin like a qualified one and nothing
else answers to it. -/
theorem routes_bare (he : e ∈ r.entries) (hname : e.name = [])
    (hc : e.isConnected = true) {t : ToolInfo} (ht : t ∈ e.tools) :
    (∃ c, e.connection = some c ∧ r.route t.name = .ok (c, t.name)) ↔
      t.name.head? ≠ some '_' ∧
      ∀ e' ∈ r.entries, ¬Writes e' t.name ∧ (Answers e' t.name → e'.name = []) := by
  have ha : Answers e t.name := ⟨hc, t, ht, rfl⟩
  have hroutes : (∀ e' ∈ r.entries, ¬Writes e' t.name) →
      (∀ e' ∈ r.entries, Answers e' t.name → e'.name = []) →
      ∃ c, e.connection = some c ∧ r.route t.name = .ok (c, stripServerPrefix t.name []) := by
    intro hw hone
    have hindex := index_bare he ha hw fun e' he' ha' => (hone e' he' ha').trans hname.symm
    have hroute := @route_of_owner t.name e r he hc (by rw [hindex]; rfl)
    rwa [hname] at hroute
  constructor
  · rintro ⟨c, hconn, hroute⟩
    have hw : ∀ e' ∈ r.entries, ¬Writes e' t.name := by
      intro e' he' hwe
      obtain ⟨before, e₂, after, hr, hw₂, hlast⟩ := exists_last_writer ⟨e', he', hwe⟩
      obtain ⟨c₂, -, hroute₂⟩ := route_written hr hw₂ hlast
      obtain ⟨-, t₂, -, hkey⟩ := hw₂
      rw [hroute, ← hkey, indexKey, strip_key] at hroute₂
      have htool := congrArg Prod.snd (Except.ok.inj hroute₂)
      rw [← indexKey, hkey] at htool
      exact key_longer hkey htool.symm
    have hone : ∀ e' ∈ r.entries, Answers e' t.name → e'.name = [] := by
      intro e' he' ha'
      by_contra hne
      have hnone := index_ambiguous he he' ha ha' (fun h => hne (h.symm.trans hname)) hw
      have hnothing : ∀ s ∈ (none : Option PyStr), s = [] := fun s hs => by cases hs
      obtain ⟨e₂, he₂, ha₂, hne₂, hscan⟩ := scanOwner_named ⟨e', he', ha', hne⟩ hnothing
      obtain ⟨c₂, hconn₂, hroute₂⟩ :=
        @route_of_owner t.name e₂ r he₂ ha₂.1 (by rw [hnone]; exact hscan)
      rw [hroute] at hroute₂
      have hconns : c = c₂ := congrArg Prod.fst (Except.ok.inj hroute₂)
      subst hconns
      have hsame := r.apart e he e₂ he₂ (by rw [hconn]; rfl) (hconn.trans hconn₂.symm)
      exact hne₂ (hsame.symm.trans hname)
    refine ⟨?_, fun e' he' => ⟨hw e' he', hone e' he'⟩⟩
    obtain ⟨c₂, -, hroute₂⟩ := hroutes hw hone
    rw [hroute] at hroute₂
    exact strip_nameless.1 (congrArg Prod.snd (Except.ok.inj hroute₂)).symm
  · rintro ⟨hhead, hall⟩
    have hroute := hroutes (fun e' he' => (hall e' he').1) fun e' he' => (hall e' he').2
    rwa [strip_nameless.2 hhead] at hroute

end Velune.Mcp
