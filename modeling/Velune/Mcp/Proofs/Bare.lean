/-
A call by a bare tool name (`call_tool` for a name that is no connected
server's qualified one).

The index leaves out a name that several servers expose, but a call that
finds nothing there scans the entries and takes the first that answers;
and the name is stripped of its server's prefix even when it never had
one. So the call reaches the one server that exposes the name exactly
when there is at most one and the name does not begin like one of that
server's qualified names (`calls_sole_iff`). Between two rebuilds of the
index a failed call marks its server down and the index still lists its
qualified names: such a name then reaches nobody.
-/
import Velune.Mcp.Proofs.Routing

namespace Velune.Mcp

open Lib

-- ===== statement

def afterFailures (entries : List ServerEntry) (failed : PyStr → Bool) : List ServerEntry :=
  entries.map fun e => if failed e.name then { e with state := .error } else e

/-- The entry is the one connected server that exposes the name. -/
def Sole (entries : List ServerEntry) (name : PyStr) (e : ServerEntry) : Prop :=
  e ∈ entries ∧ Answers e name ∧ ∀ e' ∈ entries, Answers e' name → e' = e

/-- A tool is called iff exactly one server exposes the name, and then it
is that server's tool of that name; where several do, nothing is called. -/
structure CallsSole (entries : List ServerEntry) (index : Dict PyStr PyStr) (name : PyStr) :
    Prop where
  calls_iff : (∃ call, route entries index name = .ok call) ↔ ∃ e, Sole entries name e
  sole : ∀ e, Sole entries name e →
    ∃ c, e.connection = some c ∧ route entries index name = .ok (c, name)
  several : ∀ e ∈ entries, ∀ e' ∈ entries, Answers e name → Answers e' name → e ≠ e' →
    ∃ err, route entries index name = .error err

/-- No server qualifies to the name, at most one exposes it, and the name
does not begin with that one's; or else a server that has failed
qualifies to it, and it is not exposed by exactly one. -/
def Clear (r : Registry) (entries : List ServerEntry) (name : PyStr) : Prop :=
  ((∀ e ∈ r.entries, ¬ Writes e name) ∧ ∀ e ∈ entries, Answers e name →
      (e.name ++ ['_']).isPrefixOf name = false ∧ ∀ e' ∈ entries, Answers e' name → e' = e)
    ∨ ((∃ e ∈ r.entries, Writes e name) ∧ ¬ ∃ e, Sole entries name e)

-- ===== lookup

theorem strip_self_iff {name server : PyStr} :
    stripServerPrefix name server = name ↔ (server ++ ['_']).isPrefixOf name = false := by
  unfold stripServerPrefix
  split
  next hpre =>
      refine iff_of_false (fun h => ?_) (fun h => Bool.false_ne_true (h.symm.trans hpre))
      obtain ⟨rest, hrest⟩ := List.isPrefixOf_iff_prefix.1 hpre
      have hlen := congrArg List.length h
      rw [List.length_drop] at hlen
      have hpos := congrArg List.length hrest
      simp only [List.length_append, List.length_singleton] at hpos
      omega
  next hpre => exact iff_of_true rfl (Bool.eq_false_iff.2 hpre)

theorem scanOwner_spec {name : PyStr} : ∀ (entries : List ServerEntry) (found : Option PyStr),
    (∀ s ∈ found, s = []) →
    ((∀ e ∈ entries, ¬ Answers e name) ∧ scanOwner name entries found = found)
      ∨ ∃ e ∈ entries, Answers e name ∧ scanOwner name entries found = some e.name
  | [], found, _ => .inl ⟨fun e he => absurd he List.not_mem_nil, rfl⟩
  | e :: rest, found, hfound => by
      by_cases ha : Answers e name
      · refine .inr ?_
        cases hname : e.name with
        | cons c cs =>
            refine ⟨e, List.mem_cons_self .., ha, ?_⟩
            rw [scanOwner, if_pos (answers_iff.2 ha), hname]
        | nil =>
            have hstep : scanOwner name (e :: rest) found = scanOwner name rest (some []) := by
              rw [scanOwner, if_pos (answers_iff.2 ha), hname]
            have hempty : ∀ s ∈ (some [] : Option PyStr), s = [] :=
              fun s hs => (Option.mem_some.1 hs).symm
            rw [hstep]
            rcases scanOwner_spec rest (some []) hempty with ⟨-, hscan⟩ | ⟨e', he', ha', hscan⟩
            · exact ⟨e, List.mem_cons_self .., ha, hscan.trans (congrArg some hname.symm)⟩
            · exact ⟨e', List.mem_cons_of_mem e he', ha', hscan⟩
      · have hstep : scanOwner name (e :: rest) found = scanOwner name rest found := by
          rw [scanOwner, if_neg fun h => ha (answers_iff.1 h)]
          cases found with
          | none => rfl
          | some s =>
              cases hfound s rfl
              rfl
        rw [hstep]
        rcases scanOwner_spec rest found hfound with ⟨hnone, hscan⟩ | ⟨e', he', ha', hscan⟩
        · exact .inl ⟨List.forall_mem_cons.2 ⟨ha, hnone⟩, hscan⟩
        · exact .inr ⟨e', List.mem_cons_of_mem e he', ha', hscan⟩

-- ===== after failures

namespace Registry

variable {r : Registry} {failed : PyStr → Bool} {name : PyStr}

theorem mem_afterFailures {e : ServerEntry} (he : e ∈ afterFailures r.entries failed) :
    ∃ e₀ ∈ r.entries, e.name = e₀.name ∧ (e.isConnected = true → e = e₀) := by
  obtain ⟨e₀, he₀, heq⟩ := List.mem_map.1 he
  refine ⟨e₀, he₀, ?_⟩
  subst heq
  split
  next => exact ⟨rfl, fun h => (by cases h)⟩
  next => exact ⟨rfl, fun _ => rfl⟩

theorem mem_of_connected {e : ServerEntry} (he : e ∈ afterFailures r.entries failed)
    (hc : e.isConnected = true) : e ∈ r.entries := by
  obtain ⟨e₀, he₀, -, hsame⟩ := mem_afterFailures he
  exact hsame hc ▸ he₀

theorem afterFailures_nodup : ((afterFailures r.entries failed).map (·.name)).Nodup := by
  have hsame : (afterFailures r.entries failed).map (·.name) = r.entries.map (·.name) := by
    unfold afterFailures
    rw [List.map_map]
    refine List.map_congr_left fun e he => ?_
    show (if failed e.name then { e with state := .error } else e).name = e.name
    split <;> rfl
  exact hsame ▸ r.names_nodup

theorem route_afterFailures {index : Dict PyStr PyStr} {e : ServerEntry}
    (he : e ∈ afterFailures r.entries failed) (hc : e.isConnected = true)
    (hs : (index name).or (scanOwner name (afterFailures r.entries failed) none) = some e.name) :
    ∃ c, e.connection = some c
      ∧ Mcp.route (afterFailures r.entries failed) index name = .ok (c, stripServerPrefix name e.name) := by
  obtain ⟨c, hconn⟩ := Option.isSome_iff_exists.1 (r.live e (mem_of_connected he hc) hc)
  exact ⟨c, hconn, route_of_found afterFailures_nodup he hc hconn hs⟩

theorem route_down {entries : List ServerEntry} {index : Dict PyStr PyStr} {server : PyStr}
    (hindex : index name = some server)
    (hdown : ∀ e ∈ entries, e.name = server → e.isConnected ≠ true) :
    Mcp.route entries index name = .error (.notConnected server) := by
  unfold Mcp.route
  rw [hindex, Option.some_or]
  dsimp only
  cases hfind : entries.find? (·.name == server) with
  | none => rfl
  | some e =>
      have hname : e.name = server := by simpa using List.find?_some hfind
      have hconn := Bool.eq_false_iff.2 (hdown e (List.mem_of_find?_eq_some hfind) hname)
      simp only [hconn]

/-- The name is in the index for the server that was the only one to
expose it, or not at all. -/
theorem index_bare_cases (hw : ∀ e ∈ r.entries, ¬ Writes e name) :
    rebuildToolIndex r.entries name = none
      ∨ ∃ e ∈ r.entries, Answers e name ∧ rebuildToolIndex r.entries name = some e.name
        ∧ ∀ e' ∈ r.entries, Answers e' name → e' = e := by
  by_cases hone : ∃ e ∈ r.entries, Answers e name ∧ ∀ e' ∈ r.entries, Answers e' name → e' = e
  · obtain ⟨e, he, ha, hsole⟩ := hone
    exact .inr ⟨e, he, ha, index_bare he ha hw fun e' he' ha' => hsole e' he' ha' ▸ rfl, hsole⟩
  · refine .inl ?_
    by_cases hany : ∃ e ∈ r.entries, Answers e name
    · obtain ⟨e, he, ha⟩ := hany
      have htwo : ∃ e' ∈ r.entries, Answers e' name ∧ e' ≠ e := by
        by_contra hno
        refine hone ⟨e, he, ha, fun e' he' ha' => ?_⟩
        by_contra hne
        exact hno ⟨e', he', ha', hne⟩
      obtain ⟨e', he', ha', hne⟩ := htwo
      exact index_ambiguous he he' ha ha' (fun h => hne (entry_eq_of_name he' he h.symm)) hw
    · have hnone : bareOwners r.entries name = [] := by
        refine List.eq_nil_iff_forall_not_mem.2 fun server hserver => hany ?_
        obtain ⟨e, he, ha, -⟩ := mem_bareOwners.1 hserver
        exact ⟨e, he, ha⟩
      unfold rebuildToolIndex
      rw [index_none hw, hnone]

/-- A bare name that no server qualifies to reaches a server that exposes
it, if any does. -/
theorem route_bare (hw : ∀ e ∈ r.entries, ¬ Writes e name) :
    ((∀ e ∈ afterFailures r.entries failed, ¬ Answers e name)
        ∧ ∃ err, Mcp.route (afterFailures r.entries failed) (rebuildToolIndex r.entries) name = .error err)
      ∨ ∃ e ∈ afterFailures r.entries failed, Answers e name ∧ ∃ c, e.connection = some c
        ∧ Mcp.route (afterFailures r.entries failed) (rebuildToolIndex r.entries) name
            = .ok (c, stripServerPrefix name e.name) := by
  have hnothing : ∀ s ∈ (none : Option PyStr), s = [] := fun s hs => (by cases hs)
  rcases index_bare_cases hw with hindex | ⟨e₀, he₀, ha₀, hindex, hsole⟩
  · rcases @scanOwner_spec name (afterFailures r.entries failed) none hnothing with
      ⟨hnone, hscan⟩ | ⟨e, he, ha, hscan⟩
    · refine .inl ⟨hnone, .noOwner name, ?_⟩
      unfold Mcp.route
      rw [hindex, hscan]
      rfl
    · exact .inr ⟨e, he, ha, route_afterFailures he ha.1 (by rw [hindex]; exact hscan)⟩
  · by_cases hany : ∃ e ∈ afterFailures r.entries failed, Answers e name
    · obtain ⟨e, he, ha⟩ := hany
      have hsame : e = e₀ := hsole e (mem_of_connected he ha.1) ha
      exact .inr ⟨e, he, ha, route_afterFailures he ha.1 (by rw [hindex, hsame]; rfl)⟩
    · -- the one that exposed it has failed
      refine .inl ⟨fun e he ha => hany ⟨e, he, ha⟩, _, route_down hindex fun e he hname hc => ?_⟩
      have hsame : e = e₀ := entry_eq_of_name (mem_of_connected he hc) he₀ hname
      exact hany ⟨e, he, hsame ▸ ha₀⟩

theorem route_stale (hbare : ∀ e ∈ afterFailures r.entries failed, ¬ Writes e name)
    (hw : ∃ e ∈ r.entries, Writes e name) :
    ∃ err, Mcp.route (afterFailures r.entries failed) (rebuildToolIndex r.entries) name
      = .error err := by
  obtain ⟨before, e₀, after, hr, hw₀, hlast⟩ := exists_last_writer hw
  have he₀ : e₀ ∈ r.entries := hr ▸ List.mem_append_right _ (List.mem_cons_self ..)
  have hindex : rebuildToolIndex r.entries name = some e₀.name := by
    unfold rebuildToolIndex
    rw [hr, index_last hw₀ hlast]
  refine ⟨_, route_down hindex fun e he hname hc => ?_⟩
  have hsame : e = e₀ := entry_eq_of_name (mem_of_connected he hc) he₀ hname
  exact hbare e he (hsame ▸ hw₀)

/-- A call by a name that no connected server qualifies to calls the one
server that exposes it exactly if the name is clear. -/
theorem calls_sole_iff (hbare : ∀ e ∈ afterFailures r.entries failed, ¬ Writes e name) :
    CallsSole (afterFailures r.entries failed) (rebuildToolIndex r.entries) name ↔
      Clear r (afterFailures r.entries failed) name := by
  by_cases hw : ∃ e ∈ r.entries, Writes e name
  · obtain ⟨err, hroute⟩ := route_stale hbare hw
    constructor
    · intro h
      refine .inr ⟨hw, fun hsole => ?_⟩
      obtain ⟨call, hcall⟩ := h.calls_iff.2 hsole
      rw [hroute] at hcall
      cases hcall
    · intro h
      have hnone : ¬ ∃ e, Sole (afterFailures r.entries failed) name e := by
        rcases h with ⟨hno, -⟩ | ⟨-, hnone⟩
        · obtain ⟨e, he, hwe⟩ := hw
          exact absurd hwe (hno e he)
        · exact hnone
      refine ⟨iff_of_false (fun ⟨call, hcall⟩ => ?_) hnone, fun e he => absurd ⟨e, he⟩ hnone,
        fun _ _ _ _ _ _ _ => ⟨err, hroute⟩⟩
      rw [hroute] at hcall
      cases hcall
  · have hno : ∀ e ∈ r.entries, ¬ Writes e name := fun e he hwe => hw ⟨e, he, hwe⟩
    rcases @route_bare r failed name hno with ⟨hnone, err, hroute⟩ | ⟨e, he, ha, c, hconn, hroute⟩
    · refine iff_of_true ⟨iff_of_false (fun ⟨call, hcall⟩ => ?_) ?_, ?_, ?_⟩
        (.inl ⟨hno, fun e he ha => absurd ha (hnone e he)⟩)
      · rw [hroute] at hcall
        cases hcall
      · exact fun ⟨e, hsole⟩ => hnone e hsole.1 hsole.2.1
      · exact fun e he => absurd he.2.1 (hnone e he.1)
      · exact fun e he _ _ ha => absurd ha (hnone e he)
    · constructor
      · intro h
        obtain ⟨e₁, hsole⟩ := h.calls_iff.1 ⟨_, hroute⟩
        obtain ⟨c₁, -, hroute₁⟩ := h.sole e₁ hsole
        rw [hroute] at hroute₁
        have hstrip : stripServerPrefix name e.name = name :=
          congrArg Prod.snd (Except.ok.inj hroute₁)
        refine .inl ⟨hno, fun e' he' ha' => ?_⟩
        have hsame : e' = e := (hsole.2.2 e' he' ha').trans (hsole.2.2 e he ha).symm
        refine ⟨hsame ▸ strip_self_iff.1 hstrip, fun e₂ he₂ ha₂ => ?_⟩
        exact (hsole.2.2 e₂ he₂ ha₂).trans (hsole.2.2 e' he' ha').symm
      · intro h
        rcases h with ⟨-, hclear⟩ | ⟨hwe, -⟩
        · obtain ⟨hfront, hsole⟩ := hclear e he ha
          rw [strip_self_iff.2 hfront] at hroute
          refine ⟨iff_of_true ⟨_, hroute⟩ ⟨e, he, ha, hsole⟩, fun e₁ h₁ => ?_, ?_⟩
          · obtain rfl : e₁ = e := hsole e₁ h₁.1 h₁.2.1
            exact ⟨c, hconn, hroute⟩
          · intro e₁ he₁ e₂ he₂ ha₁ ha₂ hne
            exact absurd ((hsole e₁ he₁ ha₁).trans (hsole e₂ he₂ ha₂).symm) hne
        · exact absurd hwe hw

end Registry

-- Two connected servers that both expose `search`, and one with a tool whose
-- name begins like a qualified one.

def server (name : PyStr) (connection : ConnId) (tools : List PyStr) : ServerEntry where
  config := { name := name }
  state := .connected
  connection := some connection
  tools := tools.map fun tool =>
    { name := tool, description := [], inputSchema := .null, serverName := name }

def twoServers : Registry where
  entries := [server "docs".toList 1 ["search".toList, "fetch".toList],
    server "git".toList 2 ["search".toList, "git_log".toList]]
  names_nodup := by decide
  live := by simp [server]
  apart := by simp [server]
  owned := by simp [server, ServerEntry.name]

abbrev noFailure : PyStr → Bool := fun _ => false

theorem calls_sole_fetch :
    CallsSole (afterFailures twoServers.entries noFailure) (rebuildToolIndex twoServers.entries)
        "fetch".toList ↔
      Clear twoServers (afterFailures twoServers.entries noFailure) "fetch".toList :=
  Registry.calls_sole_iff (by
    simp [afterFailures, twoServers, server, Writes, indexKey, ServerEntry.name])

theorem not_calls_sole_search :
    (∀ e ∈ afterFailures twoServers.entries noFailure,
        ¬ Writes e "search".toList ∧ ¬ Writes e "git_log".toList)
      ∧ ¬ CallsSole (afterFailures twoServers.entries noFailure)
          (rebuildToolIndex twoServers.entries) "search".toList
      ∧ ¬ CallsSole (afterFailures twoServers.entries noFailure)
          (rebuildToolIndex twoServers.entries) "git_log".toList := by
  have hsearch : Mcp.route (afterFailures twoServers.entries noFailure)
      (rebuildToolIndex twoServers.entries) "search".toList = .ok (1, "search".toList) := rfl
  have hlog : Mcp.route (afterFailures twoServers.entries noFailure)
      (rebuildToolIndex twoServers.entries) "git_log".toList = .ok (2, "log".toList) := rfl
  refine ⟨?_, fun h => ?_, fun h => ?_⟩
  · simp [afterFailures, twoServers, server, Writes, indexKey, ServerEntry.name]
  · obtain ⟨err, hroute⟩ := h.several _ (List.mem_cons_self ..) _
      (List.mem_cons_of_mem _ (List.mem_cons_self ..)) (answers_iff.1 rfl) (answers_iff.1 rfl)
      (fun heq => absurd (congrArg ServerEntry.name heq) (by decide))
    rw [hsearch] at hroute
    cases hroute
  · obtain ⟨e, hsole⟩ := h.calls_iff.1 ⟨_, hlog⟩
    obtain ⟨c, -, hroute⟩ := h.sole e hsole
    rw [hlog] at hroute
    have hname : "log".toList = "git_log".toList := congrArg Prod.snd (Except.ok.inj hroute)
    exact absurd hname (by decide)

end Velune.Mcp
