/-
The tool a name was shown for and the tool a call of it reaches.

The routes agree with the offers when the local tools' exposed names are
apart (`Agrees`, kept by each step of the two loops): then each exposed
name is offered once and routed to what it was offered for. What is left
is whether the registry sends an MCP tool's qualified name to that tool,
which `routes_qualified` and `routes_bare` answer.
-/
import Mathlib.Data.Char
import Mathlib.Data.List.Lex
import Velune.Mcp.Proofs.Routing
import Velune.ToolLoop.Definitions

namespace Velune.ToolLoop

open Lib
open Mcp (ToolInfo Registry ServerEntry Writes Answers indexKey)

-- ===== routes

def Source.target : Source → Target
  | .local tool => .local tool
  | .mcp info => .mcp (qualifiedName info)

/-- Offers and routes say the same: the names are apart, exactly the
offered names are routed, and each to what it was offered for. -/
structure Agrees (built : Built) : Prop where
  nodup : (built.offers.map (·.name)).Nodup
  routed : ∀ name, (built.route name).isSome = true ↔ name ∈ built.offers.map (·.name)
  target : ∀ o ∈ built.offers, built.route o.name = some o.source.target

theorem agrees_empty : Agrees {} where
  nodup := List.nodup_nil
  routed name := by simp
  target o ho := by cases ho

theorem Agrees.offer {built : Built} (h : Agrees built) {name : PyStr} (source : Source)
    (hnew : name ∉ built.offers.map (·.name)) :
    Agrees ⟨built.route.insert name source.target, built.offers ++ [⟨name, source⟩]⟩ where
  nodup := by
    rw [List.map_append]
    exact List.Nodup.append h.nodup (List.nodup_singleton _) (by simpa using hnew)
  routed other := by
    simp only [List.map_append, List.mem_append, List.map_cons, List.map_nil, List.mem_singleton]
    by_cases hother : other = name
    · subst hother
      simp
    · rw [Dict.insert_of_ne _ _ hother, h.routed]
      simp [hother]
  target o ho := by
    rcases List.mem_append.1 ho with ho | ho
    · have hne : o.name ≠ name := fun heq => hnew (heq ▸ List.mem_map_of_mem ho)
      show built.route.insert name source.target o.name = _
      rw [Dict.insert_of_ne _ _ hne]
      exact h.target o ho
    · cases List.mem_singleton.1 ho
      exact Dict.insert_self _ _ _

theorem Agrees.addMcp {built : Built} (h : Agrees built) (info : ToolInfo) :
    Agrees (ToolLoop.addMcp built info) := by
  unfold ToolLoop.addMcp
  by_cases hr : (built.route (exposedName (qualifiedName info))).isSome = true
  · rw [if_pos hr]
    exact h
  · rw [if_neg hr]
    exact h.offer (.mcp info) fun hmem => hr ((h.routed _).2 hmem)

-- ===== locals

theorem offers_locals : ∀ (locals : List (PyStr × BaseTool)) (built : Built),
    (locals.foldl addLocal built).offers
      = built.offers ++ locals.map fun l => ⟨exposedName l.1, .local l.2⟩
  | [], built => by simp
  | l :: rest, built => by
      rw [List.foldl_cons, offers_locals rest]
      simp [addLocal]

theorem Agrees.locals : ∀ {locals : List (PyStr × BaseTool)} {built : Built}, Agrees built →
    (built.offers.map (·.name) ++ locals.map fun l => exposedName l.1).Nodup →
    Agrees (locals.foldl addLocal built)
  | [], _, h, _ => h
  | l :: rest, built, h, hn => by
      rw [List.map_cons, List.append_cons] at hn
      have hnew : exposedName l.1 ∉ built.offers.map (·.name) := by
        have hleft := (List.nodup_append.1 hn).1
        rw [List.nodup_append] at hleft
        exact fun hmem => hleft.2.2 _ hmem _ (List.mem_singleton.2 rfl) rfl
      rw [List.foldl_cons]
      have hnames : (addLocal built l).offers.map (·.name)
          = built.offers.map (·.name) ++ [exposedName l.1] := by
        simp [addLocal]
      refine Agrees.locals (h.offer (.local l.2) hnew) ?_
      rw [← hnames] at hn
      exact hn

-- ===== mcp

/-- The tools the loop over the MCP tools adds: those whose exposed name
is none of the earlier ones. -/
def shown : List PyStr → List ToolInfo → List ToolInfo
  | _, [] => []
  | taken, info :: rest =>
      if exposedName (qualifiedName info) ∈ taken then shown taken rest
      else info :: shown (taken ++ [exposedName (qualifiedName info)]) rest

theorem shown_cons (taken : List PyStr) (info : ToolInfo) (rest : List ToolInfo) :
    shown taken (info :: rest)
      = if exposedName (qualifiedName info) ∈ taken then shown taken rest
        else info :: shown (taken ++ [exposedName (qualifiedName info)]) rest := rfl

/-- No local tool and no earlier MCP tool has the exposed name of the
tool at this place. -/
def Shown (locals : List (PyStr × BaseTool)) (mcp : List ToolInfo) (info : ToolInfo) : Prop :=
  ∃ before after, mcp = before ++ info :: after
    ∧ (∀ l ∈ locals, exposedName l.1 ≠ exposedName (qualifiedName info))
    ∧ ∀ earlier ∈ before, exposedName (qualifiedName earlier) ≠ exposedName (qualifiedName info)

theorem mem_shown {info : ToolInfo} : ∀ {mcp : List ToolInfo} {taken : List PyStr},
    info ∈ shown taken mcp ↔ ∃ before after, mcp = before ++ info :: after
      ∧ exposedName (qualifiedName info) ∉ taken
      ∧ ∀ earlier ∈ before, exposedName (qualifiedName earlier) ≠ exposedName (qualifiedName info)
  | [], taken => by simp [shown]
  | i :: rest, taken => by
      have hsplit : ∀ {P : List ToolInfo → Prop},
          (∃ before after, i :: rest = before ++ info :: after ∧ P before) ↔
            (i = info ∧ P []) ∨ ∃ before after, rest = before ++ info :: after ∧ P (i :: before) := by
        intro P
        constructor
        · rintro ⟨before, after, h, hp⟩
          cases before with
          | nil =>
              cases h
              exact Or.inl ⟨rfl, hp⟩
          | cons j before =>
              cases h
              exact Or.inr ⟨before, after, rfl, hp⟩
        · rintro (⟨rfl, hp⟩ | ⟨before, after, rfl, hp⟩)
          · exact ⟨[], rest, rfl, hp⟩
          · exact ⟨i :: before, after, rfl, hp⟩
      rw [hsplit, shown_cons]
      by_cases hi : exposedName (qualifiedName i) ∈ taken
      · rw [if_pos hi, mem_shown]
        constructor
        · rintro ⟨before, after, h, hnew, hfirst⟩
          refine Or.inr ⟨before, after, h, hnew, ?_⟩
          rw [List.forall_mem_cons]
          exact ⟨fun heq => hnew (heq ▸ hi), hfirst⟩
        · rintro (⟨rfl, hnew, -⟩ | ⟨before, after, h, hnew, hfirst⟩)
          · exact absurd hi hnew
          · exact ⟨before, after, h, hnew, fun e he => hfirst e (List.mem_cons_of_mem _ he)⟩
      · rw [if_neg hi, List.mem_cons, mem_shown]
        constructor
        · rintro (rfl | ⟨before, after, h, hnew, hfirst⟩)
          · exact Or.inl ⟨rfl, hi, fun e he => by cases he⟩
          · rw [List.mem_append, List.mem_singleton, not_or] at hnew
            refine Or.inr ⟨before, after, h, hnew.1, ?_⟩
            rw [List.forall_mem_cons]
            exact ⟨fun heq => hnew.2 heq.symm, hfirst⟩
        · rintro (⟨rfl, -, -⟩ | ⟨before, after, h, hnew, hfirst⟩)
          · exact Or.inl rfl
          · rw [List.forall_mem_cons] at hfirst
            refine Or.inr ⟨before, after, h, ?_, hfirst.2⟩
            rw [List.mem_append, List.mem_singleton, not_or]
            exact ⟨hnew, fun heq => hfirst.1 heq.symm⟩

theorem offers_mcp : ∀ {mcp : List ToolInfo} {built : Built}, Agrees built →
    (mcp.foldl addMcp built).offers = built.offers
      ++ (shown (built.offers.map (·.name)) mcp).map
        fun info => ⟨exposedName (qualifiedName info), .mcp info⟩
  | [], built, _ => by simp [shown]
  | i :: rest, built, h => by
      have hiff := h.routed (exposedName (qualifiedName i))
      rw [List.foldl_cons, offers_mcp (h.addMcp i), shown_cons]
      by_cases hr : (built.route (exposedName (qualifiedName i))).isSome = true
      · rw [addMcp, if_pos hr, if_pos (hiff.1 hr)]
      · rw [addMcp, if_neg hr, if_neg fun hmem => hr (hiff.2 hmem)]
        simp

theorem Agrees.mcp : ∀ (mcp : List ToolInfo) {built : Built}, Agrees built →
    Agrees (mcp.foldl ToolLoop.addMcp built)
  | [], _, h => h
  | i :: rest, _, h => Agrees.mcp rest (h.addMcp i)

/-- Whatever else it does, the second loop keeps the offers of the
first. -/
theorem offers_grow : ∀ (mcp : List ToolInfo) (built : Built),
    built.offers <+: (mcp.foldl addMcp built).offers
  | [], _ => List.prefix_refl _
  | i :: rest, built => by
      refine List.IsPrefix.trans ?_ (offers_grow rest (addMcp built i))
      by_cases hr : (built.route (exposedName (qualifiedName i))).isSome = true
      · have hsame : (addMcp built i).offers = built.offers := by rw [addMcp, if_pos hr]
        exact ⟨[], by rw [hsame, List.append_nil]⟩
      · rw [addMcp, if_neg hr]
        exact List.prefix_append _ _

-- ===== faithful

/-- What a tool's own name should reach: the local object, or the tool
on its own server's connection. -/
def Source.reached (registry : Registry) : Source → Option Reached
  | .local tool => some (.local tool)
  | .mcp info => (registry.connectionOf info.serverName).map fun c => .remote c info.name

/-- The exposed names are apart, and a call of each reaches the tool
whose description and schema were given under it. -/
def Faithful (locals : List (PyStr × BaseTool)) (registry : Registry) : Prop :=
  ((buildToolDefinitions locals registry.allTools).definitions.map (·.name)).Nodup ∧
  ∀ o ∈ (buildToolDefinitions locals registry.allTools).offers,
    (buildToolDefinitions locals registry.allTools).reach registry o.name
      = o.source.reached registry

/-- Nobody takes an MCP tool's name from it. For a server with a name: no
server listed behind it has a tool of the same qualified name. For one
without: the name does not begin with the separator, is no server's
qualified name, and no other server's bare name. -/
def Undisputed (registry : Registry) (info : ToolInfo) : Prop :=
  (info.serverName ≠ [] → ∀ before e after, registry.entries = before ++ e :: after →
    e.name = info.serverName → ∀ e' ∈ after, ¬Writes e' (qualifiedName info)) ∧
  (info.serverName = [] → info.name.head? ≠ some '_' ∧
    ∀ e' ∈ registry.entries, ¬Writes e' info.name ∧ (Answers e' info.name → e'.name = []))

/-- The names that can be told apart: the local tools' exposed names, and
each shown MCP tool's. -/
def ToldApart (locals : List (PyStr × BaseTool)) (registry : Registry) : Prop :=
  (locals.map fun l => exposedName l.1).Nodup ∧
  ∀ info, Shown locals registry.allTools info → Undisputed registry info

theorem definitions_names (built : Built) :
    built.definitions.map (·.name) = built.offers.map (·.name) := by
  unfold Built.definitions
  rw [List.map_map]
  refine List.map_congr_left fun o _ => ?_
  obtain ⟨name, source⟩ := o
  cases source <;> rfl

theorem entry_split (registry : Registry) {before after b a : List ServerEntry} {e d : ServerEntry}
    (hr : registry.entries = before ++ e :: after) (hr' : registry.entries = b ++ d :: a)
    (hname : d.name = e.name) : a = after := by
  have he : e ∈ registry.entries := hr ▸ List.mem_append_right _ List.mem_cons_self
  have hd : d ∈ registry.entries := hr' ▸ List.mem_append_right _ List.mem_cons_self
  have hn := registry.names_nodup
  cases Mcp.entry_eq_of_name hd he hname
  rw [hr', List.map_append, List.map_cons, List.nodup_append, List.nodup_cons] at hn
  have hb : e ∉ b := fun hmem => hn.2.2 _ (List.mem_map_of_mem hmem) _ List.mem_cons_self rfl
  have ha : e ∉ a := fun hmem => hn.2.1.1 (List.mem_map_of_mem hmem)
  exact ((List.append_cons_inj_of_notMem hb ha).1 (hr'.symm.trans hr)).2.2

/-- The registry sends a tool's qualified name to the tool exactly when
nobody takes it. -/
theorem route_iff {registry : Registry} {info : ToolInfo} (h : info ∈ registry.allTools) :
    (∃ c, registry.connectionOf info.serverName = some c
        ∧ registry.route (qualifiedName info) = .ok (c, info.name))
      ↔ Undisputed registry info := by
  obtain ⟨e, hmem, ht⟩ := List.mem_flatMap.1 h
  obtain ⟨he, hc⟩ := List.mem_filter.1 hmem
  have hname : info.serverName = e.name := registry.owned e he info ht
  have hconn : registry.connectionOf info.serverName = e.connection := by
    unfold Registry.connectionOf
    rw [hname, Mcp.find_name registry.names_nodup he]
    rfl
  rw [hconn]
  by_cases hnil : info.serverName = []
  · have hq : qualifiedName info = info.name := if_pos hnil
    rw [hq, Mcp.routes_bare he (hname ▸ hnil) hc ht]
    exact ⟨fun h => ⟨fun hne => absurd hnil hne, fun _ => h⟩, fun h => h.2 hnil⟩
  · have hq : qualifiedName info = indexKey e info := by
      unfold qualifiedName indexKey
      rw [if_neg hnil, hname]
    obtain ⟨before, after, hr⟩ := List.append_of_mem he
    rw [hq, Mcp.routes_qualified hr hc ht]
    constructor
    · intro hlast
      refine ⟨fun _ b d a hsplit hd => ?_, fun h => absurd h hnil⟩
      have hafter : a = after := entry_split registry hr hsplit (hd.trans hname)
      rw [hafter, hq]
      exact hlast
    · intro h
      have hall := h.1 hnil before e after hr hname.symm
      rwa [hq] at hall

theorem connectionOf_shown {registry : Registry} {info : ToolInfo}
    (h : info ∈ registry.allTools) : ∃ c, registry.connectionOf info.serverName = some c := by
  obtain ⟨e, hmem, ht⟩ := List.mem_flatMap.1 h
  obtain ⟨he, hc⟩ := List.mem_filter.1 hmem
  rw [registry.owned e he info ht]
  unfold Registry.connectionOf
  rw [Mcp.find_name registry.names_nodup he]
  exact Option.isSome_iff_exists.1 (registry.live e he hc)

/-- A call routed to an MCP tool reaches it exactly when nobody takes
its name. -/
theorem reach_iff {built : Built} {registry : Registry} {name : PyStr} {info : ToolInfo}
    (hr : built.route name = some (.mcp (qualifiedName info))) (h : info ∈ registry.allTools) :
    built.reach registry name = (Source.mcp info).reached registry ↔ Undisputed registry info := by
  obtain ⟨c, hconn⟩ := connectionOf_shown h
  have hreached : (Source.mcp info).reached registry = some (.remote c info.name) := by
    show (registry.connectionOf info.serverName).map _ = _
    rw [hconn]
    rfl
  rw [← route_iff h, hreached, hconn]
  unfold Built.reach
  simp only [hr]
  cases registry.route (qualifiedName info) with
  | error e => simp
  | ok found =>
      obtain ⟨d, tool⟩ := found
      constructor
      · intro heq
        cases heq
        exact ⟨c, rfl, rfl⟩
      · rintro ⟨d', hd, heq⟩
        cases hd
        cases heq
        rfl

/-- The model is shown tools it can reach under their names exactly when
the names can be told apart. -/
theorem routes_faithful_iff (locals : List (PyStr × BaseTool)) (registry : Registry) :
    Faithful locals registry ↔ ToldApart locals registry := by
  have hoffers := offers_locals locals {}
  have hnames : (locals.foldl addLocal {}).offers.map (·.name) = locals.map fun l => exposedName l.1 := by
    rw [hoffers, List.map_append, List.map_map]
    rfl
  have hagrees : (locals.map fun l => exposedName l.1).Nodup → Agrees (locals.foldl addLocal {}) :=
    fun hlocals => agrees_empty.locals (by simpa using hlocals)
  have hshown : ∀ info, info ∈ shown (locals.map fun l => exposedName l.1) registry.allTools
      ↔ Shown locals registry.allTools info := by
    intro info
    rw [mem_shown]
    simp only [Shown, List.mem_map, not_exists, not_and, Prod.forall]
  unfold Faithful ToldApart
  rw [definitions_names]
  constructor
  · rintro ⟨hnodup, hreach⟩
    have hlocals : (locals.map fun l => exposedName l.1).Nodup := by
      rw [← hnames]
      exact hnodup.sublist ((offers_grow registry.allTools _).sublist.map _)
    refine ⟨hlocals, fun info hinfo => ?_⟩
    have hall : info ∈ registry.allTools := by
      obtain ⟨before, after, heq, -⟩ := hinfo
      rw [heq]
      exact List.mem_append_right _ List.mem_cons_self
    have ho : (⟨exposedName (qualifiedName info), .mcp info⟩ : Offer)
        ∈ (buildToolDefinitions locals registry.allTools).offers := by
      unfold buildToolDefinitions
      rw [offers_mcp (hagrees hlocals), hnames]
      exact List.mem_append_right _ (List.mem_map.2 ⟨info, (hshown info).2 hinfo, rfl⟩)
    have htarget := ((hagrees hlocals).mcp registry.allTools).target _ ho
    exact (reach_iff htarget hall).1 (hreach _ ho)
  · rintro ⟨hlocals, hfine⟩
    have hbuilt := (hagrees hlocals).mcp registry.allTools
    refine ⟨hbuilt.nodup, fun o ho => ?_⟩
    have htarget := hbuilt.target o ho
    unfold buildToolDefinitions at ho
    rw [offers_mcp (hagrees hlocals), hnames, hoffers] at ho
    rcases List.mem_append.1 ho with ho | ho
    · obtain ⟨l, -, rfl⟩ := List.mem_map.1 ho
      show (buildToolDefinitions locals registry.allTools).reach registry _ = _
      unfold Built.reach
      rw [show (buildToolDefinitions locals registry.allTools).route _ = _ from htarget]
      rfl
    · obtain ⟨info, hinfo, rfl⟩ := List.mem_map.1 ho
      have hs := (hshown info).1 hinfo
      have hall : info ∈ registry.allTools := by
        obtain ⟨before, after, heq, -⟩ := hs
        rw [heq]
        exact List.mem_append_right _ List.mem_cons_self
      exact (reach_iff htarget hall).2 (hfine info hs)

-- A server a with a tool b_c and a server a_b with a tool c: both tools
-- are a_b_c. The first is shown, the second is called.

def firstTool : ToolInfo := ⟨"b_c".toList, [], .obj [], "a".toList⟩

def secondTool : ToolInfo := ⟨"c".toList, [], .obj [], "a_b".toList⟩

def firstServer : ServerEntry :=
  { config := { name := "a".toList }, state := .connected, connection := some 0, tools := [firstTool] }

def secondServer : ServerEntry :=
  { config := { name := "a_b".toList }, state := .connected, connection := some 1
    tools := [secondTool] }

def twoServers : Registry where
  entries := [firstServer, secondServer]
  names_nodup := by decide
  live := by
    intro e he _
    simp only [List.mem_cons, List.not_mem_nil, or_false] at he
    rcases he with rfl | rfl <;> rfl
  apart := by
    intro e he e' he' _ heq
    simp only [List.mem_cons, List.not_mem_nil, or_false] at he he'
    rcases he with rfl | rfl <;> rcases he' with rfl | rfl
    · rfl
    · exact absurd heq (by decide)
    · exact absurd heq (by decide)
    · rfl
  owned := by
    intro e he t ht
    simp only [List.mem_cons, List.not_mem_nil, or_false] at he
    rcases he with rfl | rfl <;> cases List.mem_singleton.1 ht <;> rfl

/-- The call goes to the other server's tool. -/
theorem two_servers_misrouted : ¬Faithful [] twoServers := by
  rintro ⟨-, hreach⟩
  have hshown := hreach ⟨"a_b_c".toList, .mcp firstTool⟩ (List.mem_singleton.2 rfl)
  have hgot : (buildToolDefinitions [] twoServers.allTools).reach twoServers "a_b_c".toList
      = some (.remote 1 "c".toList) := rfl
  rw [hgot] at hshown
  have hconn : (1 : Nat) = 0 := (Reached.remote.inj (Option.some.inj hshown)).1
  exact absurd hconn (by decide)

end Velune.ToolLoop
