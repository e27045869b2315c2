/-
When the coordinator starts every component once and tears it down once.

The tables are kept by name and cleared at the end of a shutdown, and a
cancelled initialisation leaves no trace but its status. So the result
holds of the runs that register an object once, under a name that is not
in use and not while a shutdown is at work, that cancel no initialisation
of a component that is still up, and whose shutdowns come one after the
other (`components_torn_down`).
-/
import Mathlib.Data.List.Nodup
import Velune.Kernel.Lifecycle
import Velune.Lib.Numbered

namespace Velune.Kernel

open Lib Lib.Numbered

-- ===== property

/-- Every object that was registered had one turn, and those of this call
came in the reverse order of the first registrations. -/
def Ending.Complete (e : Ending) : Prop :=
  (∀ reg ∈ e.registered, e.turns.count reg.2 = 1) ∧ e.called = e.names.reverse

namespace LifecycleCoordinator

variable (s : LifecycleCoordinator)

def At (call : Nat) (name : PyStr) : Prop :=
  ∃ component todo, s.startups[call]? = some (.running name component todo)

def StartedOnce : Prop :=
  ∀ component, s.begun.count component ≤ s.interrupted.count component + 1

/-- What is marked as initialising is being initialised, and a component
that is still up and whose initialisation was cancelled was begun again. -/
def Unstuck : Prop :=
  (∀ name, s.states.get? name = some .initializing → ∃ call, s.At call name) ∧
  ∀ name component, s.components.get? name = some component → component ∈ s.interrupted →
    component ∈ s.turns ∨ s.interrupted.count component < s.begun.count component

def TornDown : Prop :=
  ∀ (call : Nat) (ending : Ending), s.shutdowns[call]? = some (.over ending) → ending.Complete

-- ===== condition

def Closing : Prop :=
  ∃ (call : Nat) (name : PyStr) (todo called : List PyStr) (cancelled : Bool),
    s.shutdowns[call]? = some (.closing name todo called cancelled)

def Queued (name : PyStr) (component : Component) : Prop :=
  ∃ (call : Nat) (current : PyStr) (awaited : Component) (todo : List (PyStr × Component)),
    s.startups[call]? = some (.running current awaited todo) ∧ (name, component) ∈ todo

def Due (name : PyStr) (component : Component) : Prop :=
  s.components.get? name = some component ∨ s.Queued name component

/-- Registered is what is new, under a name that is free, and not while a
shutdown is at work; to say again what the tables say does no harm. What
is cancelled is the initialisation of a component that is no longer up,
and whose name is not left as initialising. Shutdowns work one after the
other. -/
def Careful : LifecycleStep → LifecycleCoordinator → Prop
  | .register name component, s =>
      (s.components.get? name = some component ∧ s.states.get? name = some .uninitialized) ∨
      ((∀ reg ∈ s.registered, reg.2 ≠ component) ∧ s.components.get? name = none ∧ ¬ s.Closing ∧
        ∀ old, s.Queued name old → old ∉ s.begun)
  | .setStatus name status, s =>
      (status = .uninitialized → ∀ component, s.Due name component → component ∉ s.begun) ∧
      (status = .initializing → ∃ call, s.At call name)
  | .initialized call .cancelled, s =>
      ∀ name component todo, s.startups[call]? = some (.running name component todo) →
        (s.components.get? name = some component → component ∈ s.turns) ∧
        (s.states.get? name = some .initializing → ∃ other, other ≠ call ∧ s.At other name)
  | .drained _ _, s => ¬ s.Closing
  | _, _ => True

-- ===== invariant

/-- Every component in the tables was registered, under one name. -/
structure Tabled : Prop where
  entered : ∀ name component, s.components.get? name = some component →
    (name, component) ∈ s.registered
  apart : ∀ component name other, (name, component) ∈ s.registered →
    (other, component) ∈ s.registered → name = other
  keys : s.components.keys = s.names
  nodup : s.names.Nodup

/-- No component is begun twice, and none that was interrupted is up. -/
structure Starting : Prop where
  queued : ∀ name component, s.Queued name component → (name, component) ∈ s.registered
  current : ∀ (call : Nat) name component todo,
    s.startups[call]? = some (.running name component todo) → (name, component) ∈ s.registered
  fresh : ∀ name component, s.Due name component → s.states.get? name = some .uninitialized →
    component ∉ s.begun
  known : ∀ component ∈ s.begun, ∃ name, (name, component) ∈ s.registered
  once : s.begun.Nodup
  interrupted : ∀ component ∈ s.interrupted, ∃ name, (name, component) ∈ s.registered
  stuck : ∀ name, s.states.get? name = some .initializing → ∃ call, s.At call name
  gone : ∀ name component, s.components.get? name = some component →
    component ∈ s.interrupted → component ∈ s.turns

/-- Those that have not had their turn are the ones with these names in
the table. -/
def Remain (todo : List PyStr) : Prop :=
  ∀ reg ∈ s.registered, reg.2 ∈ s.turns ↔ ¬ (reg.1 ∈ todo ∧ s.components.get? reg.1 = some reg.2)

structure Stopping : Prop where
  known : ∀ component ∈ s.turns, ∃ name, (name, component) ∈ s.registered
  once : s.turns.Nodup
  alone : ∀ (call other : Nat) name todo called cancelled name' todo' called' cancelled',
    s.shutdowns[call]? = some (.closing name todo called cancelled) →
    s.shutdowns[other]? = some (.closing name' todo' called' cancelled') → call = other
  idle : ¬ s.Closing → ∀ reg ∈ s.registered,
    reg.2 ∈ s.turns ↔ s.components.get? reg.1 ≠ some reg.2
  busy : ∀ (call : Nat) name todo called cancelled,
    s.shutdowns[call]? = some (.closing name todo called cancelled) →
    s.Remain todo ∧ s.names.reverse = called ++ todo
  ended : s.TornDown

structure Sound : Prop where
  tabled : s.Tabled
  starting : s.Starting
  stopping : s.Stopping

section Steps

variable {s s'}

theorem mark_cases {name other : PyStr} {status found : ComponentStatus}
    (h : (s.mark name status).states.get? other = some found) :
    (other = name ∧ found = status) ∨ (other ≠ name ∧ s.states.get? other = some found) :=
  Assoc.get?_set_cases h

variable {component : Component} {call : Nat} {todo : List (PyStr × Component)}

theorem Starting.new (hs : s.Starting)
    (hnew : ∀ reg ∈ s.registered, reg.2 ≠ component) : component ∉ s.begun := by
  intro hbegun
  obtain ⟨name, hmem⟩ := hs.known component hbegun
  exact hnew _ hmem rfl

-- ===== registrations

theorem register_again (ht : s.Tabled) {name : PyStr}
    (hget : s.components.get? name = some component)
    (hstate : s.states.get? name = some .uninitialized) : s.register name component = s := by
  have hname : name ∈ s.names := ht.keys ▸ (Assoc.mem_keys_iff _ _).2 ⟨component, hget⟩
  unfold register mark
  simp only [Assoc.set_same hget, Assoc.set_same hstate, if_pos (ht.entered name component hget),
    if_pos hname]

section Register

variable {name : PyStr} {component : Component}
  (hnew : ∀ reg ∈ s.registered, reg.2 ≠ component)
include hnew

theorem register_registered :
    (s.register name component).registered = s.registered ++ [(name, component)] :=
  if_neg fun hmem => hnew _ hmem rfl

variable (hfree : s.components.get? name = none)
include hfree

theorem tabled_register (ht : s.Tabled) : (s.register name component).Tabled := by
  have hreg : (s.register name component).registered = _ := register_registered hnew
  have hkey : name ∉ s.components.keys := fun hmem => by
    obtain ⟨value, hget⟩ := (Assoc.mem_keys_iff _ _).1 hmem
    rw [hfree] at hget
    cases hget
  have hnames : (s.register name component).names = s.names ++ [name] :=
    if_neg fun hmem => hkey (ht.keys ▸ hmem)
  refine ⟨fun n c hget => ?_, fun c n m hn hm => ?_, ?_, ?_⟩
  · rw [hreg, List.mem_append]
    rcases Assoc.get?_set_cases hget with ⟨rfl, rfl⟩ | ⟨-, hget⟩
    · exact Or.inr (List.mem_singleton_self _)
    · exact Or.inl (ht.entered n c hget)
  · rw [hreg, List.mem_append, List.mem_singleton] at hn hm
    rcases hn with hn | hn
    · rcases hm with hm | hm
      · exact ht.apart c n m hn hm
      · exact (hnew _ hn (Prod.mk.inj hm).2).elim
    · rcases hm with hm | hm
      · exact (hnew _ hm (Prod.mk.inj hn).2).elim
      · rw [(Prod.mk.inj hn).1, (Prod.mk.inj hm).1]
  · rw [hnames, ← ht.keys]
    exact Assoc.keys_set_new hkey component
  · rw [hnames]
    refine List.nodup_append.2 ⟨ht.nodup, List.pairwise_singleton _ name, fun a ha b hb heq => ?_⟩
    cases List.mem_singleton.1 hb
    exact hkey (ht.keys ▸ heq ▸ ha)

theorem starting_register (hs : s.Starting)
    (hqueued : ∀ old, s.Queued name old → old ∉ s.begun) :
    (s.register name component).Starting := by
  have hreg : (s.register name component).registered = _ := register_registered hnew
  have hleft : ∀ reg ∈ s.registered, reg ∈ (s.register name component).registered :=
    fun reg hmem => hreg ▸ List.mem_append_left _ hmem
  refine ⟨fun n c h => hleft _ (hs.queued n c h), fun call n c todo h => hleft _ (hs.current call n c todo h),
    fun n c hdue hstate => ?_, fun c hc => ?_, hs.once, fun c hc => ?_, fun n hstate => ?_,
    fun n c hget hinter => ?_⟩
  · rcases mark_cases hstate with ⟨rfl, -⟩ | ⟨hne, hold⟩
    · rcases hdue with hget | hq
      · rcases Assoc.get?_set_cases hget with ⟨-, rfl⟩ | ⟨hne, -⟩
        · exact hs.new hnew
        · exact (hne rfl).elim
      · exact hqueued c hq
    · rcases hdue with hget | hq
      · rcases Assoc.get?_set_cases hget with ⟨heq, -⟩ | ⟨-, hget⟩
        · exact (hne heq).elim
        · exact hs.fresh n c (Or.inl hget) hold
      · exact hs.fresh n c (Or.inr hq) hold
  · obtain ⟨n, hmem⟩ := hs.known c hc
    exact ⟨n, hleft _ hmem⟩
  · obtain ⟨n, hmem⟩ := hs.interrupted c hc
    exact ⟨n, hleft _ hmem⟩
  · rcases mark_cases hstate with ⟨-, heq⟩ | ⟨-, hold⟩
    · cases heq
    · exact hs.stuck n hold
  · rcases Assoc.get?_set_cases hget with ⟨-, rfl⟩ | ⟨-, hget⟩
    · obtain ⟨n, hmem⟩ := hs.interrupted c hinter
      exact (hnew _ hmem rfl).elim
    · exact hs.gone n c hget hinter

theorem stopping_register (hs : s.Stopping) (hopen : ¬ s.Closing) :
    (s.register name component).Stopping := by
  have hreg : (s.register name component).registered = _ := register_registered hnew
  refine ⟨fun c hc => ?_, hs.once, hs.alone, fun _ reg hmem => ?_,
    fun call n todo called cancelled h => (hopen ⟨call, n, todo, called, cancelled, h⟩).elim, hs.ended⟩
  · obtain ⟨n, hmem⟩ := hs.known c hc
    exact ⟨n, hreg ▸ List.mem_append_left _ hmem⟩
  · rw [hreg, List.mem_append, List.mem_singleton] at hmem
    rcases hmem with hmem | rfl
    · refine (hs.idle hopen reg hmem).trans (not_congr ⟨fun hget => ?_, fun hget => ?_⟩)
      · refine (Assoc.get?_set_of_ne _ _ fun heq => ?_).trans hget
        rw [heq, hfree] at hget
        cases hget
      · rcases Assoc.get?_set_cases hget with ⟨-, heq⟩ | ⟨-, hget⟩
        · exact (hnew reg hmem heq).elim
        · exact hget
    · refine iff_of_false (fun hturn => ?_) fun hget => hget (Assoc.get?_set_self _ name component)
      obtain ⟨n, hmem⟩ := hs.known component hturn
      exact hnew _ hmem rfl

end Register

-- ===== shutdowns

structure Settles (s s' : LifecycleCoordinator) : Prop where
  components : ∀ name component, s'.components.get? name = some component →
    s.components.get? name = some component
  fresh : ∀ name, s'.states.get? name = some .uninitialized →
    s.states.get? name = some .uninitialized
  stuck : ∀ name, s'.states.get? name = some .initializing →
    s.states.get? name = some .initializing
  startups : s'.startups = s.startups
  registered : s'.registered = s.registered
  begun : s'.begun = s.begun
  interrupted : s'.interrupted = s.interrupted
  turns : ∀ component ∈ s.turns, component ∈ s'.turns

theorem Settles.trans {t : LifecycleCoordinator} (h : Settles s s') (h' : Settles s' t) :
    Settles s t :=
  ⟨fun n c hget => h.components n c (h'.components n c hget),
    fun n hstate => h.fresh n (h'.fresh n hstate), fun n hstate => h.stuck n (h'.stuck n hstate),
    h'.startups.trans h.startups, h'.registered.trans h.registered, h'.begun.trans h.begun,
    h'.interrupted.trans h.interrupted, fun c hc => h'.turns c (h.turns c hc)⟩

theorem Settles.starting (h : Settles s s') (hs : s.Starting) : s'.Starting := by
  have hqueued : ∀ {n c}, s'.Queued n c → s.Queued n c := fun hq => by
    unfold Queued at hq ⊢
    rwa [h.startups] at hq
  refine ⟨fun n c hq => ?_, fun call n c todo hat => ?_, fun n c hdue hstate => ?_, fun c hc => ?_,
    ?_, fun c hc => ?_, fun n hstate => ?_, fun n c hget hinter => ?_⟩
  · rw [h.registered]
    exact hs.queued n c (hqueued hq)
  · rw [h.startups] at hat
    rw [h.registered]
    exact hs.current call n c todo hat
  · rw [h.begun]
    exact hs.fresh n c (hdue.imp (h.components n c) hqueued) (h.fresh n hstate)
  · rw [h.begun] at hc
    rw [h.registered]
    exact hs.known c hc
  · rw [h.begun]
    exact hs.once
  · rw [h.interrupted] at hc
    rw [h.registered]
    exact hs.interrupted c hc
  · unfold At
    rw [h.startups]
    exact hs.stuck n (h.stuck n hstate)
  · rw [h.interrupted] at hinter
    exact h.turns c (hs.gone n c (h.components n c hget) hinter)

theorem settles_mark (s : LifecycleCoordinator) (name : PyStr) {status : ComponentStatus}
    (hfresh : status ≠ .uninitialized) (hstuck : status ≠ .initializing) :
    Settles s (s.mark name status) := by
  refine ⟨fun _ _ h => h, fun n h => ?_, fun n h => ?_, rfl, rfl, rfl, rfl, fun _ h => h⟩
  · rcases mark_cases h with ⟨-, heq⟩ | ⟨-, hold⟩
    · exact (hfresh heq.symm).elim
    · exact hold
  · rcases mark_cases h with ⟨-, heq⟩ | ⟨-, hold⟩
    · exact (hstuck heq.symm).elim
    · exact hold

theorem settles_take (s : LifecycleCoordinator) (name : PyStr) (component : Component) :
    Settles s { s.mark name .shuttingDown with turns := s.turns ++ [component] } := by
  have h : Settles s (s.mark name .shuttingDown) :=
    settles_mark s name (fun h => by cases h) fun h => by cases h
  exact ⟨h.components, h.fresh, h.stuck, rfl, rfl, rfl, rfl, fun c hc => List.mem_append_left _ hc⟩

theorem settles_loop : ∀ (todo called : List PyStr) (cancelled : Bool) (s : LifecycleCoordinator),
    Settles s (shutdownLoop todo called cancelled s).1
  | [], _, _, _ =>
      ⟨fun _ _ h => (by cases h), fun _ h => (by cases h), fun _ h => (by cases h), rfl, rfl, rfl, rfl,
        fun _ h => h⟩
  | name :: todo, called, cancelled, s => by
      unfold shutdownLoop
      cases s.components.get? name with
      | none => exact ⟨fun _ _ h => h, fun _ h => h, fun _ h => h, rfl, rfl, rfl, rfl, fun _ h => h⟩
      | some component =>
          have htake := settles_take s name component
          obtain ⟨object, initializes, teardown⟩ := component
          cases teardown with
          | shutdown => exact htake
          | stop => exact htake
          | stopSync raises =>
              refine htake.trans (.trans (settles_mark _ name ?_ ?_) (settles_loop todo _ cancelled _))
              · cases raises <;> decide
              · cases raises <;> decide
          | nothing =>
              refine htake.trans (.trans (settles_mark _ name ?_ ?_) (settles_loop todo _ cancelled _))
              · decide
              · decide

theorem tabled_loop : ∀ (todo called : List PyStr) (cancelled : Bool) (s : LifecycleCoordinator),
    s.Tabled → (shutdownLoop todo called cancelled s).1.Tabled
  | [], _, _, _, h => ⟨fun _ _ hget => (by cases hget), h.apart, rfl, List.nodup_nil⟩
  | name :: todo, called, cancelled, s, h => by
      unfold shutdownLoop
      cases s.components.get? name with
      | none => exact h
      | some component =>
          have htaken : Tabled { s.mark name .shuttingDown with turns := s.turns ++ [component] } :=
            ⟨h.entered, h.apart, h.keys, h.nodup⟩
          obtain ⟨object, initializes, teardown⟩ := component
          cases teardown with
          | shutdown => exact htaken
          | stop => exact htaken
          | stopSync raises => exact tabled_loop todo _ cancelled _ ⟨h.entered, h.apart, h.keys, h.nodup⟩
          | nothing => exact tabled_loop todo _ cancelled _ ⟨h.entered, h.apart, h.keys, h.nodup⟩

/-- A shutdown with these names to come, while no other is at work. -/
structure Working (s : LifecycleCoordinator) (call : Nat) (todo called : List PyStr) : Prop where
  tabled : s.Tabled
  exists_call : ∃ phase, s.shutdowns[call]? = some phase
  known : ∀ component ∈ s.turns, ∃ name, (name, component) ∈ s.registered
  once : s.turns.Nodup
  others : ∀ (other : Nat) name todo called cancelled, other ≠ call →
    s.shutdowns[other]? ≠ some (.closing name todo called cancelled)
  remain : s.Remain todo
  order : s.names.reverse = called ++ todo
  ended : s.TornDown

theorem Working.mark {todo called : List PyStr} (h : s.Working call todo called)
    (name : PyStr) (status : ComponentStatus) : (s.mark name status).Working call todo called :=
  ⟨⟨h.tabled.entered, h.tabled.apart, h.tabled.keys, h.tabled.nodup⟩, h.exists_call, h.known, h.once,
    h.others, h.remain, h.order, h.ended⟩

theorem Working.take {name : PyStr} {todo called : List PyStr}
    (h : s.Working call (name :: todo) called) (hget : s.components.get? name = some component) :
    Working { s.mark name .shuttingDown with turns := s.turns ++ [component] } call todo
      (called ++ [name]) := by
  have hreg := h.tabled.entered name component hget
  have hnew : component ∉ s.turns := fun hmem =>
    (h.remain _ hreg).1 hmem ⟨List.mem_cons_self .., hget⟩
  have hname : name ∉ todo := by
    have hnodup := List.nodup_reverse.2 h.tabled.nodup
    rw [h.order] at hnodup
    exact (List.nodup_cons.1 (List.nodup_append.1 hnodup).2.1).1
  refine ⟨⟨h.tabled.entered, h.tabled.apart, h.tabled.keys, h.tabled.nodup⟩, h.exists_call,
    fun c hc => ?_, ?_, h.others, fun reg hmem => ?_, ?_, h.ended⟩
  · rcases List.mem_append.1 hc with hc | hc
    · exact h.known c hc
    · exact ⟨name, List.mem_singleton.1 hc ▸ hreg⟩
  · refine List.nodup_append.2 ⟨h.once, List.pairwise_singleton _ component, fun a ha b hb heq => ?_⟩
    exact hnew (List.mem_singleton.1 hb ▸ heq ▸ ha)
  · rw [List.mem_append, List.mem_singleton]
    rcases Decidable.em (reg.2 = component) with heq | hne
    · refine iff_of_true (Or.inr heq) fun hleft => hname ?_
      have hsame : reg.1 = name := h.tabled.apart component reg.1 name (heq ▸ hmem) hreg
      exact hsame ▸ hleft.1
    · refine (or_iff_left hne).trans ((h.remain reg hmem).trans (not_congr (and_congr_left ?_)))
      intro hfound
      refine List.mem_cons.trans (or_iff_right fun hsame => hne ?_)
      rw [hsame] at hfound
      exact Option.some.inj (hfound.symm.trans hget)
  · rw [List.append_assoc]
    exact h.order

theorem Working.await {todo called : List PyStr} (h : s.Working call todo called) (name : PyStr)
    (cancelled : Bool) :
    Stopping { s with
      shutdowns := s.shutdowns.set call (.closing name todo called cancelled) } := by
  obtain ⟨phase, hphase⟩ := h.exists_call
  have hcall : ∀ (other : Nat) n t c x, (s.shutdowns.set call
      (.closing name todo called cancelled))[other]? = some (.closing n t c x) →
      other = call ∧ t = todo ∧ c = called := by
    intro other n t c x hother
    rcases set_cases hother with ⟨heq, hsame⟩ | ⟨hne, hold⟩
    · cases hsame
      exact ⟨heq, rfl, rfl⟩
    · exact (h.others other n t c x hne hold).elim
  refine ⟨h.known, h.once, ?_, fun hopen => ?_, ?_, fun other ending hother => ?_⟩
  · intro a b n t c x n' t' c' x' ha hb
    exact (hcall _ _ _ _ _ ha).1.trans (hcall _ _ _ _ _ hb).1.symm
  · exact (hopen ⟨call, name, todo, called, cancelled, set_self hphase⟩).elim
  · intro other n t c x hother
    obtain ⟨-, rfl, rfl⟩ := hcall _ _ _ _ _ hother
    exact ⟨h.remain, h.order⟩
  · rcases set_cases hother with ⟨-, hsame⟩ | ⟨-, hold⟩
    · cases hsame
    · exact h.ended other ending hold

theorem Working.finish {called : List PyStr} (h : s.Working call [] called) (cancelled : Bool) :
    Stopping { s.cleared with shutdowns := s.shutdowns.set call (s.ending cancelled called) } := by
  have hall : ∀ reg ∈ s.registered, reg.2 ∈ s.turns := fun reg hmem =>
    (h.remain reg hmem).2 fun hleft => List.not_mem_nil hleft.1
  have hclosing : ∀ (other : Nat) n t c x, (s.shutdowns.set call (s.ending cancelled called))[other]?
      ≠ some (.closing n t c x) := by
    intro other n t c x hother
    rcases set_cases hother with ⟨-, hsame⟩ | ⟨hne, hold⟩
    · cases hsame
    · exact h.others other n t c x hne hold
  refine ⟨h.known, h.once, fun a b n t c x _ _ _ _ ha _ => (hclosing a n t c x ha).elim,
    fun _ reg hmem => iff_of_true (hall reg hmem) fun hget => (by cases hget),
    fun other n t c x hother => (hclosing other n t c x hother).elim, fun other ending hother => ?_⟩
  rcases set_cases hother with ⟨-, hsame⟩ | ⟨-, hold⟩
  · cases hsame
    refine ⟨fun reg hmem => ?_, by rw [h.order, List.append_nil]⟩
    exact List.count_eq_one_of_mem h.once (hall reg hmem)
  · exact h.ended other ending hold

theorem stopping_resume : ∀ {todo called : List PyStr} {s : LifecycleCoordinator}
    (cancelled : Bool), s.Working call todo called →
    (s.resumeShutdown call todo called cancelled).Stopping
  | [], called, s, cancelled, h => h.finish cancelled
  | name :: todo, called, s, cancelled, h => by
      have hname : name ∈ s.components.keys := by
        rw [h.tabled.keys, ← List.mem_reverse, h.order]
        exact List.mem_append_right _ (List.mem_cons_self ..)
      obtain ⟨component, hget⟩ := (Assoc.mem_keys_iff _ _).1 hname
      have htaken := h.take hget
      unfold resumeShutdown shutdownLoop
      rw [hget]
      obtain ⟨object, initializes, teardown⟩ := component
      cases teardown with
      | shutdown => exact htaken.await name cancelled
      | stop => exact htaken.await name cancelled
      | stopSync raises => exact stopping_resume cancelled (htaken.mark name _)
      | nothing => exact stopping_resume cancelled (htaken.mark name .shutdown)

-- ===== startups

/-- What a startup has to come: registered, and not begun where the status
says so. -/
def Ready (s : LifecycleCoordinator) (todo : List (PyStr × Component)) : Prop :=
  ∀ e ∈ todo, e ∈ s.registered ∧ (s.states.get? e.1 = some .uninitialized → e.2 ∉ s.begun)

theorem Ready.tail {e : PyStr × Component}
    (h : s.Ready (e :: todo)) : s.Ready todo := fun e he => h e (List.mem_cons_of_mem _ he)

theorem Ready.mark (h : s.Ready todo) (name : PyStr)
    {status : ComponentStatus} (hstatus : status ≠ .uninitialized) :
    (s.mark name status).Ready todo := by
  refine fun e he => ⟨(h e he).1, fun hstate => ?_⟩
  rcases mark_cases hstate with ⟨-, heq⟩ | ⟨-, hold⟩
  · exact (hstatus heq.symm).elim
  · exact (h e he).2 hold

theorem Starting.leave (hs : s.Starting) {name : PyStr}
    (hat : s.startups[call]? = some (.running name component todo))
    (hother : s.states.get? name = some .initializing → ∃ other, other ≠ call ∧ s.At other name) :
    Starting { s with startups := s.startups.set call .over } := by
  have hold : ∀ {other : Nat} {n : PyStr} {c : Component} {t : List (PyStr × Component)},
      (s.startups.set call .over)[other]? = some (.running n c t) →
      s.startups[other]? = some (.running n c t) := by
    intro other n c t h
    rcases set_cases h with ⟨-, heq⟩ | ⟨-, hold⟩
    · cases heq
    · exact hold
  have hqueued : ∀ {n c}, Queued { s with startups := s.startups.set call .over } n c →
      s.Queued n c := fun ⟨other, cur, aw, t, hrun, hmem⟩ => ⟨other, cur, aw, t, hold hrun, hmem⟩
  refine ⟨fun n c hq => hs.queued n c (hqueued hq), fun other n c t h => hs.current other n c t (hold h),
    fun n c hdue => hs.fresh n c (hdue.imp_right hqueued), hs.known, hs.once, hs.interrupted,
    fun n hstate => ?_, hs.gone⟩
  obtain ⟨other, c, t, hrun⟩ := hs.stuck n hstate
  rcases Decidable.em (other = call) with rfl | hne
  · cases hat.symm.trans hrun
    obtain ⟨third, hne, c', t', hrun'⟩ := hother hstate
    exact ⟨third, c', t', set_other hne hrun'⟩
  · exact ⟨other, c, t, set_other hne hrun⟩

theorem Starting.begin (hs : s.Starting) (ht : s.Tabled) {name : PyStr}
    (hready : s.Ready ((name, component) :: todo))
    (hstate : s.states.get? name = some .uninitialized) (hover : s.startups[call]? = some .over) :
    Starting { s.mark name .initializing with
      begun := s.begun ++ [component]
      startups := s.startups.set call (.running name component todo) } := by
  obtain ⟨hreg, hfresh⟩ := hready _ (List.mem_cons_self ..)
  have hqueued : ∀ {n c}, Queued { s.mark name .initializing with
      begun := s.begun ++ [component]
      startups := s.startups.set call (.running name component todo) } n c →
      (n, c) ∈ todo ∨ s.Queued n c := by
    rintro n c ⟨other, cur, aw, t, hrun, hmem⟩
    rcases set_cases hrun with ⟨-, heq⟩ | ⟨-, hold⟩
    · cases heq
      exact Or.inl hmem
    · exact Or.inr ⟨other, cur, aw, t, hold, hmem⟩
  refine ⟨fun n c hq => ?_, fun other n c t h => ?_, fun n c hdue hst => ?_, fun c hc => ?_, ?_,
    hs.interrupted, fun n hst => ?_, hs.gone⟩
  · exact (hqueued hq).elim (fun hmem => (hready.tail _ hmem).1) (hs.queued n c)
  · rcases set_cases h with ⟨-, heq⟩ | ⟨-, hold⟩
    · cases heq
      exact hreg
    · exact hs.current other n c t hold
  · rcases mark_cases hst with ⟨-, heq⟩ | ⟨hne, hold⟩
    · cases heq
    · have hboth : (n, c) ∈ s.registered ∧ c ∉ s.begun := by
        rcases hdue with hget | hq
        · exact ⟨ht.entered n c hget, hs.fresh n c (Or.inl hget) hold⟩
        · rcases hqueued hq with hmem | hq
          · exact ⟨(hready.tail _ hmem).1, (hready.tail _ hmem).2 hold⟩
          · exact ⟨hs.queued n c hq, hs.fresh n c (Or.inr hq) hold⟩
      rw [List.mem_append, List.mem_singleton]
      rintro (hbegun | rfl)
      · exact hboth.2 hbegun
      · exact hne (ht.apart c n name hboth.1 hreg)
  · rcases List.mem_append.1 hc with hc | hc
    · exact hs.known c hc
    · exact ⟨name, List.mem_singleton.1 hc ▸ hreg⟩
  · refine List.nodup_append.2 ⟨hs.once, List.pairwise_singleton _ component, fun a ha b hb heq => ?_⟩
    exact hfresh hstate (List.mem_singleton.1 hb ▸ heq ▸ ha)
  · rcases mark_cases hst with ⟨rfl, -⟩ | ⟨-, hold⟩
    · exact ⟨call, component, todo, set_self hover⟩
    · obtain ⟨other, c, t, hrun⟩ := hs.stuck n hold
      refine ⟨other, c, t, set_other (fun heq => ?_) hrun⟩
      rw [heq, hover] at hrun
      cases hrun

theorem starting_resume : ∀ {todo : List (PyStr × Component)} {s : LifecycleCoordinator},
    s.Starting → s.Tabled → s.Ready todo → s.startups[call]? = some .over →
    (s.resumeStartup call todo).Starting
  | [], s, hs, _, _, hover => by
      unfold resumeStartup startupLoop
      rw [set_same hover]
      exact hs
  | (name, component) :: todo, s, hs, ht, hready, hover => by
      unfold resumeStartup startupLoop
      split
      next => exact starting_resume hs ht hready.tail hover
      next hstate =>
        have hstate := Decidable.not_not.1 hstate
        split
        next => exact hs.begin ht hready hstate hover
        next =>
          have hup : Starting ((s.mark name .initializing).mark name .healthy) := by
            refine Settles.starting (s := s) ?_ hs
            refine ⟨fun _ _ h => h, fun n h => ?_, fun n h => ?_, rfl, rfl, rfl, rfl, fun _ h => h⟩
            all_goals
              rcases mark_cases h with ⟨-, heq⟩ | ⟨hne, hold⟩
              · cases heq
              · exact (mark_cases hold).elim (fun heq => (hne heq.1).elim) (·.2)
          refine starting_resume hup ⟨ht.entered, ht.apart, ht.keys, ht.nodup⟩ ?_ hover
          exact (hready.tail.mark name (by decide)).mark name (by decide)

theorem resume_over (call : Nat) : ∀ (todo : List (PyStr × Component)) (s : LifecycleCoordinator),
    resumeStartup { s with startups := s.startups.set call .over } call todo
      = s.resumeStartup call todo
  | [], s => by
      unfold resumeStartup startupLoop
      rw [List.set_set]
  | (name, component) :: todo, s => by
      unfold resumeStartup startupLoop
      split
      next => exact resume_over call todo s
      next =>
        split
        next =>
          dsimp only [mark]
          rw [List.set_set]
        next => exact resume_over call todo ((s.mark name .initializing).mark name .healthy)

theorem resumeStartup_eq (call : Nat) : ∀ (todo : List (PyStr × Component)) (s : LifecycleCoordinator),
    ∃ states begun startups,
      s.resumeStartup call todo = { s with states := states, begun := begun, startups := startups }
  | [], s => ⟨s.states, s.begun, _, rfl⟩
  | (name, component) :: todo, s => by
      unfold resumeStartup startupLoop
      split
      next => exact resumeStartup_eq call todo s
      next =>
        split
        next => exact ⟨_, _, _, rfl⟩
        next =>
          obtain ⟨states, begun, startups, h⟩ :=
            resumeStartup_eq call todo ((s.mark name .initializing).mark name .healthy)
          exact ⟨states, begun, startups, h⟩

theorem sound_resume (hs : s.Sound)
    (hready : s.Ready todo) (hover : s.startups[call]? = some .over) :
    (s.resumeStartup call todo).Sound := by
  have hstarting := starting_resume hs.starting hs.tabled hready hover
  obtain ⟨states, begun, startups, h⟩ := resumeStartup_eq call todo s
  rw [h] at hstarting ⊢
  obtain ⟨ht, -, hstop⟩ := hs
  exact ⟨⟨ht.entered, ht.apart, ht.keys, ht.nodup⟩, hstarting,
    ⟨hstop.known, hstop.once, hstop.alone, hstop.idle, hstop.busy, hstop.ended⟩⟩

-- ===== runs

theorem sound_startup (hs : s.Sound) : s.startup.Sound := by
  obtain ⟨ht, hstart, hstop⟩ := hs
  have hold : ∀ {other : Nat} {n : PyStr} {c : Component} {t : List (PyStr × Component)},
      (s.startups ++ [Startup.over])[other]? = some (.running n c t) →
      s.startups[other]? = some (.running n c t) := by
    intro other n c t h
    rcases concat_cases h with ⟨-, heq⟩ | hold
    · cases heq
    · exact hold
  have hentered : ∀ started validated, Sound { s with
      startups := s.startups ++ [.over], started := started, configValidated := validated } := by
    intro started validated
    have hqueued : ∀ {n c}, Queued { s with
        startups := s.startups ++ [.over], started := started, configValidated := validated } n c →
        s.Queued n c := fun ⟨other, cur, aw, t, hrun, hmem⟩ => ⟨other, cur, aw, t, hold hrun, hmem⟩
    refine ⟨⟨ht.entered, ht.apart, ht.keys, ht.nodup⟩, ?_,
      ⟨hstop.known, hstop.once, hstop.alone, hstop.idle, hstop.busy, hstop.ended⟩⟩
    refine ⟨fun n c hq => hstart.queued n c (hqueued hq),
      fun other n c t h => hstart.current other n c t (hold h),
      fun n c hdue => hstart.fresh n c (hdue.imp_right hqueued), hstart.known, hstart.once,
      hstart.interrupted, fun n hstate => ?_, hstart.gone⟩
    obtain ⟨other, c, t, hrun⟩ := hstart.stuck n hstate
    exact ⟨other, c, t, concat_old hrun⟩
  have hnodup : s.components.keys.Nodup := ht.keys ▸ ht.nodup
  have hready : s.Ready s.components := fun e he => by
    have hget := (Assoc.get?_eq_some_iff hnodup).2 he
    exact ⟨ht.entered e.1 e.2 hget, hstart.fresh e.1 e.2 (Or.inl hget)⟩
  have hresumed : ∀ started validated, Sound (resumeStartup { s with
      startups := s.startups ++ [.over], started := started, configValidated := validated }
      s.startups.length s.components) :=
    fun started validated => sound_resume (hentered started validated) hready concat_last
  unfold startup
  dsimp only
  split
  next =>
    split
    next => exact hresumed true s.configValidated
    next =>
      split
      next => exact hentered s.started true
      next => exact hresumed true true
  next => exact hresumed true s.configValidated

theorem sound_initialized (hs : s.Sound) {name : PyStr} {status : ComponentStatus}
    (hrun : s.startups[call]? = some (.running name component todo))
    (hfresh : status ≠ .uninitialized) (hstuck : status ≠ .initializing) :
    ((s.mark name status).resumeStartup call todo).Sound := by
  obtain ⟨ht, hstart, hstop⟩ := hs
  have hmarked := (settles_mark s name hfresh hstuck).starting hstart
  have hleft := hmarked.leave hrun fun hstate => by
    rcases mark_cases hstate with ⟨-, heq⟩ | ⟨hne, -⟩
    · exact (hstuck heq.symm).elim
    · exact (hne rfl).elim
  have hready : s.Ready todo := fun e he =>
    have hqueued : s.Queued e.1 e.2 := ⟨call, name, component, todo, hrun, he⟩
    ⟨hstart.queued _ _ hqueued, hstart.fresh _ _ (Or.inr hqueued)⟩
  have hsound : Sound { s.mark name status with startups := s.startups.set call .over } :=
    ⟨⟨ht.entered, ht.apart, ht.keys, ht.nodup⟩, hleft,
      ⟨hstop.known, hstop.once, hstop.alone, hstop.idle, hstop.busy, hstop.ended⟩⟩
  have hresumed := sound_resume hsound (hready.mark name hfresh) (set_self hrun)
  exact resume_over call todo (s.mark name status) ▸ hresumed

theorem sound_shut {todo called : List PyStr} (hs : s.Sound)
    (h : s.Working call todo called) (cancelled : Bool) :
    (s.resumeShutdown call todo called cancelled).Sound := by
  have hsettled := settles_loop todo called cancelled s
  have ht := tabled_loop todo called cancelled s hs.tabled
  have hstart := hsettled.starting hs.starting
  exact ⟨⟨ht.entered, ht.apart, ht.keys, ht.nodup⟩,
    ⟨hstart.queued, hstart.current, hstart.fresh, hstart.known, hstart.once, hstart.interrupted,
      hstart.stuck, hstart.gone⟩, stopping_resume cancelled h⟩

theorem sound_step {a : LifecycleStep} (hs : s.Sound) (hcareful : Careful a s)
    (hstep : lifecycleStep a s = some s') : s'.Sound := by
  obtain ⟨ht, hstart, hstop⟩ := hs
  cases a with
  | setConfig issues =>
      cases hstep
      exact ⟨⟨ht.entered, ht.apart, ht.keys, ht.nodup⟩,
        ⟨hstart.queued, hstart.current, hstart.fresh, hstart.known, hstart.once, hstart.interrupted,
          hstart.stuck, hstart.gone⟩,
        ⟨hstop.known, hstop.once, hstop.alone, hstop.idle, hstop.busy, hstop.ended⟩⟩
  | register name component =>
      cases hstep
      rcases hcareful with ⟨hget, hstate⟩ | ⟨hnew, hfree, hopen, hqueued⟩
      · rw [register_again ht hget hstate]
        exact ⟨ht, hstart, hstop⟩
      · exact ⟨tabled_register hnew hfree ht, starting_register hnew hfree hstart hqueued,
          stopping_register hnew hfree hstop hopen⟩
  | setStatus name status =>
      cases hstep
      unfold setStatus
      split
      next =>
        refine ⟨⟨ht.entered, ht.apart, ht.keys, ht.nodup⟩, ?_,
          ⟨hstop.known, hstop.once, hstop.alone, hstop.idle, hstop.busy, hstop.ended⟩⟩
        refine ⟨hstart.queued, hstart.current, fun n c hdue hstate => ?_, hstart.known, hstart.once,
          hstart.interrupted, fun n hstate => ?_, hstart.gone⟩
        · rcases mark_cases hstate with ⟨rfl, heq⟩ | ⟨-, hold⟩
          · exact hcareful.1 heq.symm c hdue
          · exact hstart.fresh n c hdue hold
        · rcases mark_cases hstate with ⟨rfl, heq⟩ | ⟨-, hold⟩
          · exact hcareful.2 heq.symm
          · exact hstart.stuck n hold
      next => exact ⟨ht, hstart, hstop⟩
  | startup =>
      cases hstep
      exact sound_startup ⟨ht, hstart, hstop⟩
  | initialized call outcome =>
      simp only [lifecycleStep] at hstep
      split at hstep
      next name component todo hrun =>
        cases outcome with
        | returned =>
            cases hstep
            exact sound_initialized ⟨ht, hstart, hstop⟩ hrun (by decide) (by decide)
        | raised =>
            cases hstep
            exact sound_initialized ⟨ht, hstart, hstop⟩ hrun (by decide) (by decide)
        | cancelled =>
            cases hstep
            obtain ⟨hup, hother⟩ := hcareful name component todo hrun
            have hleft := hstart.leave hrun hother
            refine ⟨⟨ht.entered, ht.apart, ht.keys, ht.nodup⟩,
              ⟨hleft.queued, hleft.current, hleft.fresh, hleft.known, hleft.once, fun c hc => ?_,
                hleft.stuck, fun n c hget hinter => ?_⟩,
              ⟨hstop.known, hstop.once, hstop.alone, hstop.idle, hstop.busy, hstop.ended⟩⟩
            · rcases List.mem_append.1 hc with hc | hc
              · exact hstart.interrupted c hc
              · exact ⟨name, List.mem_singleton.1 hc ▸ hstart.current call name component todo hrun⟩
            · rcases List.mem_append.1 hinter with hc | hc
              · exact hstart.gone n c hget hc
              · cases List.mem_singleton.1 hc
                have hname : n = name := ht.apart _ n name (ht.entered n _ hget)
                  (hstart.current call name _ todo hrun)
                exact hup (hname ▸ hget)
      next => cases hstep
  | shutdown =>
      cases hstep
      have hold : ∀ {other : Nat} {n : PyStr} {t c : List PyStr} {x : Bool},
          (s.shutdowns ++ [Shutdown.draining])[other]? = some (.closing n t c x) →
          s.shutdowns[other]? = some (.closing n t c x) := by
        intro other n t c x h
        rcases concat_cases h with ⟨-, heq⟩ | hold
        · cases heq
        · exact hold
      refine ⟨⟨ht.entered, ht.apart, ht.keys, ht.nodup⟩,
        ⟨hstart.queued, hstart.current, hstart.fresh, hstart.known, hstart.once, hstart.interrupted,
          hstart.stuck, hstart.gone⟩,
        ⟨hstop.known, hstop.once, fun i j n t c x n' t' c' x' hi hj => ?_, fun hopen => ?_,
          fun i n t c x hi => hstop.busy i n t c x (hold hi), fun i e hi => ?_⟩⟩
      · exact hstop.alone i j n t c x n' t' c' x' (hold hi) (hold hj)
      · exact hstop.idle fun ⟨i, n, t, c, x, hi⟩ => hopen ⟨i, n, t, c, x, concat_old hi⟩
      · rcases concat_cases hi with ⟨-, heq⟩ | hi
        · cases heq
        · exact hstop.ended i e hi
  | drained call cancelled =>
      simp only [lifecycleStep] at hstep
      split at hstep
      next hphase =>
        cases hstep
        refine sound_shut ⟨ht, hstart, hstop⟩ ⟨ht, ⟨_, hphase⟩, hstop.known, hstop.once,
          fun other n t c x _ h => hcareful ⟨other, n, t, c, x, h⟩, fun reg hmem => ?_, ?_, hstop.ended⟩
          cancelled
        · refine (hstop.idle hcareful reg hmem).trans (not_congr ⟨fun hget => ⟨?_, hget⟩, (·.2)⟩)
          exact List.mem_reverse.2 ((Assoc.mem_keys_iff _ _).2 ⟨reg.2, hget⟩)
        · rw [ht.keys]
          rfl
      next => cases hstep
  | tornDown call outcome =>
      simp only [lifecycleStep] at hstep
      split at hstep
      next name todo called cancelled hphase =>
        cases hstep
        have hsettled : Settles s (s.mark name outcome.status) :=
          settles_mark s name (by cases outcome <;> decide) (by cases outcome <;> decide)
        have hmarked := hsettled.starting hstart
        obtain ⟨hremain, horder⟩ := hstop.busy call name todo called cancelled hphase
        have hsound : (s.mark name outcome.status).Sound :=
          ⟨⟨ht.entered, ht.apart, ht.keys, ht.nodup⟩, hmarked,
            ⟨hstop.known, hstop.once, hstop.alone, hstop.idle, hstop.busy, hstop.ended⟩⟩
        refine sound_shut hsound ?_ _
        exact ⟨⟨ht.entered, ht.apart, ht.keys, ht.nodup⟩, ⟨_, hphase⟩, hstop.known, hstop.once,
          fun other n t c x hne h => hne (hstop.alone _ _ _ _ _ _ _ _ _ _ h hphase), hremain, horder,
          hstop.ended⟩
      next => cases hstep

end Steps

-- ===== results

variable {steps : List LifecycleStep}

/-- In a careful run every component is started once, none is left as
initialising, and when a shutdown ends all that was registered had its
one turn. -/
theorem components_torn_down {s : LifecycleCoordinator} (hrun : run lifecycleStep steps {} = some s)
    (hcareful : Meets lifecycleStep Careful steps {}) : s.StartedOnce ∧ s.Unstuck ∧ s.TornDown := by
  have hempty : Sound {} := by
    have hnone : ∀ {i : Nat} {phase : Startup}, ([] : List Startup)[i]? = some phase → False :=
      fun h => by cases h
    have hqueued : ∀ {n c}, Queued {} n c → False := fun ⟨_, _, _, _, h, _⟩ => hnone h
    refine ⟨⟨fun _ _ h => (by cases h), fun _ _ _ h => (by cases h), rfl, List.nodup_nil⟩, ?_, ?_⟩
    · exact ⟨fun _ _ h => (hqueued h).elim, fun _ _ _ _ h => (hnone h).elim,
        fun _ _ _ h => (by cases h), fun _ h => (by cases h), List.nodup_nil, fun _ h => (by cases h),
        fun _ h => (by cases h), fun _ _ h => (by cases h)⟩
    · exact ⟨fun _ h => (by cases h), List.nodup_nil, fun _ _ _ _ _ _ _ _ _ _ h => (by cases h),
        fun _ _ h => (by cases h), fun _ _ _ _ _ h => (by cases h), fun _ _ h => (by cases h)⟩
  obtain ⟨-, hstart, hstop⟩ : s.Sound := run_preserves_of
    (fun _ _ _ hC hs hstep => sound_step hs hC hstep) hcareful hempty hrun
  refine ⟨fun c => ?_, ⟨hstart.stuck, fun n c hget hc => Or.inl (hstart.gone n c hget hc)⟩, hstop.ended⟩
  exact (List.nodup_iff_count_le_one.1 hstart.once c).trans (Nat.le_add_left 1 _)

/-- A condition that can be decided: nothing is registered twice or while a
call is at work, no initialisation is cancelled. -/
def Orderly : LifecycleStep → LifecycleCoordinator → Prop
  | .register name component, s =>
      (∀ reg ∈ s.registered, reg.2 ≠ component) ∧ s.components.get? name = none ∧
      (∀ phase ∈ s.startups, phase = .over) ∧ ∀ phase ∈ s.shutdowns, phase = .draining
  | .setStatus _ status, _ => status ≠ .uninitialized ∧ status ≠ .initializing
  | .initialized _ outcome, _ => outcome ≠ .cancelled
  | .drained _ _, s => ∀ phase ∈ s.shutdowns, phase = .draining
  | _, _ => True

instance (a : LifecycleStep) (s : LifecycleCoordinator) : Decidable (Orderly a s) := by
  cases a <;> unfold Orderly <;> infer_instance

theorem careful_of_orderly {a : LifecycleStep} {s : LifecycleCoordinator} (h : Orderly a s) :
    Careful a s := by
  have hopen : (∀ phase ∈ s.shutdowns, phase = .draining) → ¬ s.Closing := by
    rintro hall ⟨call, name, todo, called, cancelled, hphase⟩
    cases hall _ (List.mem_of_getElem? hphase)
  cases a with
  | register name component =>
      obtain ⟨hnew, hfree, hstartups, hshutdowns⟩ := h
      refine Or.inr ⟨hnew, hfree, hopen hshutdowns, ?_⟩
      rintro old ⟨call, current, awaited, todo, hphase, -⟩
      cases hstartups _ (List.mem_of_getElem? hphase)
  | setStatus name status => exact ⟨fun heq => (h.1 heq).elim, fun heq => (h.2 heq).elim⟩
  | initialized call outcome =>
      cases outcome with
      | returned => trivial
      | raised => trivial
      | cancelled => exact (h rfl).elim
  | drained call cancelled => exact hopen h
  | setConfig _ => trivial
  | startup => trivial
  | shutdown => trivial
  | tornDown _ _ => trivial

def bus : Component := { object := 0 }

def models : Component := { object := 1, teardown := .stop }

def orderlySession : List LifecycleStep :=
  [.register "bus".toList bus, .startup, .initialized 0 .returned, .register "models".toList models,
    .startup, .initialized 1 .raised, .shutdown, .drained 0 false, .tornDown 0 .timedOut,
    .tornDown 0 .returned]

theorem orderly_torn_down : ∃ s, run lifecycleStep orderlySession {} = some s ∧ s.StartedOnce ∧
    s.Unstuck ∧ s.TornDown := by
  have hmeets : Meets lifecycleStep Orderly orderlySession {} := by decide
  exact ⟨_, rfl, components_torn_down rfl (hmeets.mono fun _ _ => careful_of_orderly)⟩

/-- A startup is cancelled in an initialisation, and another follows. -/
def cancelledStart : List LifecycleStep :=
  [.register "bus".toList bus, .startup, .initialized 0 .cancelled, .startup]

def afterCancelled : LifecycleCoordinator := (run lifecycleStep cancelledStart {}).getD {}

/-- A component is registered while a shutdown waits for another. -/
def lateRegistration : List LifecycleStep :=
  [.register "bus".toList bus, .shutdown, .drained 0 false, .register "models".toList models,
    .tornDown 0 .returned]

def afterLate : LifecycleCoordinator := (run lifecycleStep lateRegistration {}).getD {}

/-- The cancelled component stays as initialising, with no startup at work;
the late one has no turn. -/
theorem components_missed :
    (run lifecycleStep cancelledStart {} = some afterCancelled ∧ ¬ afterCancelled.Unstuck) ∧
    run lifecycleStep lateRegistration {} = some afterLate ∧ ¬ afterLate.TornDown := by
  refine ⟨⟨rfl, fun h => ?_⟩, rfl, fun h => ?_⟩
  · obtain ⟨call, component, todo, hat⟩ := h.1 "bus".toList rfl
    have hover : ∀ phase ∈ afterCancelled.startups, phase = .over := by decide
    cases hover _ (List.mem_of_getElem? hat)
  · have hturns := (h 0 _ rfl).1 ("models".toList, models) (by decide)
    revert hturns
    decide

end LifecycleCoordinator

end Velune.Kernel
