/-
Programs that run interleaved over a shared state.

A program (`Prog`) is done, has raised, or performs an operation and goes
on from the answer. A `Machine` runs many of them: threads begin calls,
take one operation at a time in any order, processes crash and lose their
threads, and the surroundings change the state on their own.

What one thread does is argued for alone (`Outline`): an assertion for
every point of the program, each of which outlives the steps of others
(`rely`), and each operation of which is one that others can live with
(`guar`). `Outline` has a rule for each way a program is built. The two
results are `carried`, for one thread of any run, and `Discipline.kept`,
for all threads of a run whose threads rely on no more than the others
guarantee.
-/
import Velune.Lib.Runs

namespace Lib

-- ===== programs

/-- A program over the operations `Op`, with the answers `Ans`. -/
inductive Prog (Op : Type) (Ans : Op → Type) (ε α : Type) : Type
  | ret (a : α)
  | raise (e : ε)
  | call (op : Op) (rest : Ans op → Prog Op Ans ε α)

namespace Prog

variable {Op : Type} {Ans : Op → Type} {ε δ α β : Type}

def bind : Prog Op Ans ε α → (α → Prog Op Ans ε β) → Prog Op Ans ε β
  | ret a, f => f a
  | raise e, _ => raise e
  | call op rest, f => call op fun answer => (rest answer).bind f

/-- `try`, with a handler that may raise something else. -/
def rescue : Prog Op Ans ε α → (ε → Prog Op Ans δ α) → Prog Op Ans δ α
  | ret a, _ => ret a
  | raise e, h => h e
  | call op rest, h => call op fun answer => (rest answer).rescue h

instance : Monad (Prog Op Ans ε) where
  pure := ret
  bind := bind

instance : MonadExcept ε (Prog Op Ans ε) where
  throw := raise
  tryCatch := rescue

def perform (op : Op) : Prog Op Ans ε (Ans op) := call op ret

def isOver : Prog Op Ans ε α → Bool
  | call _ _ => false
  | _ => true

def hasRaised : Prog Op Ans ε α → Bool
  | raise _ => true
  | _ => false

def returned? : Prog Op Ans ε α → Option α
  | ret a => some a
  | _ => none

/-- The program performs only operations of `A`. -/
def Uses (A : Op → Prop) : Prog Op Ans ε α → Prop
  | ret _ => True
  | raise _ => True
  | call op rest => A op ∧ ∀ answer, (rest answer).Uses A

/-- Whatever it is answered, the program returns only what meets `φ` and
raises only what meets `ψ`. -/
def Ends (φ : α → Prop) (ψ : ε → Prop) : Prog Op Ans ε α → Prop
  | ret a => φ a
  | raise e => ψ e
  | call _ rest => ∀ answer, (rest answer).Ends φ ψ

variable {p : Prog Op Ans ε α}

section Uses

variable {A B : Op → Prop}

theorem uses_pure (a : α) : (Pure.pure a : Prog Op Ans ε α).Uses A := trivial

theorem uses_throw (e : ε) : (MonadExcept.throw e : Prog Op Ans ε α).Uses A := trivial

theorem uses_perform {op : Op} (h : A op) : (perform op : Prog Op Ans ε (Ans op)).Uses A :=
  ⟨h, fun _ => trivial⟩

theorem uses_bind {f : α → Prog Op Ans ε β} (hp : p.Uses A)
    (hf : ∀ a, (f a).Uses A) : (p >>= f).Uses A := by
  change (p.bind f).Uses A
  induction p with
  | ret a => exact hf a
  | raise e => exact trivial
  | call op rest ih => exact ⟨hp.1, fun answer => ih answer (hp.2 answer)⟩

theorem uses_rescue {h : ε → Prog Op Ans δ α} (hp : p.Uses A)
    (hh : ∀ e, (h e).Uses A) : (p.rescue h).Uses A := by
  induction p with
  | ret a => exact trivial
  | raise e => exact hh e
  | call op rest ih => exact ⟨hp.1, fun answer => ih answer (hp.2 answer)⟩

theorem uses_ite {c : Prop} [Decidable c] {p q : Prog Op Ans ε α} (hp : p.Uses A)
    (hq : q.Uses A) : (if c then p else q).Uses A := by
  split
  · exact hp
  · exact hq

theorem Uses.mono (h : p.Uses A) (hAB : ∀ op, A op → B op) : p.Uses B := by
  induction p with
  | ret a => exact trivial
  | raise e => exact trivial
  | call op rest ih => exact ⟨hAB op h.1, fun answer => ih answer (h.2 answer)⟩

end Uses

section Ends

variable {φ φ' : α → Prop} {ψ : β → Prop} {η η' : ε → Prop}

theorem ends_perform (op : Op) :
    (perform op : Prog Op Ans ε (Ans op)).Ends (fun _ => True) η := fun _ => trivial

theorem ends_bind {f : α → Prog Op Ans ε β} (hp : p.Ends φ η)
    (hf : ∀ a, φ a → (f a).Ends ψ η) : (p >>= f).Ends ψ η := by
  change (p.bind f).Ends ψ η
  induction p with
  | ret a => exact hf a hp
  | raise e => exact hp
  | call op rest ih => exact fun answer => ih answer (hp answer)

theorem Ends.mono (h : p.Ends φ η) (hφ : ∀ a, φ a → φ' a)
    (hη : ∀ e, η e → η' e) : p.Ends φ' η' := by
  induction p with
  | ret a => exact hφ a h
  | raise e => exact hη e h
  | call op rest ih => exact fun answer => ih answer (h answer)

theorem ends_any (p : Prog Op Ans ε α) : p.Ends (fun _ => True) fun _ => True := by
  induction p with
  | ret a => exact trivial
  | raise e => exact trivial
  | call op rest ih => exact fun answer => ih answer

theorem ends_ite {c : Prop} [Decidable c] {p q : Prog Op Ans ε α} (hp : p.Ends φ η)
    (hq : q.Ends φ η) : (if c then p else q).Ends φ η := by
  split
  · exact hp
  · exact hq

end Ends

end Prog

-- ===== outlines

/-- One thread's place among the others: the operations it may be asked
to perform, what the others do in between and what it may do itself. -/
structure Setting (Op χ σ : Type) where
  ok : Op → χ → σ → Prop
  rely : σ → σ → Prop
  guar : σ → σ → Prop

def Setting.Stable {Op χ σ : Type} (S : Setting Op χ σ) (P : σ → Prop) : Prop :=
  ∀ s s', S.rely s s' → P s → P s'

section Outline

variable {Op : Type} {Ans : Op → Type} {ε δ α β χ σ : Type}
variable (exec : (op : Op) → χ → σ → Option (Ans op × σ))

/-- From a state in `P` the program may be run among the others: what it
returns meets `Q` and what it raises `E`, then and ever after. -/
inductive Outline (S : Setting Op χ σ) (Q : α → σ → Prop) (E : ε → σ → Prop) :
    (σ → Prop) → Prog Op Ans ε α → Prop
  | ret {P : σ → Prop} {a : α} (stable : S.Stable P) (post : ∀ s, P s → Q a s) :
      Outline S Q E P (.ret a)
  | raise {P : σ → Prop} {e : ε} (stable : S.Stable P) (post : ∀ s, P s → E e s) :
      Outline S Q E P (.raise e)
  | call {P : σ → Prop} {op : Op} {rest : Ans op → Prog Op Ans ε α} (next : Ans op → σ → Prop)
      (stable : S.Stable P)
      (step : ∀ s c a s', P s → S.ok op c s → exec op c s = some (a, s') → S.guar s s' ∧ next a s')
      (after : ∀ a, Outline S Q E (next a) (rest a)) : Outline S Q E P (.call op rest)

variable {exec}

namespace Outline

variable {S : Setting Op χ σ} {P P' I : σ → Prop} {Q Q' : α → σ → Prop} {R : β → σ → Prop}
variable {E E' : ε → σ → Prop} {p : Prog Op Ans ε α}

theorem stable (h : Outline exec S Q E P p) : S.Stable P := by
  cases h with
  | ret hs _ => exact hs
  | raise hs _ => exact hs
  | call _ hs _ _ => exact hs

theorem pre (h : Outline exec S Q E P p) (hs : S.Stable P') (hP : ∀ s, P' s → P s) :
    Outline exec S Q E P' p := by
  cases h with
  | ret _ hq => exact .ret hs fun s hp => hq s (hP s hp)
  | raise _ he => exact .raise hs fun s hp => he s (hP s hp)
  | call next _ hstep hafter =>
      exact .call next hs (fun s c a s' hp => hstep s c a s' (hP s hp)) hafter

theorem post (h : Outline exec S Q E P p) (hQ : ∀ a s, Q a s → Q' a s)
    (hE : ∀ e s, E e s → E' e s) : Outline exec S Q' E' P p := by
  induction h with
  | ret hs hq => exact .ret hs fun s hp => hQ _ s (hq s hp)
  | raise hs he => exact .raise hs fun s hp => hE _ s (he s hp)
  | call next hs hstep _ ih => exact .call next hs hstep ih

protected theorem pure {a : α} (hs : S.Stable P) (h : ∀ s, P s → Q a s) :
    Outline exec S Q E P (Pure.pure a : Prog Op Ans ε α) := .ret hs h

protected theorem throw {e : ε} (hs : S.Stable P) (h : ∀ s, P s → E e s) :
    Outline exec S Q E P (MonadExcept.throw e : Prog Op Ans ε α) := .raise hs h

theorem perform (op : Op) {Q : Ans op → σ → Prop} (hs : S.Stable P) (hQ : ∀ a, S.Stable (Q a))
    (h : ∀ s c a s', P s → S.ok op c s → exec op c s = some (a, s') → S.guar s s' ∧ Q a s') :
    Outline exec S Q E P (Prog.perform op : Prog Op Ans ε (Ans op)) :=
  .call Q hs h fun a => .ret (hQ a) fun _ hq => hq

protected theorem bind {f : α → Prog Op Ans ε β} (hp : Outline exec S Q E P p)
    (hf : ∀ a, Outline exec S R E (Q a) (f a)) : Outline exec S R E P (p >>= f) := by
  change Outline exec S R E P (p.bind f)
  induction hp with
  | ret hs hq => exact (hf _).pre hs hq
  | raise hs he => exact .raise hs he
  | call next hs hstep _ ih => exact .call next hs hstep ih

theorem rescue {D : δ → σ → Prop} {h : ε → Prog Op Ans δ α} (hp : Outline exec S Q E P p)
    (hh : ∀ e, Outline exec S Q D (E e) (h e)) : Outline exec S Q D P (p.rescue h) := by
  induction hp with
  | ret hs hq => exact .ret hs hq
  | raise hs he => exact (hh _).pre hs he
  | call next hs hstep _ ih => exact .call next hs hstep ih

protected theorem ite {c : Prop} [Decidable c] {q : Prog Op Ans ε α}
    (hp : c → Outline exec S Q E P p) (hq : ¬ c → Outline exec S Q E P q) :
    Outline exec S Q E P (if c then p else q) := by
  split
  next hc => exact hp hc
  next hc => exact hq hc

theorem call_inv {op : Op} {rest : Ans op → Prog Op Ans ε α}
    (h : Outline exec S Q E P (.call op rest)) :
    ∃ next : Ans op → σ → Prop,
      (∀ s c a s', P s → S.ok op c s → exec op c s = some (a, s') → S.guar s s' ∧ next a s')
        ∧ ∀ a, Outline exec S Q E (next a) (rest a) := by
  cases h with
  | call next _ hstep hafter => exact ⟨next, hstep, hafter⟩

theorem never (p : Prog Op Ans ε α) : Outline exec S Q E (fun _ => False) p := by
  induction p with
  | ret a => exact .ret (fun _ _ _ h => h) fun _ h => h.elim
  | raise e => exact .raise (fun _ _ _ h => h) fun _ h => h.elim
  | call op rest ih =>
      exact .call (fun _ _ => False) (fun _ _ _ h => h) (fun _ _ _ _ h => h.elim) ih

theorem of_fact {b : Prop} (h : b → Outline exec S Q E P p) :
    Outline exec S Q E (fun s => P s ∧ b) p := by
  by_cases hb : b
  · refine (h hb).pre (fun s s' hr hp => ⟨(h hb).stable s s' hr hp.1, hb⟩) fun _ hp => hp.1
  · exact (never p).pre (fun _ _ _ hp => (hb hp.2).elim) fun _ hp => hb hp.2

theorem of_pure {b : Prop} (h : b → Outline exec S Q E (fun _ => True) p) :
    Outline exec S Q E (fun _ => b) p :=
  (of_fact h).pre (fun _ _ _ hb => hb) fun _ hb => ⟨trivial, hb⟩

/-- A program of operations that keep `P` keeps `P`. -/
theorem of_uses {A : Op → Prop} (h : p.Uses A) (hs : S.Stable P)
    (hA : ∀ op, A op → ∀ s c a s', P s → S.ok op c s → exec op c s = some (a, s') →
      S.guar s s' ∧ P s') : Outline exec S (fun _ => P) (fun _ => P) P p := by
  induction p with
  | ret a => exact .ret hs fun _ hp => hp
  | raise e => exact .raise hs fun _ hp => hp
  | call op rest ih => exact .call (fun _ => P) hs (hA op h.1) fun a => ih a (h.2 a)

theorem of_exists {ι : Type} {P : ι → σ → Prop} (h : ∀ x, Outline exec S Q E (P x) p) :
    Outline exec S Q E (fun s => ∃ x, P x s) p := by
  have hstable : S.Stable fun s => ∃ x, P x s :=
    fun s s' hr ⟨x, hp⟩ => ⟨x, (h x).stable s s' hr hp⟩
  induction p generalizing P with
  | ret a =>
      refine .ret hstable fun s ⟨x, hp⟩ => ?_
      cases h x with
      | ret _ hq => exact hq s hp
  | raise e =>
      refine .raise hstable fun s ⟨x, hp⟩ => ?_
      cases h x with
      | raise _ he => exact he s hp
  | call op rest ih =>
      refine .call (fun a s => ∃ x, (call_inv (h x)).choose a s) hstable ?_ fun a => ?_
      · rintro s c a s' ⟨x, hp⟩ hc hx
        obtain ⟨hg, hn⟩ := (call_inv (h x)).choose_spec.1 s c a s' hp hc hx
        exact ⟨hg, x, hn⟩
      · have hafter := fun x => (call_inv (h x)).choose_spec.2 a
        exact ih a hafter fun s s' hr ⟨x, hn⟩ => ⟨x, (hafter x).stable s s' hr hn⟩

theorem frame (h : Outline exec S Q E P p) (hI : S.Stable I)
    (hkeep : ∀ s s', S.guar s s' → I s → I s') :
    Outline exec S (fun a s => Q a s ∧ I s) (fun e s => E e s ∧ I s) (fun s => P s ∧ I s) p := by
  have hand : ∀ {P : σ → Prop}, S.Stable P → S.Stable fun s => P s ∧ I s :=
    fun hs s s' hr hp => ⟨hs s s' hr hp.1, hI s s' hr hp.2⟩
  induction h with
  | ret hs hq => exact .ret (hand hs) fun s hp => ⟨hq s hp.1, hp.2⟩
  | raise hs he => exact .raise (hand hs) fun s hp => ⟨he s hp.1, hp.2⟩
  | call next hs hstep _ ih =>
      refine .call (fun a s => next a s ∧ I s) (hand hs) (fun s c a s' hp hc hx => ?_) ih
      obtain ⟨hg, hn⟩ := hstep s c a s' hp.1 hc hx
      exact ⟨hg, hn, hkeep s s' hg hp.2⟩

end Outline

end Outline

-- ===== machines

/-- A thread: which of all threads begun, and of which process. -/
structure Who (ι : Type) where
  thread : Nat
  process : ι
  deriving DecidableEq

/-- What runs: the programs of the calls a process may make, what their
operations do, what a crash of a process does to the shared state, and
what happens without the programs. -/
structure Machine (Op : Type) (Ans : Op → Type) (ε ρ χ σ ι Call Env : Type) where
  program : Call → Prog Op Ans ε ρ
  exec : Who ι → (op : Op) → χ → σ → Option (Ans op × σ)
  crash : ι → σ → σ
  env : Env → σ → Option σ

/-- A call that was begun and where it is; a killed one is nowhere. -/
structure Thread (Op : Type) (Ans : Op → Type) (ε ρ ι Call : Type) where
  owner : ι
  request : Call
  code : Option (Prog Op Ans ε ρ)

/-- What a crash of process `i` leaves of a thread. -/
def Thread.crashed {Op : Type} {Ans : Op → Type} {ε ρ ι Call : Type} [DecidableEq ι] (i : ι)
    (t : Thread Op Ans ε ρ ι Call) : Thread Op Ans ε ρ ι Call :=
  if t.owner = i then { t with code := none } else t

structure World (Op : Type) (Ans : Op → Type) (ε ρ σ ι Call : Type) where
  shared : σ
  threads : List (Thread Op Ans ε ρ ι Call)

inductive Event (χ ι Call Env : Type)
  | begin (process : ι) (request : Call)
  | step (thread : Nat) (choice : χ)
  | crash (process : ι)
  | env (e : Env)

namespace Machine

variable {Op : Type} {Ans : Op → Type} {ε ρ χ σ ι Call Env : Type} [DecidableEq ι]
variable (m : Machine Op Ans ε ρ χ σ ι Call Env)

def advance (n : Nat) (c : χ) (t : Thread Op Ans ε ρ ι Call) (s : σ) :
    Option (Thread Op Ans ε ρ ι Call × σ) :=
  match t.code with
  | some (.call op rest) =>
      (m.exec ⟨n, t.owner⟩ op c s).map fun r => (⟨t.owner, t.request, some (rest r.1)⟩, r.2)
  | _ => none

def step : Event χ ι Call Env → World Op Ans ε ρ σ ι Call → Option (World Op Ans ε ρ σ ι Call)
  | .begin i request, w =>
      some { w with threads := w.threads ++ [⟨i, request, some (m.program request)⟩] }
  | .step n c, w => do
      let t ← w.threads[n]?
      let r ← m.advance n c t w.shared
      some ⟨r.2, w.threads.set n r.1⟩
  | .crash i, w =>
      some ⟨m.crash i w.shared, w.threads.map (Thread.crashed i)⟩
  | .env e, w => (m.env e w.shared).map fun s => { w with shared := s }

/-- A run's operations are asked for as `okOp` says and its surroundings
behave as `okEnv` says. -/
def Fine (okOp : Who ι → Call → Op → χ → σ → Prop) (okEnv : Env → σ → Prop) :
    Event χ ι Call Env → World Op Ans ε ρ σ ι Call → Prop
  | .step n c, w =>
      match w.threads[n]? with
      | some ⟨i, request, some (.call op _)⟩ => okOp ⟨n, i⟩ request op c w.shared
      | _ => True
  | .env e, w => okEnv e w.shared
  | _, _ => True

/-- Whenever thread `n` takes a step, `P` holds. -/
def OnStep (n : Nat) (P : World Op Ans ε ρ σ ι Call → Prop) :
    Event χ ι Call Env → World Op Ans ε ρ σ ι Call → Prop
  | .step k _, w => k = n → P w
  | _, _ => True

instance {okOp : Who ι → Call → Op → χ → σ → Prop} {okEnv : Env → σ → Prop}
    [∀ who request op c s, Decidable (okOp who request op c s)] [∀ e s, Decidable (okEnv e s)]
    (e : Event χ ι Call Env) (w : World Op Ans ε ρ σ ι Call) : Decidable (Fine okOp okEnv e w) :=
  match e with
  | .step n c =>
      match h : w.threads[n]? with
      | some ⟨i, request, some (.call op rest)⟩ =>
          decidable_of_iff (okOp ⟨n, i⟩ request op c w.shared) (by simp only [Fine, h])
      | some ⟨_, _, some (.ret _)⟩ => isTrue (by simp only [Fine, h])
      | some ⟨_, _, some (.raise _)⟩ => isTrue (by simp only [Fine, h])
      | some ⟨_, _, none⟩ => isTrue (by simp only [Fine, h])
      | none => isTrue (by simp only [Fine, h])
  | .env x => inferInstanceAs (Decidable (okEnv x w.shared))
  | .begin _ _ => isTrue trivial
  | .crash _ => isTrue trivial

instance {n : Nat} {P : World Op Ans ε ρ σ ι Call → Prop} [DecidablePred P]
    (e : Event χ ι Call Env) (w : World Op Ans ε ρ σ ι Call) : Decidable (OnStep n P e w) :=
  match e with
  | .step k _ => inferInstanceAs (Decidable (k = n → P w))
  | .env _ => isTrue trivial
  | .begin _ _ => isTrue trivial
  | .crash _ => isTrue trivial

omit [DecidableEq ι] in
variable {t : Thread Op Ans ε ρ ι Call} {w w' : World Op Ans ε ρ σ ι Call}

theorem Fine.at {okOp : Who ι → Call → Op → χ → σ → Prop} {okEnv : Env → σ → Prop} {n : Nat}
    {c : χ} {w : World Op Ans ε ρ σ ι Call} (h : Fine okOp okEnv (.step n c) w) {op : Op}
    {rest : Ans op → Prog Op Ans ε ρ}
    (ht : w.threads[n]? = some t) (hcode : t.code = some (.call op rest)) :
    okOp ⟨n, t.owner⟩ t.request op c w.shared := by
  obtain ⟨i, request, code⟩ := t
  cases hcode
  simp only [Fine, ht] at h
  exact h

variable {m}

theorem step_eq {n : Nat} {c : χ} (h : m.step (.step n c) w = some w') :
    ∃ t op rest a s, w.threads[n]? = some t ∧ t.code = some (.call op rest)
      ∧ m.exec ⟨n, t.owner⟩ op c w.shared = some (a, s)
      ∧ w' = ⟨s, w.threads.set n ⟨t.owner, t.request, some (rest a)⟩⟩ := by
  simp only [step] at h
  cases ht : w.threads[n]? with
  | none =>
      rw [ht] at h
      cases h
  | some t =>
      obtain ⟨owner, request, code⟩ := t
      rw [ht] at h
      cases code with
      | none => cases h
      | some p =>
          cases p with
          | ret a => cases h
          | raise e => cases h
          | call op rest =>
              cases hx : m.exec ⟨n, owner⟩ op c w.shared with
              | none =>
                  simp [advance, hx] at h
              | some r =>
                  obtain ⟨a, s⟩ := r
                  simp only [advance, hx, Option.map_some, Option.bind_eq_bind, Option.bind_some,
                    Option.some.injEq] at h
                  exact ⟨_, op, rest, a, s, rfl, rfl, hx, h.symm⟩

theorem step_length {e : Event χ ι Call Env}
    (h : m.step e w = some w') : w.threads.length ≤ w'.threads.length := by
  cases e with
  | begin i request =>
      cases h
      exact List.length_append ▸ Nat.le_add_right _ _
  | step n c =>
      obtain ⟨t, op, rest, a, s, -, -, -, rfl⟩ := step_eq h
      exact Nat.le_of_eq (List.length_set).symm
  | crash i =>
      cases h
      exact Nat.le_of_eq (List.length_map _).symm
  | env x =>
      obtain ⟨s, -, rfl⟩ := Option.map_eq_some_iff.1 h
      exact Nat.le_refl _

theorem step_begun {e : Event χ ι Call Env} {n : Nat}
    {t' : Thread Op Ans ε ρ ι Call} (h : m.step e w = some w') (hn : w.threads.length ≤ n)
    (ht' : w'.threads[n]? = some t') :
    ∃ i request, e = .begin i request ∧ n = w.threads.length
      ∧ t' = ⟨i, request, some (m.program request)⟩ ∧ w'.shared = w.shared := by
  have hlt := (List.getElem?_eq_some_iff.1 ht').1
  cases e with
  | begin i request =>
      cases h
      rw [List.length_append, List.length_singleton] at hlt
      have hlen : n = w.threads.length := by omega
      subst hlen
      rw [List.getElem?_append_right (Nat.le_refl _), Nat.sub_self] at ht'
      cases ht'
      exact ⟨i, request, rfl, rfl, rfl, rfl⟩
  | step k c =>
      obtain ⟨t, op, rest, a, s, -, -, -, rfl⟩ := step_eq h
      rw [List.length_set] at hlt
      omega
  | crash i =>
      cases h
      rw [List.length_map] at hlt
      omega
  | env x =>
      obtain ⟨s, -, rfl⟩ := Option.map_eq_some_iff.1 h
      exact absurd hlt (Nat.not_lt_of_le hn)

theorem step_thread {e : Event χ ι Call Env} {n : Nat} (h : m.step e w = some w')
    (ht : w.threads[n]? = some t) :
    ∃ t', w'.threads[n]? = some t' ∧ t'.owner = t.owner ∧ t'.request = t.request := by
  cases e with
  | begin i request =>
      cases h
      refine ⟨t, ?_, rfl, rfl⟩
      rw [List.getElem?_append_left (List.getElem?_eq_some_iff.1 ht).1]
      exact ht
  | step k c =>
      obtain ⟨t', op, rest, a, s, ht', -, -, rfl⟩ := step_eq h
      by_cases hk : k = n
      · subst hk
        rw [ht] at ht'
        cases ht'
        refine ⟨⟨t.owner, t.request, some (rest a)⟩, ?_, rfl, rfl⟩
        exact List.getElem?_set_self (List.getElem?_eq_some_iff.1 ht).1
      · exact ⟨t, (List.getElem?_set_ne hk).trans ht, rfl, rfl⟩
  | crash i =>
      cases h
      refine ⟨t.crashed i, ?_, ?_, ?_⟩
      · rw [List.getElem?_map, ht]
        rfl
      · unfold Thread.crashed
        split <;> rfl
      · unfold Thread.crashed
        split <;> rfl
  | env e =>
      simp only [step, Option.map_eq_some_iff] at h
      obtain ⟨s, -, rfl⟩ := h
      exact ⟨t, ht, rfl, rfl⟩

theorem run_thread {es : List (Event χ ι Call Env)} {n : Nat} (h : run m.step es w = some w')
    (ht : w.threads[n]? = some t) :
    ∃ t', w'.threads[n]? = some t' ∧ t'.owner = t.owner ∧ t'.request = t.request := by
  refine run_preserves (P := fun v : World Op Ans ε ρ σ ι Call =>
    ∃ t', v.threads[n]? = some t' ∧ t'.owner = t.owner ∧ t'.request = t.request) ?_
    ⟨t, ht, rfl, rfl⟩ h
  rintro e v v' ⟨u, hu, howner, hrequest⟩ hstep
  obtain ⟨u', hu', howner', hrequest'⟩ := step_thread hstep hu
  exact ⟨u', hu', howner'.trans howner, hrequest'.trans hrequest⟩

/-- Every thread performs only operations of `A` from here on. -/
def AllUse (A : Op → Prop) (w : World Op Ans ε ρ σ ι Call) : Prop :=
  ∀ (n : Nat) (t : Thread Op Ans ε ρ ι Call) (p : Prog Op Ans ε ρ),
    w.threads[n]? = some t → t.code = some p → p.Uses A

theorem step_uses {A : Op → Prop} (hprogram : ∀ request, (m.program request).Uses A)
    (e : Event χ ι Call Env) (w w' : World Op Ans ε ρ σ ι Call) (h : AllUse A w)
    (hstep : m.step e w = some w') : AllUse A w' := by
  intro n t' p ht' hp
  by_cases hn : n < w.threads.length
  · have ht := List.getElem?_eq_getElem hn
    cases e with
    | begin i request =>
        cases hstep
        rw [List.getElem?_append_left hn] at ht'
        exact h n t' p ht' hp
    | step k c =>
        obtain ⟨t, op, rest, a, s, hk, hcode, -, rfl⟩ := step_eq hstep
        by_cases hkn : k = n
        · subst hkn
          rw [List.getElem?_set_self hn] at ht'
          cases ht'
          cases hp
          exact (h k t _ hk hcode).2 a
        · rw [List.getElem?_set_ne hkn] at ht'
          exact h n t' p ht' hp
    | crash i =>
        cases hstep
        rw [List.getElem?_map, ht] at ht'
        cases ht'
        unfold Thread.crashed at hp
        split at hp
        · cases hp
        · exact h n _ p ht hp
    | env x =>
        obtain ⟨s, -, rfl⟩ := Option.map_eq_some_iff.1 hstep
        exact h n t' p ht' hp
  · obtain ⟨i, request, -, rfl, rfl, -⟩ := step_begun hstep (Nat.le_of_not_lt hn) ht'
    cases hp
    exact hprogram request

/-- A thread whose operations can always be performed is never stuck. -/
theorem goes_on {A : Op → Prop} {w : World Op Ans ε ρ σ ι Call} (h : AllUse A w)
    (henabled : ∀ who op s, A op → ∃ c a s', m.exec who op c s = some (a, s')) {n : Nat}
    {p : Prog Op Ans ε ρ} (ht : w.threads[n]? = some t)
    (hp : t.code = some p) (hover : p.isOver = false) : ∃ c w', m.step (.step n c) w = some w' := by
  cases p with
  | ret a => cases hover
  | raise e => cases hover
  | call op rest =>
      obtain ⟨c, a, s', hx⟩ := henabled ⟨n, t.owner⟩ op w.shared (h n t _ ht hp).1
      refine ⟨c, ⟨s', w.threads.set n ⟨t.owner, t.request, some (rest a)⟩⟩, ?_⟩
      simp [step, ht, advance, hp, hx]

-- ===== one thread

/-- Thread `n` is where its outline puts it, if it was not killed. -/
def Follows (m : Machine Op Ans ε ρ χ σ ι Call Env) (S : Setting Op χ σ) (Q : ρ → σ → Prop)
    (E : ε → σ → Prop) (n : Nat) (t : Thread Op Ans ε ρ ι Call) (s : σ) : Prop :=
  ∀ p, t.code = some p → ∃ P, Outline (m.exec ⟨n, t.owner⟩) S Q E P p ∧ P s

section Follows

variable {S : Setting Op χ σ} {Q : ρ → σ → Prop} {E : ε → σ → Prop} {n : Nat}
variable {e : Event χ ι Call Env} {w w' : World Op Ans ε ρ σ ι Call}
variable {t t' : Thread Op Ans ε ρ ι Call}

omit [DecidableEq ι] in
theorem Follows.returned (h : Follows m S Q E n t w.shared) {r : ρ} (ht : t.code = some (.ret r)) :
    Q r w.shared := by
  obtain ⟨P, ho, hp⟩ := h _ ht
  cases ho with
  | ret _ hq => exact hq _ hp

omit [DecidableEq ι] in
theorem Follows.raised (h : Follows m S Q E n t w.shared) {x : ε} (ht : t.code = some (.raise x)) :
    E x w.shared := by
  obtain ⟨P, ho, hp⟩ := h _ ht
  cases ho with
  | raise _ he => exact he _ hp

theorem Follows.own {c : χ} (h : ∀ t, w.threads[n]? = some t → Follows m S Q E n t w.shared)
    (hok : ∀ t op rest, w.threads[n]? = some t → t.code = some (.call op rest) → S.ok op c w.shared)
    (hstep : m.step (.step n c) w = some w') : S.guar w.shared w'.shared
      ∧ ∀ t', w'.threads[n]? = some t' → Follows m S Q E n t' w'.shared := by
  obtain ⟨t, op, rest, a, s, ht, hcode, hx, rfl⟩ := step_eq hstep
  obtain ⟨P, ho, hp⟩ := h t ht _ hcode
  obtain ⟨next, hnext, hafter⟩ := Outline.call_inv ho
  obtain ⟨hguar, hn⟩ := hnext _ c a s hp (hok t op rest ht hcode) hx
  refine ⟨hguar, fun t' ht' => ?_⟩
  rw [List.getElem?_set_self (List.getElem?_eq_some_iff.1 ht).1] at ht'
  cases ht'
  intro p hp'
  cases hp'
  exact ⟨next a, hafter a, hn⟩

theorem Follows.other (h : ∀ t, w.threads[n]? = some t → Follows m S Q E n t w.shared)
    (hn : n < w.threads.length) (he : ∀ c, e ≠ .step n c)
    (hrely : ∀ t, w.threads[n]? = some t → (∀ i, e = .crash i → t.owner ≠ i) →
      w'.shared = w.shared ∨ S.rely w.shared w'.shared)
    (hstep : m.step e w = some w') (t' : Thread Op Ans ε ρ ι Call)
    (ht' : w'.threads[n]? = some t') : Follows m S Q E n t' w'.shared := by
  have hkeep : ∀ t, w.threads[n]? = some t → (∀ i, e = .crash i → t.owner ≠ i) →
      Follows m S Q E n t w'.shared := by
    intro t ht hi p hp
    obtain ⟨P, ho, hP⟩ := h t ht p hp
    rcases hrely t ht hi with heq | hr
    · exact ⟨P, ho, heq ▸ hP⟩
    · exact ⟨P, ho, ho.stable _ _ hr hP⟩
  have ht := List.getElem?_eq_getElem hn
  cases e with
  | begin i request =>
      cases hstep
      rw [List.getElem?_append_left hn, ht] at ht'
      cases ht'
      exact hkeep _ ht fun i hi => by cases hi
  | step k c =>
      have hk : k ≠ n := fun hk => he c (hk ▸ rfl)
      obtain ⟨u, op, rest, a, s, -, -, -, rfl⟩ := step_eq hstep
      rw [List.getElem?_set_ne hk, ht] at ht'
      cases ht'
      exact hkeep _ ht fun i hi => by cases hi
  | crash i =>
      cases hstep
      rw [List.getElem?_map, ht] at ht'
      cases ht'
      unfold Thread.crashed
      split
      next hi => exact fun p hp => by cases hp
      next hi =>
        exact hkeep _ ht fun j hj => by
          cases hj
          exact hi
  | env x =>
      obtain ⟨s, -, rfl⟩ := Option.map_eq_some_iff.1 hstep
      rw [ht] at ht'
      cases ht'
      exact hkeep _ ht fun i hi => by cases hi

end Follows

/-- One thread through a run: it keeps to its outline when its own
operations are asked for as they should be and the others do what it
relies on. -/
theorem carried {S : Setting Op χ σ} {Q : ρ → σ → Prop} {E : ε → σ → Prop} {n : Nat}
    {C : Event χ ι Call Env → World Op Ans ε ρ σ ι Call → Prop}
    (hown : ∀ c w t op rest, C (.step n c) w → w.threads[n]? = some t →
      t.code = some (.call op rest) → S.ok op c w.shared)
    (hrely : ∀ e w w' t, C e w → w.threads[n]? = some t → (∀ c, e ≠ .step n c) →
      (∀ i, e = .crash i → t.owner ≠ i) → m.step e w = some w' →
      w'.shared = w.shared ∨ S.rely w.shared w'.shared) {es : List (Event χ ι Call Env)}
    (hC : Meets m.step C es w) (hn : n < w.threads.length)
    (h : ∀ t, w.threads[n]? = some t → Follows m S Q E n t w.shared)
    (hrun : run m.step es w = some w') :
    ∀ t, w'.threads[n]? = some t → Follows m S Q E n t w'.shared := by
  refine (run_preserves_of (P := fun w => n < w.threads.length
    ∧ ∀ t, w.threads[n]? = some t → Follows m S Q E n t w.shared) ?_ hC ⟨hn, h⟩ hrun).2
  rintro e w w' hC ⟨hn, h⟩ hstep
  refine ⟨?_, fun t' ht' => ?_⟩
  · obtain ⟨t', ht', -⟩ := step_thread hstep (List.getElem?_eq_getElem hn)
    exact (List.getElem?_eq_some_iff.1 ht').1
  · by_cases he : ∃ c, e = .step n c
    · obtain ⟨c, rfl⟩ := he
      exact (Follows.own h (fun t op rest => hown c w t op rest hC) hstep).2 t' ht'
    · have he : ∀ c, e ≠ .step n c := fun c hc => he ⟨c, hc⟩
      exact Follows.other h hn he (fun t ht hi => hrely e w w' t hC ht he hi hstep) hstep t' ht'

end Machine

-- ===== all threads

structure Discipline {Op : Type} {Ans : Op → Type} {ε ρ χ σ ι Call Env : Type} [DecidableEq ι]
    (m : Machine Op Ans ε ρ χ σ ι Call Env) where
  okOp : Who ι → Call → Op → χ → σ → Prop
  okEnv : Env → σ → Prop
  rely : Who ι → σ → σ → Prop
  guar : Who ι → Call → σ → σ → Prop
  /-- What is true of a thread that was not begun yet. -/
  start : Who ι → σ → Prop
  returns : Who ι → Call → ρ → σ → Prop
  raises : Who ι → Call → ε → σ → Prop
  outline : ∀ who request, Outline (m.exec who) ⟨okOp who request, rely who, guar who request⟩
    (returns who request) (raises who request) (start who) (m.program request)
  others : ∀ who who' request s s', who.thread ≠ who'.thread → guar who request s s' →
    rely who' s s'
  crashed : ∀ i who s, who.process ≠ i → rely who s (m.crash i s)
  idle : ∀ i who s, start who s → start who (m.crash i s)
  around : ∀ e who s s', okEnv e s → m.env e s = some s' → rely who s s'

namespace Discipline

open Machine

variable {Op : Type} {Ans : Op → Type} {ε ρ χ σ ι Call Env : Type} [DecidableEq ι]
variable {m : Machine Op Ans ε ρ χ σ ι Call Env} (d : Discipline m)

def setting (who : Who ι) (request : Call) : Setting Op χ σ :=
  ⟨d.okOp who request, d.rely who, d.guar who request⟩

structure Inv (w : World Op Ans ε ρ σ ι Call) : Prop where
  begun : ∀ n t, w.threads[n]? = some t → Follows m (d.setting ⟨n, t.owner⟩ t.request)
    (d.returns ⟨n, t.owner⟩ t.request) (d.raises ⟨n, t.owner⟩ t.request) n t w.shared
  idle : ∀ who, w.threads.length ≤ who.thread → d.start who w.shared

variable {d}
variable {w w' : World Op Ans ε ρ σ ι Call}

theorem Inv.change {e : Event χ ι Call Env} (h : d.Inv w)
    (hfine : Fine d.okOp d.okEnv e w) (hstep : m.step e w = some w') :
    w'.shared = w.shared
      ∨ (∃ n t c, e = .step n c ∧ w.threads[n]? = some t
          ∧ d.guar ⟨n, t.owner⟩ t.request w.shared w'.shared)
      ∨ (∃ i, e = .crash i ∧ w'.shared = m.crash i w.shared)
      ∨ ∃ x, d.okEnv x w.shared ∧ m.env x w.shared = some w'.shared := by
  cases e with
  | begin i request =>
      cases hstep
      exact Or.inl rfl
  | step n c =>
      obtain ⟨t, op, rest, a, s, ht, hcode, hx, hw⟩ := step_eq hstep
      have hbegun := h.begun n t ht
      have hok : ∀ u op rest, w.threads[n]? = some u → u.code = some (.call op rest) →
          (d.setting ⟨n, t.owner⟩ t.request).ok op c w.shared := by
        intro u op rest hu hcode
        have hok := hfine.at hu hcode
        cases Option.some.inj (ht.symm.trans hu)
        exact hok
      have hall : ∀ u, w.threads[n]? = some u → Follows m (d.setting ⟨n, t.owner⟩ t.request)
          (d.returns ⟨n, t.owner⟩ t.request) (d.raises ⟨n, t.owner⟩ t.request) n u w.shared := by
        intro u hu
        cases Option.some.inj (ht.symm.trans hu)
        exact hbegun
      have hguar := (Follows.own hall hok hstep).1
      exact Or.inr (Or.inl ⟨n, t, c, rfl, ht, hguar⟩)
  | crash i =>
      cases hstep
      exact Or.inr (Or.inr (Or.inl ⟨i, rfl, rfl⟩))
  | env x =>
      obtain ⟨s, hs, rfl⟩ := Option.map_eq_some_iff.1 hstep
      exact Or.inr (Or.inr (Or.inr ⟨x, hfine, hs⟩))

/-- What a thread that does not take the step and is not killed by it may
rely on. -/
theorem Inv.relied {e : Event χ ι Call Env} (h : d.Inv w)
    (hfine : Fine d.okOp d.okEnv e w) (hstep : m.step e w = some w') (who : Who ι)
    (hself : ∀ c, e ≠ .step who.thread c) (hcrash : ∀ i, e = .crash i → who.process ≠ i) :
    w'.shared = w.shared ∨ d.rely who w.shared w'.shared := by
  rcases h.change hfine hstep with heq | ⟨n, t, c, he, -, hguar⟩ | ⟨i, he, heq⟩ | ⟨x, hok, hx⟩
  · exact Or.inl heq
  · have hne : n ≠ who.thread := fun hn => hself c (hn ▸ he)
    exact Or.inr (d.others ⟨n, t.owner⟩ who t.request _ _ hne hguar)
  · rw [heq]
    exact Or.inr (d.crashed i who _ (hcrash i he))
  · exact Or.inr (d.around x who _ _ hok hx)

theorem Inv.step [Nonempty Call] {e : Event χ ι Call Env}
    (h : d.Inv w) (hfine : Fine d.okOp d.okEnv e w) (hstep : m.step e w = some w') : d.Inv w' := by
  obtain ⟨anyCall⟩ := ‹Nonempty Call›
  have hidle : ∀ who, w.threads.length ≤ who.thread → (∀ c, e ≠ .step who.thread c) →
      d.start who w'.shared := by
    intro who hwho hself
    by_cases hcrash : ∃ i, e = .crash i ∧ who.process = i
    · obtain ⟨i, rfl, rfl⟩ := hcrash
      cases hstep
      exact d.idle _ who _ (h.idle who hwho)
    · rcases h.relied hfine hstep who hself fun i he hi => hcrash ⟨i, he, hi⟩ with heq | hr
      · rw [heq]
        exact h.idle who hwho
      · exact (d.outline who anyCall).stable _ _ hr (h.idle who hwho)
  have hold : ∀ n < w.threads.length, ∀ t', w'.threads[n]? = some t' →
      Follows m (d.setting ⟨n, t'.owner⟩ t'.request) (d.returns ⟨n, t'.owner⟩ t'.request)
        (d.raises ⟨n, t'.owner⟩ t'.request) n t' w'.shared := by
    intro n hn t' ht'
    have ht := List.getElem?_eq_getElem hn
    obtain ⟨u, hu, howner, hrequest⟩ := step_thread hstep ht
    cases Option.some.inj (hu.symm.trans ht')
    rw [howner, hrequest]
    have hall : ∀ v, w.threads[n]? = some v → Follows m
        (d.setting ⟨n, w.threads[n].owner⟩ w.threads[n].request)
        (d.returns ⟨n, w.threads[n].owner⟩ w.threads[n].request)
        (d.raises ⟨n, w.threads[n].owner⟩ w.threads[n].request) n v w.shared := by
      intro v hv
      cases Option.some.inj (ht.symm.trans hv)
      exact h.begun n _ ht
    by_cases he : ∃ c, e = .step n c
    · obtain ⟨c, rfl⟩ := he
      refine (Follows.own hall (fun v op rest hv hcode => ?_) hstep).2 _ hu
      have hok := hfine.at hv hcode
      cases Option.some.inj (ht.symm.trans hv)
      exact hok
    · have he : ∀ c, e ≠ .step n c := fun c hc => he ⟨c, hc⟩
      refine Follows.other hall hn he (fun v hv hcrash => ?_) hstep _ hu
      cases Option.some.inj (ht.symm.trans hv)
      exact h.relied hfine hstep ⟨n, w.threads[n].owner⟩ he hcrash
  refine ⟨fun n t' ht' => ?_, fun who hwho => ?_⟩
  · by_cases hn : n < w.threads.length
    · exact hold n hn t' ht'
    · obtain ⟨i, request, -, rfl, rfl, hshared⟩ := step_begun hstep (Nat.le_of_not_lt hn) ht'
      intro p hp
      cases hp
      rw [hshared]
      exact ⟨_, d.outline _ request, h.idle ⟨_, i⟩ (Nat.le_refl _)⟩
  · have hle := Nat.le_trans (step_length hstep) hwho
    refine hidle who hle fun c hc => ?_
    subst hc
    obtain ⟨t, -, -, -, -, ht, -⟩ := step_eq hstep
    have hlt := (List.getElem?_eq_some_iff.1 ht).1
    omega

theorem kept [Nonempty Call] {es : List (Event χ ι Call Env)}
    (hfine : Meets m.step (Fine d.okOp d.okEnv) es w) (h : d.Inv w)
    (hrun : run m.step es w = some w') : d.Inv w' :=
  run_preserves_of (P := d.Inv) (fun _ _ _ hC hP hs => Inv.step hP hC hs) hfine h hrun

/-- One call among them, which may be argued for in a setting of its own:
one in which more is known of its steps. -/
theorem call_ends [Nonempty Call] {S : Setting Op χ σ} {P : σ → Prop} {Q : ρ → σ → Prop}
    {E : ε → σ → Prop} {C : Event χ ι Call Env → World Op Ans ε ρ σ ι Call → Prop} {i : ι}
    {request : Call} {es : List (Event χ ι Call Env)} {n : Nat}
    (hn : n = w.threads.length) (h : d.Inv w)
    (hfine : Meets m.step (fun e v => Fine d.okOp d.okEnv e v ∧ C e v) (.begin i request :: es) w)
    (hrun : run m.step (.begin i request :: es) w = some w')
    (hout : Outline (m.exec ⟨n, i⟩) S Q E P (m.program request)) (hP : P w.shared)
    (hok : ∀ c v t op rest, C (.step n c) v → v.threads[n]? = some t → t.owner = i →
      t.request = request → t.code = some (.call op rest) →
      d.okOp ⟨n, i⟩ request op c v.shared → S.ok op c v.shared)
    (hrely : ∀ s s', d.rely ⟨n, i⟩ s s' → S.rely s s')
    (t : Thread Op Ans ε ρ ι Call) (ht : w'.threads[n]? = some t) :
    Follows m S Q E n t w'.shared := by
  obtain ⟨w₂, hbegin, hrest⟩ := run_cons hrun
  have hmeets := hfine.2 w₂ hbegin
  have hinv : d.Inv w₂ := Inv.step h hfine.1.1 hbegin
  cases hbegin
  have ht₂ : (w.threads ++ [⟨i, request, some (m.program request)⟩])[n]?
      = some ⟨i, request, some (m.program request)⟩ := by
    rw [hn, List.getElem?_append_right (Nat.le_refl _), Nat.sub_self]
    rfl
  have hkept := hmeets.and_kept (P := fun v => d.Inv v ∧ ∃ t, v.threads[n]? = some t
    ∧ t.owner = i ∧ t.request = request) ?_ ⟨hinv, _, ht₂, rfl, rfl⟩
  · refine Machine.carried ?_ ?_ hkept (List.getElem?_eq_some_iff.1 ht₂).1 ?_ hrest t ht
    · rintro c v u op rest ⟨⟨hf, hc⟩, -, u', hu', howner, hrequest⟩ hu hcode
      cases Option.some.inj (hu.symm.trans hu')
      have hdone := hf.at hu hcode
      rw [howner, hrequest] at hdone
      exact hok c v u op rest hc hu howner hrequest hcode hdone
    · rintro e v v' u ⟨⟨hf, hc⟩, hv, u', hu', howner, hrequest⟩ hu hself hcrash hstep
      cases Option.some.inj (hu.symm.trans hu')
      have hrelied := hv.relied hf hstep ⟨n, i⟩ hself fun j hj => howner ▸ hcrash j hj
      exact hrelied.imp_right (hrely _ _)
    · intro u hu p hp
      cases Option.some.inj (ht₂.symm.trans hu)
      cases hp
      exact ⟨P, hout, hP⟩
  · rintro e v v' ⟨hf, -⟩ ⟨hv, u, hu, howner, hrequest⟩ hstep
    obtain ⟨u', hu', howner', hrequest'⟩ := step_thread hstep hu
    exact ⟨hv.step hf hstep, u', hu', howner'.trans howner, hrequest'.trans hrequest⟩

theorem inv_start {s : σ} (h : ∀ who, d.start who s) : d.Inv ⟨s, []⟩ where
  begun n t ht := by cases ht
  idle who _ := h who

end Discipline

end Lib
