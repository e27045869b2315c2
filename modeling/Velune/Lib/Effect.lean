/-
Rules for programs written in `EStateM`: state that survives an
exception, which is how a scripting language's methods mutate their
objects and raise.

The judgement `Triple P x Q E`, with one rule per way a program is built:
from a state in `P`, a run of `x` that returns ends in `Q` and one that
raises ends in `E`.

A client proves one triple per function and chains them with `bind`; it
unfolds a function only to prove that function's own triple.
-/
import Mathlib.Logic.Basic

namespace Lib

/-- A program over the state `σ` that may raise an `ε`. -/
abbrev Eff (σ ε α : Type) := EStateM ε σ α

namespace Eff

variable {σ ε α β γ : Type}

-- ===== endings

/-- A run that returned meets `Q`, one that raised meets `E`. -/
def Ends (Q : α → σ → Prop) (E : ε → σ → Prop) : EStateM.Result ε σ α → Prop
  | .ok a s => Q a s
  | .error e s => E e s

-- ===== updates

def update (f : σ → σ) : Eff σ ε PUnit := modify f

-- ===== triples

/-- `{P} x {Q | E}`. -/
def Triple (P : σ → Prop) (x : Eff σ ε α) (Q : α → σ → Prop) (E : ε → σ → Prop) : Prop :=
  ∀ s, P s → Ends Q E (x s)

namespace Triple

variable {P P' : σ → Prop} {Q Q' : α → σ → Prop} {R : β → σ → Prop} {E E' : ε → σ → Prop}
variable {x : Eff σ ε α}

theorem conseq (h : Triple P x Q E) (hP : ∀ s, P' s → P s) (hQ : ∀ a s, Q a s → Q' a s)
    (hE : ∀ e s, E e s → E' e s) : Triple P' x Q' E' := by
  intro s hs
  have hx := h s (hP s hs)
  cases hr : x s with
  | ok a t =>
      rw [hr] at hx
      exact hQ a t hx
  | error e t =>
      rw [hr] at hx
      exact hE e t hx

theorem pre (h : Triple P x Q E) (hP : ∀ s, P' s → P s) : Triple P' x Q E :=
  h.conseq hP (fun _ _ hq => hq) fun _ _ he => he

theorem pure {a : α} (h : ∀ s, P s → Q a s) : Triple P (Pure.pure a : Eff σ ε α) Q E := h

theorem throw {e : ε} (h : ∀ s, P s → E e s) :
    Triple P (MonadExcept.throw e : Eff σ ε α) Q E := h

theorem get {Q : σ → σ → Prop} (h : ∀ s, P s → Q s s) :
    Triple P (MonadState.get : Eff σ ε σ) Q E := h

theorem update {f : σ → σ} {Q : PUnit → σ → Prop} (h : ∀ s, P s → Q ⟨⟩ (f s)) :
    Triple P (Eff.update f : Eff σ ε PUnit) Q E := h

theorem modifyGet {f : σ → α × σ} (h : ∀ s, P s → Q (f s).1 (f s).2) :
    Triple P (MonadState.modifyGet f : Eff σ ε α) Q E := h

theorem bind {f : α → Eff σ ε β} (hx : Triple P x Q E) (hf : ∀ a, Triple (Q a) (f a) R E) :
    Triple P (x >>= f) R E := by
  intro s hs
  have hx := hx s hs
  change Ends R E (EStateM.bind x f s)
  unfold EStateM.bind
  cases hr : x s with
  | ok a t =>
      rw [hr] at hx
      exact hf a t hx
  | error e t =>
      rw [hr] at hx
      exact hx

theorem ite {c : Prop} [Decidable c] {y : Eff σ ε α} (hx : c → Triple P x Q E)
    (hy : ¬ c → Triple P y Q E) : Triple P (if c then x else y) Q E := by
  split
  next hc => exact hx hc
  next hc => exact hy hc

theorem tryCatch {handle : ε → Eff σ ε α} (hx : Triple P x Q E)
    (hh : ∀ e, Triple (E e) (handle e) Q E') :
    Triple P (MonadExcept.tryCatch x handle) Q E' := by
  intro s hs
  have hx := hx s hs
  change Ends Q E' (EStateM.tryCatch x handle s)
  unfold EStateM.tryCatch
  cases hr : x s with
  | ok a t =>
      rw [hr] at hx
      exact hx
  | error e t =>
      rw [hr] at hx
      exact hh e t hx

theorem of_fact {p : Prop} (h : p → Triple P x Q E) : Triple (fun s => P s ∧ p) x Q E :=
  fun s hs => h hs.2 s hs.1

theorem of_state (h : ∀ s₀, P s₀ → Triple (fun s => s = s₀) x Q E) : Triple P x Q E :=
  fun s hs => h s hs s rfl

end Triple

end Eff

end Lib
