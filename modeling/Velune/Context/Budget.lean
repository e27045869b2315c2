/-
How a model's window is divided (`context/budget.py`): what a session mode
allows of it, less the answer's share and the system's, split between
retrieval and working memory by a bias.

The bias is an exact number. What a budget prints is left out.
-/
import Mathlib.Data.Rat.Floor

namespace Velune.Context

inductive SessionMode
  | normal | optimus | godly
  deriving DecidableEq, Repr

structure ContextBudget where
  totalTokens : Int
  retrievalAllocation : Int
  workingMemoryAllocation : Int
  outputReservation : Int
  systemAllocation : Int := 512
  deriving DecidableEq, Repr

def ContextBudget.usableTokens (budget : ContextBudget) : Int :=
  budget.totalTokens - budget.systemAllocation - budget.outputReservation

/-- `int(x)`, towards zero. -/
def truncate (x : Rat) : Int := if 0 ≤ x then x.floor else x.ceil

def clampBias (retrievalBias : Rat) : Rat := min (4 / 5) (max (1 / 5) retrievalBias)

def totalOf (mode : SessionMode) (window : Int) : Int :=
  match mode with
  | .optimus => min 4096 window
  | .normal => min 16384 window
  | .godly => window

/-- What is left once the answer's share is taken, and its split. -/
def budgetOf (total outputReserve usable : Int) (retrievalBias : Rat) : ContextBudget where
  totalTokens := total
  retrievalAllocation := truncate (usable * clampBias retrievalBias)
  workingMemoryAllocation := truncate (usable * (1 - clampBias retrievalBias))
  systemAllocation := 512
  outputReservation := outputReserve

def fromMode (mode : SessionMode) (window : Int) (retrievalBias : Rat) : ContextBudget :=
  let total := totalOf mode window
  let outputReserve := min 2048 (total / 4)
  budgetOf total outputReserve (total - outputReserve - 512) retrievalBias

/-- `window = max(1024, int(model_context_window or 8192))`. -/
def chatWindow (window : Int) : Int := max 1024 (if window = 0 then 8192 else window)

def forChat (mode : SessionMode) (window : Int) (retrievalBias : Rat) : ContextBudget :=
  let total := totalOf mode (chatWindow window)
  let outputReserve := min 4096 (max 256 (total / 4))
  let usable := total - outputReserve - 512
  if usable < 256 then
    -- a tiny window shrinks the answer before the input
    let outputReserve := max 256 (total / 2 - 512)
    budgetOf total outputReserve (max 128 (total - outputReserve - 512)) retrievalBias
  else budgetOf total outputReserve usable retrievalBias

end Velune.Context
