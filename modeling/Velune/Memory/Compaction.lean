/-
The compactor (`memory/compaction.py`): when the working memory is to be
compacted, what a summary must look like, and how the turns that were
summarised are replaced by it.
-/
import Mathlib.Algebra.GroupWithZero.Nat
import Mathlib.Data.Char
import Mathlib.Data.List.Infix
import Mathlib.Data.List.Lex
import Mathlib.Data.List.Sort
import Velune.Memory.Working

namespace Velune.Memory

-- ===== thresholds

def MIN_TURNS_FOR_COMPACTION : Nat := 30

def KEEP_LAST_N_TURNS : Nat := 10

def MIN_SUMMARY_LENGTH : Nat := 100

def estimateTokensString (text : PyStr) : Nat := max 1 (text.length / 4)

def estimateTokens (contents : List PyStr) : Nat := max 1 ((contents.map List.length).sum / 4)

/-- `should_compact`; `none` is the `ZeroDivisionError` of a budget of
nothing. -/
def shouldCompact (maxContextTokens turnCount currentTokenCount : Nat) (sessionEnd : Bool) :
    Option Bool :=
  if sessionEnd then some (decide (KEEP_LAST_N_TURNS < turnCount))
  else if MIN_TURNS_FOR_COMPACTION < turnCount then some true
  else if maxContextTokens = 0 then none
  else some (decide (3 * maxContextTokens < 4 * currentTokenCount))

def refusalIndicators : List String :=
  ["i cannot", "i don't have access", "i'm unable to", "i don't have permission",
    "unable to access"]

def validateSummary (summary : PyStr) (originalTokenCount : Nat) : Bool :=
  decide (MIN_SUMMARY_LENGTH ≤ summary.length)
    && refusalIndicators.all (fun indicator =>
      decide (¬ indicator.toList <:+: summary.map Char.toLower))
    && decide (10 * estimateTokensString summary ≤ 3 * originalTokenCount)

-- ===== replacing

/-- The turns `compact` takes: all but the last, when there are enough. -/
def turnsToSummarize (tier : WorkingMemoryTier) : List Nat :=
  tier.getTurns.take (tier.getTurns.length - KEEP_LAST_N_TURNS)

/-- The first place in the working memory of a turn that equals this
one. -/
def indexOf (tier : WorkingMemoryTier) (turn : Nat) : Option Nat :=
  tier.turns.findIdx? fun i => tier.objects i = tier.objects turn

/-- `pop` at each index in turn; `false` when one is out of range. -/
def popAll : List Nat → List Nat → List Nat × Bool
  | [], turns => (turns, true)
  | i :: indices, turns =>
      if i < turns.length then popAll indices (turns.eraseIdx i) else (turns, false)

/-- `_replace_turns_with_summary`; `false` when it raises. -/
def replaceTurnsWithSummary (tier : WorkingMemoryTier) (turns : List Nat) (summary : PyStr)
    (timestamp : Int) : WorkingMemoryTier × Bool :=
  let indicesToRemove := turns.filterMap (indexOf tier)
  let (left, done) := popAll (indicesToRemove.insertionSort (· ≥ ·)) tier.turns
  let popped := { tier with turns := left }
  if done then
    (popped.addTurn "system".toList summary .compactionSummary none timestamp, true)
  else (popped, false)

end Velune.Memory
