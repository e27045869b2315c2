/-
The vocabulary the engine and the council share: agent roles
(`core/types/agent.py`), the kinds of artifact a stage or an agent may
read and write and the scopes a read grant names (`council/domain.py`).
Each enumeration carries the source's wire value.

Python's strings are modelled twice: `PyStr` where the code has shown
that a text encodes, `RawStr` where it has not.
-/
import Velune.Lib.Text

namespace Velune

open Lib

/-- A text without lone surrogates: a sequence of Unicode scalar
values. -/
abbrev PyStr := List Char

instance : LawfulBEq PyStr := inferInstance

/-- A string as a model or a tool can return it: `none` stands for a
lone surrogate, which does not encode. -/
abbrev RawStr := List (Option Char)

def PyStr.raw (s : PyStr) : RawStr := s.map some

def RawStr.clean? : RawStr → Option PyStr
  | [] => some []
  | some c :: rest => (RawStr.clean? rest).map (c :: ·)
  | none :: _ => none

/-- `s.strip()`; a surrogate is not white space. -/
def RawStr.strip : RawStr → RawStr := Text.trim fun c => c.any Text.isSpace

theorem RawStr.clean?_eq_some : ∀ {raw : RawStr} {text : PyStr},
    RawStr.clean? raw = some text → raw = PyStr.raw text
  | [], _, h => by
      cases h
      rfl
  | none :: _, _, h => by cases h
  | some c :: rest, text, h => by
      simp only [RawStr.clean?, Option.map_eq_some_iff] at h
      obtain ⟨text', hclean, rfl⟩ := h
      exact congrArg (some c :: ·) (RawStr.clean?_eq_some hclean)

@[simp] theorem RawStr.clean?_raw : ∀ text : PyStr, RawStr.clean? (PyStr.raw text) = some text
  | [] => rfl
  | c :: cs => by
      show (RawStr.clean? (PyStr.raw cs)).map (c :: ·) = _
      rw [RawStr.clean?_raw cs]
      rfl

-- ===== roles

inductive AgentRole
  | planner | coder | reasoner | reviewer | debugger | summarizer | retriever | supervisor
  deriving DecidableEq, Repr

def AgentRole.value : AgentRole → PyStr
  | .planner => "planner".toList
  | .coder => "coder".toList
  | .reasoner => "reasoner".toList
  | .reviewer => "reviewer".toList
  | .debugger => "debugger".toList
  | .summarizer => "summarizer".toList
  | .retriever => "retriever".toList
  | .supervisor => "supervisor".toList

-- ===== artifacts

/-- `council.domain.ArtifactKind`: what a stage or agent may read or
write. -/
inductive ArtifactKind
  | question | evidence | frame | perspective | critique | revision | decision | answer | artifact
  deriving DecidableEq, Repr

def ArtifactKind.value : ArtifactKind → PyStr
  | .question => "question".toList
  | .evidence => "evidence".toList
  | .frame => "frame".toList
  | .perspective => "perspective".toList
  | .critique => "critique".toList
  | .revision => "revision".toList
  | .decision => "decision".toList
  | .answer => "answer".toList
  | .artifact => "artifact".toList

/-- `council.domain.ReadScope`: which artifacts of a kind a viewer may
see. -/
inductive ReadScope
  | none | own | all | addressedToSelf | assigned | digestAll
  deriving DecidableEq, Repr

end Velune
