/-
Pure POSIX paths: a text parsed into its root and its parts, compared
without looking at any file system. Empty and `.` parts are dropped,
`..` is kept; two leading slashes are a root of their own.

"Under" is the prefix order on the parts, which is what a test for
membership in a path's parents decides.
-/
import Mathlib.Data.List.Basic

namespace Lib

structure PurePath where
  root : List Char
  parts : List (List Char)
  deriving DecidableEq, Repr

namespace PurePath

def rootOf : List Char → List Char
  | '/' :: '/' :: '/' :: _ => ['/']
  | '/' :: '/' :: _ => ['/', '/']
  | '/' :: _ => ['/']
  | _ => []

/-- A part that names something: neither empty nor `.`. -/
def isPart (part : List Char) : Bool := part != [] && part != ['.']

def parse (s : List Char) : PurePath := ⟨rootOf s, (s.splitOn '/').filter isPart⟩

def name (p : PurePath) : List Char := p.parts.getLastD []

/-- `p == q or q in p.parents`. -/
def Under (p q : PurePath) : Prop := p.root = q.root ∧ q.parts <+: p.parts

instance (p q : PurePath) : Decidable (Under p q) :=
  inferInstanceAs (Decidable (p.root = q.root ∧ q.parts <+: p.parts))

theorem not_mem_splitOn {sep : Char} : ∀ {s part : List Char}, part ∈ s.splitOn sep → sep ∉ part
  | [], part, h => by
      rw [List.splitOn_nil, List.mem_singleton] at h
      rw [h]
      exact List.not_mem_nil
  | c :: s, part, h => by
      rw [List.splitOn_cons_eq_if_modifyHead] at h
      split at h
      next =>
        rcases List.mem_cons.1 h with rfl | h
        · exact List.not_mem_nil
        · exact not_mem_splitOn h
      next hc =>
        rcases hparts : s.splitOn sep with _ | ⟨first, rest⟩
        · exact (List.splitOn_ne_nil sep s hparts).elim
        · rw [hparts] at h
          rcases List.mem_cons.1 h with rfl | h
          · have hfirst := not_mem_splitOn (hparts ▸ List.mem_cons_self : first ∈ s.splitOn sep)
            intro hmem
            rcases List.mem_cons.1 hmem with rfl | hmem
            · exact hc (beq_self_eq_true _)
            · exact hfirst hmem
          · exact not_mem_splitOn (hparts ▸ List.mem_cons_of_mem first h)

theorem slash_not_mem_parts {s part : List Char} (h : part ∈ (parse s).parts) : '/' ∉ part :=
  not_mem_splitOn (List.mem_filter.1 h).1

theorem parse_plain {s : List Char} (h : '/' ∉ s) (hpart : isPart s = true) :
    parse s = ⟨[], [s]⟩ := by
  have hroot : rootOf s = [] := by
    unfold rootOf
    split
    next => exact (h List.mem_cons_self).elim
    next => exact (h List.mem_cons_self).elim
    next => exact (h List.mem_cons_self).elim
    next => rfl
  unfold parse
  rw [hroot, List.splitOn_eq_singleton h, List.filter_singleton, hpart]
  rfl

end PurePath

end Lib
