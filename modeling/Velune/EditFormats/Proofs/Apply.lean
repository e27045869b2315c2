/-
Several SEARCH/REPLACE edits of one file.

Every block is resolved against the text on disk before anything is
written, so each resolved text holds one replacement only, and the
writes overwrite each other: what is left is the last block's
(`writeAll_edits`). What a list of edits means together is `applyAll`:
every replacement put in where its SEARCH text was in the original,
from the back so that earlier places stay where they are.
-/
import Mathlib.Data.List.Sort
import Velune.EditFormats.SearchReplace

namespace Velune.EditFormats

open Lib

-- ===== edits

structure Edit where
  search : PyStr
  replace : PyStr
  deriving DecidableEq

def Edit.block (filePath : PyStr) (e : Edit) : EditBlock :=
  EditBlock.ofParts filePath e.search e.replace

def Edit.place (content : PyStr) (e : Edit) : Nat := (Text.find e.search content).getD 0

def Edit.put (content text : PyStr) (e : Edit) : PyStr :=
  Text.splice text (e.place content) e.search.length e.replace

def applyAll (content : PyStr) (edits : List Edit) : PyStr :=
  (edits.insertionSort fun e f => f.place content ≤ e.place content).foldl
    (fun text e => e.put content text) content

/-- The SEARCH texts are not blank, each occurs exactly once, and no two
of them touch the same character. -/
structure Applicable (content : PyStr) (edits : List Edit) : Prop where
  nonblank : ∀ e ∈ edits, isBlank e.search = false
  once : ∀ e ∈ edits, (Text.occurrences e.search content).length = 1
  disjoint : edits.Pairwise fun e f =>
    e.place content + e.search.length ≤ f.place content
      ∨ f.place content + f.search.length ≤ e.place content

instance (content : PyStr) (edits : List Edit) : Decidable (Applicable content edits) :=
  decidable_of_iff
    ((∀ e ∈ edits, isBlank e.search = false)
      ∧ (∀ e ∈ edits, (Text.occurrences e.search content).length = 1)
      ∧ edits.Pairwise fun e f =>
          e.place content + e.search.length ≤ f.place content
            ∨ f.place content + f.search.length ≤ e.place content)
    ⟨fun ⟨h₁, h₂, h₃⟩ => ⟨h₁, h₂, h₃⟩, fun ⟨h₁, h₂, h₃⟩ => ⟨h₁, h₂, h₃⟩⟩

theorem isBlank_nil : isBlank [] = true := rfl

-- ===== resolution

variable {ratio : PyStr → PyStr → Rat} {workspace : PurePath} {disk : Disk}
variable {filePath content : PyStr}

theorem findAndReplace_found {e : Edit} (h : (Text.occurrences e.search content).length = 1) :
    findAndReplace ratio content e.search e.replace = some (e.put content content) := by
  unfold findAndReplace Edit.put Edit.place Text.find
  cases ho : Text.occurrences e.search content with
  | nil =>
      rw [ho] at h
      cases h
  | cons i rest => rfl

/-- What a block of an applicable list resolves to: its own replacement
in the text on disk, or nothing when the replacement is blank. -/
theorem resolve_edit {e : Edit} (hdisk : disk (target workspace filePath) = some content)
    (hblank : isBlank e.search = false)
    (honce : (Text.occurrences e.search content).length = 1) :
    resolve ratio workspace disk (e.block filePath)
      = .ok (target workspace filePath,
          if isBlank e.replace then [] else e.put content content) := by
  unfold resolve Edit.block EditBlock.ofParts applyBlock
  cases hr : isBlank e.replace with
  | true => simp [hblank]
  | false =>
      simp only [hblank, Bool.not_false, Bool.and_false, Bool.false_eq_true, if_false, hdisk,
        findAndReplace_found honce]
      rfl

theorem resolveAll_edits {edits : List Edit}
    (hdisk : disk (target workspace filePath) = some content)
    (happ : Applicable content edits) :
    resolveAll ratio workspace disk (edits.map (Edit.block filePath))
      = edits.map fun e => (target workspace filePath,
          if isBlank e.replace then [] else e.put content content) := by
  have hnonblank := happ.nonblank
  have honce := happ.once
  clear happ
  unfold resolveAll
  induction edits with
  | nil => rfl
  | cons e edits ih =>
      have he := @resolve_edit ratio workspace disk filePath content e hdisk (hnonblank e (by simp))
        (honce e (by simp))
      have hsome : (resolve ratio workspace disk (e.block filePath)).toOption
          = some (target workspace filePath,
              if isBlank e.replace then [] else e.put content content) := by
        rw [he]
        rfl
      rw [List.map_cons, List.map_cons,
        List.filterMap_cons_some (f := fun block => (resolve ratio workspace disk block).toOption)
          hsome]
      rw [ih (fun f hf => hnonblank f (List.mem_cons_of_mem e hf))
        fun f hf => honce f (List.mem_cons_of_mem e hf)]

-- ===== writing

theorem writeAll_last (path : PurePath) (written : List PyStr) (last : PyStr) :
    writeAll disk ((written ++ [last]).map fun text => (path, text)) path
      = if last = [] then none else some last := by
  unfold writeAll
  rw [List.map_append, List.foldl_append]
  generalize List.foldl (fun d e => write d e.1 e.2) disk
    (written.map fun text => (path, text)) = before
  simp only [List.map_cons, List.map_nil, List.foldl_cons, List.foldl_nil, write]
  by_cases hnil : last = []
  · rw [if_pos hnil, if_pos hnil, Dict.erase_self]
  · rw [if_neg hnil, if_neg hnil, Dict.insert_self]

/-- A text with something that is not white space put in is not empty. -/
theorem put_ne_nil {e : Edit} (h : isBlank e.replace = false) : e.put content content ≠ [] := by
  intro hnil
  unfold Edit.put Text.splice at hnil
  simp only [List.append_eq_nil_iff] at hnil
  rw [hnil.1.2, isBlank_nil] at h
  cases h

theorem applyAll_single (e : Edit) : applyAll content [e] = e.put content content := rfl

/-- What resolving and writing a nonempty list of edits leaves of the
file. -/
theorem writeAll_edits {before : List Edit} {last : Edit}
    (hdisk : disk (target workspace filePath) = some content)
    (happ : Applicable content (before ++ [last])) :
    writeAll disk (resolveAll ratio workspace disk
        ((before ++ [last]).map (Edit.block filePath))) (target workspace filePath)
      = if isBlank last.replace then none else some (applyAll content [last]) := by
  rw [resolveAll_edits hdisk happ]
  have hsplit : ((before ++ [last]).map fun e => (target workspace filePath,
        if isBlank e.replace then [] else e.put content content))
      = ((before.map fun e => if isBlank e.replace then [] else e.put content content)
          ++ [if isBlank last.replace then [] else last.put content content]).map
        fun text => (target workspace filePath, text) := by
    simp [Function.comp_def]
  rw [hsplit, writeAll_last, applyAll_single]
  cases hr : isBlank last.replace with
  | true => simp
  | false => simp [put_ne_nil hr]

def oneFile (path : PurePath) (content : PyStr) : Disk := Dict.empty.insert path content

/-- The two edits of `a` and `b`. -/
def twoEdits : List Edit :=
  [⟨"a\n".toList, "A\n".toList⟩, ⟨"b\n".toList, "B\n".toList⟩]

end Velune.EditFormats
