/-
One SEARCH/REPLACE block, from the response to the file.

The file is its own text here, carriage returns and all: `read_text` gives
another one where there are some, and `write_text` writes what it is given.
Whether the edit is a deletion of the file is read off a blank REPLACE in
`parse` and stays so until `write`; what is left to show is what the search
puts between two parts of the text it was given (`findAndReplace_parts`).
-/
import Velune.EditFormats.Proofs.Apply
import Velune.EditFormats.Proofs.Parse

namespace Velune.EditFormats

open Lib

-- ===== files

/-- What `read_text` gives. -/
def readFiles (disk : Disk) : Disk := fun path => (disk path).map Text.universalNewlines

def applyOne (ratio : PyStr → PyStr → Rat) (workspace : PurePath) (disk : Disk)
    (block : EditBlock) : Except ParseError Disk :=
  (resolve ratio workspace (readFiles disk) block).map fun resolved =>
    write disk resolved.1 resolved.2

-- ===== search

variable {ratio : PyStr → PyStr → Rat} {workspace : PurePath} {disk : Disk}

/-- A text with `replace` in it, between two parts of `content`. -/
def Parts (content replace result : PyStr) : Prop :=
  ∃ front back, result = front ++ replace ++ back ∧ front ⊆ content ∧ back ⊆ content

theorem splice_parts (content : PyStr) (i n : Nat) (replace : PyStr) :
    Parts content replace (Text.splice content i n replace) :=
  ⟨content.take i, content.drop (i + n), rfl, List.take_subset i content,
    List.drop_subset (i + n) content⟩

theorem replaceFuzzy_parts {content search replace result : PyStr}
    (h : replaceFuzzy ratio content search replace = some result) :
    Parts content replace result := by
  have hlines : ∀ lines : List PyStr, lines ⊆ Text.splitlinesKeep content →
      lines.flatten ⊆ content := by
    intro lines hsub c hc
    obtain ⟨line, hline, hc⟩ := List.mem_flatten.1 hc
    rw [← Text.flatten_splitlinesKeep content]
    exact List.mem_flatten.2 ⟨line, hsub hline, hc⟩
  unfold replaceFuzzy at h
  dsimp only at h
  split at h
  next => cases h
  next =>
    split at h
    next start best hbest =>
      split at h
      next =>
        obtain rfl := Option.some.inj h
        exact ⟨_, _, rfl, hlines _ (List.take_subset _ _), hlines _ (List.drop_subset _ _)⟩
      next => cases h
    next => cases h

/-- Whichever strategy finds a place, what it does not replace is as it was. -/
theorem findAndReplace_parts {content search replace result : PyStr}
    (h : findAndReplace ratio content search replace = some result) :
    Parts content replace result := by
  unfold findAndReplace at h
  split at h
  next i hi =>
    obtain rfl := Option.some.inj h
    exact splice_parts content i _ replace
  next =>
    dsimp only at h
    split at h
    next i hi =>
      obtain rfl := Option.some.inj h
      exact splice_parts content i _ replace
    next =>
      split at h
      next i hi =>
        obtain rfl := Option.some.inj h
        exact splice_parts content i _ replace
      next => exact replaceFuzzy_parts h

theorem findAndReplace_exact {content search : PyStr} {i : Nat}
    (h : Text.find search content = some i) (replace : PyStr) :
    findAndReplace ratio content search replace
      = some (Text.splice content i search.length replace) := by
  unfold findAndReplace
  rw [h]

-- ===== block

theorem ofParts_of_mem_parse {response : PyStr} {blocks : List EditBlock} {block : EditBlock}
    (h : parse response = .ok blocks) (hblock : block ∈ blocks) :
    block = EditBlock.ofParts block.filePath block.original block.proposed := by
  have hpattern : ∀ pattern, block ∈ blocksOf pattern response →
      block = EditBlock.ofParts block.filePath block.original block.proposed := by
    intro pattern hmem
    obtain ⟨m, -, hm⟩ := List.mem_filterMap.1 hmem
    unfold blockOf at hm
    dsimp only at hm
    split at hm
    next => cases hm
    next =>
      obtain rfl := Option.some.inj hm
      rfl
  obtain ⟨-, rfl⟩ := parse_eq_ok.1 h
  rcases List.mem_append.1 hblock with hmem | hmem
  · exact hpattern blockRe hmem
  · exact hpattern fenceBlockRe hmem

section Block

variable {filePath search replace raw : PyStr} {i : Nat}
  (hfile : disk (target workspace filePath) = some raw) (hsearch : isBlank search = false)
include hsearch

theorem applyOne_blank (hreplace : isBlank replace = true) :
    applyOne ratio workspace disk (EditBlock.ofParts filePath search replace)
      = .ok (disk.erase (target workspace filePath)) := by
  have hdeletion : (EditBlock.ofParts filePath search replace).isDeletion = true := by
    show (!isBlank search && isBlank replace) = true
    rw [hsearch, hreplace]
    rfl
  unfold applyOne resolve
  rw [if_pos hdeletion]
  rfl

include hfile

/-- Any other is put where the search finds a place for it in the text as it
is read, and that is written. -/
theorem applyOne_replace (hreplace : isBlank replace = false) :
    (applyOne ratio workspace disk (EditBlock.ofParts filePath search replace)).toOption
      = (findAndReplace ratio (Text.universalNewlines raw) search replace).map fun result =>
          disk.insert (target workspace filePath) result := by
  have hdeletion : (EditBlock.ofParts filePath search replace).isDeletion = false := by
    show (!isBlank search && isBlank replace) = false
    rw [hreplace, Bool.and_false]
  have hread : readFiles disk (target workspace filePath) = some (Text.universalNewlines raw) := by
    unfold readFiles
    rw [hfile]
    rfl
  have happly : (applyBlock ratio workspace (readFiles disk)
      (EditBlock.ofParts filePath search replace)).toOption
        = findAndReplace ratio (Text.universalNewlines raw) search replace := by
    have hnew : (EditBlock.ofParts filePath search replace).isNewFile = false := hsearch
    unfold applyBlock
    rw [show (EditBlock.ofParts filePath search replace).filePath = filePath from rfl, hread]
    dsimp only
    rw [hnew, hdeletion, if_neg Bool.false_ne_true, if_neg Bool.false_ne_true,
      show (EditBlock.ofParts filePath search replace).original = search from rfl,
      show (EditBlock.ofParts filePath search replace).proposed = replace from rfl]
    split
    next result hfound => exact hfound.symm
    next hfound => exact hfound.symm
  have hne : ∀ result, findAndReplace ratio (Text.universalNewlines raw) search replace = some result →
      result ≠ [] := by
    intro result hfound hnil
    obtain ⟨front, back, hresult, -, -⟩ := findAndReplace_parts hfound
    rw [hresult] at hnil
    simp only [List.append_eq_nil_iff] at hnil
    rw [hnil.1.2] at hreplace
    exact absurd hreplace (by decide)
  unfold applyOne resolve
  rw [hdeletion, if_neg Bool.false_ne_true]
  show ((applyBlock ratio workspace (readFiles disk) _).map _ |>.map _).toOption = _
  rw [← happly]
  cases hresult : applyBlock ratio workspace (readFiles disk)
      (EditBlock.ofParts filePath search replace) with
  | error e => rfl
  | ok result =>
      rw [hresult] at happly
      show some (write disk (target workspace filePath) result) = _
      unfold write
      rw [if_neg (hne result happly.symm)]
      rfl

end Block

def Replaced (ratio : PyStr → PyStr → Rat) (workspace : PurePath) (disk : Disk)
    (block : EditBlock) (raw : PyStr) (i : Nat) : Prop :=
  ∃ disk', applyOne ratio workspace disk block = .ok disk' ∧
    disk' (target workspace block.filePath)
      = some (Text.splice raw i block.original.length block.proposed)

end Velune.EditFormats
