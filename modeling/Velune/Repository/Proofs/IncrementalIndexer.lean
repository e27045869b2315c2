/-
When applying a delta leaves what indexing afresh would (`sameIndex_iff`).

A file is looked up in the new index by where the delta has it: a removed
one is gone, an added or changed one has a new entry, any other keeps the
one it had (`get?_applyDelta`). The new entry is a fresh one unless the file
was taken for a renamed one, which keeps what depends on its path.
-/
import Velune.Repository.IncrementalIndexer

namespace Velune.Repository

open Lib Intelligence

-- ===== the claim

def IndexedFile.undated (entry : IndexedFile) : IndexedFile := { entry with indexedAt := 0 }

section

variable (env : IndexEnv) (root : PyStr) (git : GitView) (state : Option IndexState) (tree : Tree)
  (now : Rat)

def IndexEnv.freshEntry (path : PyStr) : Option IndexedFile :=
  (tree.files.get? path).bind fun file => env.indexOne path file now

/-- The state saved for the delta that is computed is the fresh one, up to
the times. -/
def SameIndex : Prop :=
  ∀ path, ((env.applyDelta root git now tree state
      (env.computeDelta git state tree)).fileIndex.get? path).map IndexedFile.undated
    = (env.freshEntry tree now path).map IndexedFile.undated

structure Rederivable : Prop where
  /-- git is only believed when there is nothing to do -/
  quiet : unmoved git state = true → (env.computeFileDelta state tree).isEmpty = true
  /-- an entry that stays is what the file would get -/
  kept : ∀ path entry file, (storedIndex state).get? path = some entry →
    tree.files.get? path = some file → path ∉ (env.computeFileDelta state tree).toUpdate →
    (env.indexOne path file now).map IndexedFile.undated = some entry.undated
  /-- the new path gives a renamed file the language and the symbols it had -/
  renamed : ∀ old new entry file, (old, new) ∈ (env.computeFileDelta state tree).renames →
    (storedIndex state).get? old = some entry → tree.files.get? new = some file →
    env.parseFile new file.bytes = (entry.language, entry.symbolCount)

end

variable {env : IndexEnv} {root : PyStr} {git : GitView} {state : Option IndexState} {tree : Tree}
  {now : Rat}

-- ===== the delta

variable {path : PyStr} {file : DiskFile} {stored : Assoc PyStr IndexedFile} {entry : IndexedFile}

theorem mem_files : (path, file) ∈ tree.files ↔ tree.files.get? path = some file :=
  (Assoc.get?_eq_some_iff tree.nodup).symm

theorem mem_toAdd :
    path ∈ (env.computeFileDelta state tree).toAdd ↔
      (storedIndex state).get? path = none ∧ ∃ file, tree.files.get? path = some file
        ∧ file.readable = true := by
  refine List.mem_map.trans ?_
  constructor
  · intro h
    obtain ⟨e, he, rfl⟩ := h
    obtain ⟨hmem, hadded⟩ := List.mem_filter.1 he
    obtain ⟨hnone, hread⟩ := Bool.and_eq_true_iff.1 hadded
    exact ⟨Option.isNone_iff_eq_none.1 hnone, e.2, mem_files.1 hmem, hread⟩
  · intro h
    obtain ⟨hnone, file, hfile, hread⟩ := h
    refine ⟨(path, file), List.mem_filter.2 ⟨mem_files.2 hfile, ?_⟩, rfl⟩
    exact Bool.and_eq_true_iff.2 ⟨Option.isNone_iff_eq_none.2 hnone, hread⟩

theorem mem_toUpdate :
    path ∈ (env.computeFileDelta state tree).toUpdate ↔
      ∃ entry file, (storedIndex state).get? path = some entry ∧ tree.files.get? path = some file
        ∧ env.isUpdated (storedIndex state) (path, file) = true := by
  refine List.mem_map.trans ?_
  constructor
  · intro h
    obtain ⟨e, he, rfl⟩ := h
    obtain ⟨hmem, hupdated⟩ := List.mem_filter.1 he
    have hstored : ∃ entry, (storedIndex state).get? e.1 = some entry := by
      unfold IndexEnv.isUpdated at hupdated
      split at hupdated
      next => cases hupdated
      next entry hentry => exact ⟨entry, hentry⟩
    obtain ⟨entry, hentry⟩ := hstored
    exact ⟨entry, e.2, hentry, mem_files.1 hmem, hupdated⟩
  · intro h
    obtain ⟨entry, file, -, hfile, hupdated⟩ := h
    exact ⟨(path, file), List.mem_filter.2 ⟨mem_files.2 hfile, hupdated⟩, rfl⟩

theorem isUpdated_spec (hentry : stored.get? path = some entry)
    (h : env.isUpdated stored (path, file) = true) :
    file.readable = true ∧ entry.contentHash ≠ env.sha256 file.bytes := by
  unfold IndexEnv.isUpdated at h
  simp only [hentry, Bool.and_eq_true, bne_iff_ne] at h
  exact ⟨h.1.2, h.2⟩

theorem mem_toRemove :
    path ∈ (env.computeFileDelta state tree).toRemove ↔
      (∃ entry, (storedIndex state).get? path = some entry) ∧ tree.files.get? path = none := by
  refine List.mem_filter.trans ?_
  rw [Assoc.mem_keys_iff, decide_eq_true_eq, Assoc.get?_eq_none_iff]

-- ===== the renames

/-- The pairs found so far: of one hash, and no path twice. -/
structure Pairs (stored : Assoc PyStr IndexedFile) (addHashes : Assoc PyStr PyStr)
    (renames : List (PyStr × PyStr)) : Prop where
  once : (renames.map Prod.snd).Nodup
  same : ∀ r ∈ renames, ∃ entry, stored.get? r.1 = some entry
    ∧ addHashes.get? r.2 = some entry.contentHash

theorem Pairs.claim {addHashes : Assoc PyStr PyStr}
    {renames : List (PyStr × PyStr)} (h : Pairs stored addHashes renames) (old : PyStr) :
    Pairs stored addHashes (claimRename stored addHashes renames old) := by
  unfold claimRename
  split
  next => exact h
  next entry hentry =>
    split
    next => exact h
    next =>
      split
      next => exact h
      next new hnew =>
        have hfound := List.find?_some hnew
        rw [decide_eq_true_eq] at hfound
        constructor
        · rw [List.map_append, List.nodup_append]
          refine ⟨h.once, List.nodup_singleton _, ?_⟩
          intro a ha b hb heq
          obtain rfl : b = new := List.mem_singleton.1 hb
          exact hfound.1 (heq ▸ ha)
        · intro r hr
          rcases List.mem_append.1 hr with hr | hr
          · exact h.same r hr
          · rw [List.mem_singleton.1 hr]
            exact ⟨entry, hentry, hfound.2⟩

theorem pairs_foldl {addHashes : Assoc PyStr PyStr} :
    ∀ (olds : List PyStr) {renames : List (PyStr × PyStr)}, Pairs stored addHashes renames →
      Pairs stored addHashes (olds.foldl (claimRename stored addHashes) renames) := by
  intro olds
  induction olds with
  | nil => exact fun h => h
  | cons old olds ih => exact fun h => ih (h.claim old)

theorem pairs_detectRenames (toRemove : List PyStr) (addHashes : Assoc PyStr PyStr)
    (stored : Assoc PyStr IndexedFile) :
    Pairs stored addHashes (detectRenames toRemove addHashes stored) := by
  have hnil : Pairs stored addHashes [] := ⟨List.nodup_nil, fun r hr => (by cases hr)⟩
  unfold detectRenames
  split
  next => exact hnil
  next => exact pairs_foldl _ hnil

/-- A renamed file is an added one, and has the hash of the one it was. -/
theorem renames_spec {old new : PyStr}
    (h : (old, new) ∈ (env.computeFileDelta state tree).renames) :
    ∃ entry file, (storedIndex state).get? old = some entry ∧ tree.files.get? new = some file
      ∧ (storedIndex state).get? new = none ∧ file.readable = true
      ∧ entry.contentHash = env.sha256 file.bytes := by
  obtain ⟨entry, hentry, hhash⟩ := (pairs_detectRenames _ _ _).same _ h
  obtain ⟨e, he, heq⟩ := List.mem_map.1 (Assoc.mem_of_get? hhash)
  obtain ⟨rfl, hsha⟩ := Prod.mk.inj heq
  obtain ⟨hmem, hadded⟩ := List.mem_filter.1 he
  obtain ⟨hnone, hread⟩ := Bool.and_eq_true_iff.1 hadded
  exact ⟨entry, e.2, hentry, mem_files.1 hmem, Option.isNone_iff_eq_none.1 hnone, hread, hsha.symm⟩

theorem renames_once : ((env.computeFileDelta state tree).renames.map Prod.snd).Nodup :=
  (pairs_detectRenames _ _ _).once

theorem get?_renameSource :
    ∀ (renames : List (PyStr × PyStr)) (found : Assoc PyStr IndexedFile),
      (renames.map Prod.snd).Nodup → ∀ path, (renames.foldl (takeSource stored) found).get? path
        = ((renames.find? fun r => decide (r.2 = path)).bind fun r => stored.get? r.1).or
            (found.get? path) := by
  intro renames
  induction renames with
  | nil => exact fun found _ path => rfl
  | cons r rest ih =>
      intro found hnodup path
      obtain ⟨hnew, hrest⟩ := List.nodup_cons.1 hnodup
      rw [List.foldl_cons, ih _ hrest, List.find?_cons, takeSource]
      by_cases hpath : r.2 = path
      · subst hpath
        have hnone : rest.find? (fun r' => decide (r'.2 = r.2)) = none :=
          List.find?_eq_none.2 fun r' hr' heq =>
            hnew (of_decide_eq_true heq ▸ List.mem_map_of_mem hr')
        rw [hnone, decide_eq_true rfl]
        cases hstored : stored.get? r.1 with
        | none => simp [hstored]
        | some entry => simp [hstored, Assoc.get?_set_self]
      · rw [decide_eq_false hpath]
        cases hstored : stored.get? r.1 with
        | none => rfl
        | some entry =>
            show _ = Option.or _ _
            rw [Assoc.get?_set_of_ne _ _ fun heq => hpath heq.symm]

theorem renameSource_eq_some :
    (renameSource (storedIndex state) (env.computeFileDelta state tree).renames).get? path
        = some entry
      ↔ ∃ old, (old, path) ∈ (env.computeFileDelta state tree).renames
          ∧ (storedIndex state).get? old = some entry := by
  have hnil : Assoc.get? ([] : Assoc PyStr IndexedFile) path = none := rfl
  unfold renameSource
  rw [get?_renameSource _ _ renames_once, hnil, Option.or_none, Option.bind_eq_some_iff]
  constructor
  · intro h
    obtain ⟨r, hr, hentry⟩ := h
    have hsnd : r.2 = path := by simpa using List.find?_some hr
    refine ⟨r.1, ?_, hentry⟩
    rw [← hsnd]
    exact List.mem_of_find?_eq_some hr
  · intro h
    obtain ⟨old, hmem, hentry⟩ := h
    cases hfind : (env.computeFileDelta state tree).renames.find? fun r => decide (r.2 = path) with
    | none => exact absurd (decide_eq_true rfl) (List.find?_eq_none.1 hfind _ hmem)
    | some r =>
        have hsnd : r.2 = path := by simpa using List.find?_some hfind
        have hr := List.mem_of_find?_eq_some hfind
        have heq : r = (old, path) := List.inj_on_of_nodup_map renames_once hr hmem hsnd
        exact ⟨r, rfl, by rw [heq]; exact hentry⟩

-- ===== applying it

theorem path_entryOf {sources : Assoc PyStr IndexedFile}
    (h : env.entryOf tree sources now path = some entry) : entry.path = path := by
  unfold IndexEnv.entryOf at h
  split at h
  next => cases h
  next file =>
    split at h
    next old =>
      cases h
      rfl
    next =>
      unfold IndexEnv.indexOne at h
      split at h
      next =>
        cases h
        rfl
      next => cases h

theorem get?_process {sources : Assoc PyStr IndexedFile} (path : PyStr) :
    ∀ (paths : List PyStr) (index : Assoc PyStr IndexedFile),
      (paths.foldl (env.process tree sources now) index).get? path
        = if path ∈ paths then (env.entryOf tree sources now path).or (index.get? path)
          else index.get? path := by
  intro paths
  induction paths with
  | nil => exact fun index => (if_neg List.not_mem_nil).symm
  | cons p rest ih =>
      intro index
      have hstep : (env.process tree sources now index p).get? path
          = if path = p then (env.entryOf tree sources now path).or (index.get? path)
            else index.get? path := by
        unfold IndexEnv.process
        by_cases hp : path = p
        · subst hp
          rw [if_pos rfl]
          cases hentry : env.entryOf tree sources now path with
          | none => rfl
          | some entry =>
              show (index.set entry.path entry).get? path = some entry
              rw [path_entryOf hentry, Assoc.get?_set_self]
        · rw [if_neg hp]
          cases hentry : env.entryOf tree sources now p with
          | none => rfl
          | some entry => exact Assoc.get?_set_of_ne _ _ fun heq => hp (heq.trans (path_entryOf hentry))
      rw [List.foldl_cons, ih, hstep]
      by_cases hp : path = p
      · rw [if_pos hp, if_pos (List.mem_cons.2 (.inl hp))]
        split
        next =>
          cases env.entryOf tree sources now path with
          | none => rfl
          | some entry => rfl
        next => rfl
      · rw [if_neg hp]
        by_cases hrest : path ∈ rest
        · rw [if_pos hrest, if_pos (List.mem_cons_of_mem p hrest)]
        · rw [if_neg hrest, if_neg fun hmem => (List.mem_cons.1 hmem).elim hp hrest]

theorem get?_pops (path : PyStr) : ∀ (paths : List PyStr) (index : Assoc PyStr IndexedFile),
    (paths.foldl (fun index path => index.pop path) index).get? path
      = if path ∈ paths then none else index.get? path := by
  intro paths
  induction paths with
  | nil => exact fun index => (if_neg List.not_mem_nil).symm
  | cons p rest ih =>
      intro index
      rw [List.foldl_cons, ih]
      by_cases hp : path = p
      · rw [if_pos (List.mem_cons.2 (.inl hp)), hp, Assoc.get?_pop_self, ite_self]
      · rw [Assoc.get?_pop_of_ne _ hp]
        by_cases hrest : path ∈ rest
        · rw [if_pos hrest, if_pos (List.mem_cons_of_mem p hrest)]
        · rw [if_neg hrest, if_neg fun hmem => (List.mem_cons.1 hmem).elim hp hrest]

section

variable (env root git state tree now)

def IndexEnv.compared : Assoc PyStr IndexedFile :=
  (env.applyDelta root git now tree state (env.computeFileDelta state tree)).fileIndex

def IndexEnv.sources : Assoc PyStr IndexedFile :=
  renameSource (storedIndex state) (env.computeFileDelta state tree).renames

end

theorem get?_compared (path : PyStr) :
    (env.compared root git state tree now).get? path
      = if path ∈ (env.computeFileDelta state tree).toProcess then
          (env.entryOf tree (env.sources state tree) now path).or
            (if path ∈ (env.computeFileDelta state tree).toRemove then none
              else (storedIndex state).get? path)
        else if path ∈ (env.computeFileDelta state tree).toRemove then none
          else (storedIndex state).get? path := by
  rw [← get?_pops]
  exact get?_process path _ _

theorem mem_toProcess :
    path ∈ (env.computeFileDelta state tree).toProcess ↔
      path ∈ (env.computeFileDelta state tree).toAdd
        ∨ path ∈ (env.computeFileDelta state tree).toUpdate := List.mem_append

theorem get?_of_missing (h : tree.files.get? path = none) :
    (env.compared root git state tree now).get? path = none := by
  have hprocess : path ∉ (env.computeFileDelta state tree).toProcess := fun hmem => by
    rcases mem_toProcess.1 hmem with hmem | hmem
    · obtain ⟨-, file, hfile, -⟩ := mem_toAdd.1 hmem
      rw [h] at hfile
      cases hfile
    · obtain ⟨-, file, -, hfile, -⟩ := mem_toUpdate.1 hmem
      rw [h] at hfile
      cases hfile
  rw [get?_compared, if_neg hprocess]
  split
  next => rfl
  next hremove =>
    by_contra hstored
    obtain ⟨entry, hentry⟩ := Option.ne_none_iff_exists'.1 hstored
    exact hremove (mem_toRemove.2 ⟨⟨entry, hentry⟩, h⟩)

theorem not_mem_toRemove (h : tree.files.get? path = some file) :
    path ∉ (env.computeFileDelta state tree).toRemove := fun hmem => by
  have hnone := (mem_toRemove.1 hmem).2
  rw [h] at hnone
  cases hnone

theorem get?_of_new (hfile : tree.files.get? path = some file)
    (hstored : (storedIndex state).get? path = none) :
    (env.compared root git state tree now).get? path
      = if file.readable then env.entryOf tree (env.sources state tree) now path else none := by
  rw [get?_compared, if_neg (not_mem_toRemove hfile), hstored]
  by_cases hread : file.readable = true
  · have hadd := (@mem_toAdd env state tree path).2 ⟨hstored, file, hfile, hread⟩
    rw [if_pos (mem_toProcess.2 (.inl hadd)), if_pos hread, Option.or_none]
  · rw [if_neg hread]
    split
    next hmem =>
      rcases mem_toProcess.1 hmem with hmem | hmem
      · obtain ⟨-, file', hfile', hread'⟩ := mem_toAdd.1 hmem
        rw [hfile] at hfile'
        cases hfile'
        exact absurd hread' hread
      · obtain ⟨entry, -, hentry, -⟩ := mem_toUpdate.1 hmem
        rw [hstored] at hentry
        cases hentry
    next => rfl

theorem sources_of_stored
    (h : (storedIndex state).get? path = some entry) :
    (env.sources state tree).get? path = none := by
  by_contra hne
  obtain ⟨old, hold⟩ := Option.ne_none_iff_exists'.1 hne
  obtain ⟨_, hmem, -⟩ := renameSource_eq_some.1 hold
  obtain ⟨-, -, -, -, hnone, -⟩ := renames_spec hmem
  rw [h] at hnone
  cases hnone

theorem entryOf_eq (h : tree.files.get? path = some file) (sources : Assoc PyStr IndexedFile) :
    env.entryOf tree sources now path
      = (sources.get? path).elim (env.indexOne path file now) fun old =>
          some (reindexRenamed path file old now) := by
  unfold IndexEnv.entryOf
  simp only [h]
  cases sources.get? path with
  | none => rfl
  | some old => rfl

theorem get?_of_updated (hfile : tree.files.get? path = some file)
    (h : path ∈ (env.computeFileDelta state tree).toUpdate) :
    (env.compared root git state tree now).get? path = env.indexOne path file now := by
  obtain ⟨entry, file', hentry, hfile', hupdated⟩ := mem_toUpdate.1 h
  rw [hfile] at hfile'
  cases hfile'
  rw [get?_compared, if_pos (mem_toProcess.2 (.inr h)), entryOf_eq hfile, sources_of_stored hentry]
  have hread := (isUpdated_spec hentry hupdated).1
  show (env.indexOne path file now).or _ = _
  rw [IndexEnv.indexOne, if_pos hread]
  rfl

theorem get?_of_kept
    (hfile : tree.files.get? path = some file) (hentry : (storedIndex state).get? path = some entry)
    (h : path ∉ (env.computeFileDelta state tree).toUpdate) :
    (env.compared root git state tree now).get? path = some entry := by
  have hprocess : path ∉ (env.computeFileDelta state tree).toProcess := fun hmem => by
    rcases mem_toProcess.1 hmem with hmem | hmem
    · have hnone := (mem_toAdd.1 hmem).1
      rw [hentry] at hnone
      cases hnone
    · exact h hmem
  rw [get?_compared, if_neg hprocess, if_neg (not_mem_toRemove hfile), hentry]

-- ===== the theorem

/-- A renamed file's entry is the fresh one exactly when its new path says
the same of it. -/
theorem reindexRenamed_undated {old : IndexedFile}
    (hread : file.readable = true) (hhash : old.contentHash = env.sha256 file.bytes) :
    (some (reindexRenamed path file old now)).map IndexedFile.undated
        = (env.indexOne path file now).map IndexedFile.undated
      ↔ env.parseFile path file.bytes = (old.language, old.symbolCount) := by
  rw [IndexEnv.indexOne, if_pos hread, Option.map_some, Option.map_some, Option.some.injEq,
    IndexedFile.undated, IndexedFile.undated, reindexRenamed]
  simp only [IndexedFile.mk.injEq, hhash, Prod.ext_iff]
  tauto

theorem freshEntry_of_file (h : tree.files.get? path = some file) :
    env.freshEntry tree now path = env.indexOne path file now := by
  rw [IndexEnv.freshEntry, h]
  rfl

theorem compared_iff :
    (∀ path, ((env.compared root git state tree now).get? path).map IndexedFile.undated
        = (env.freshEntry tree now path).map IndexedFile.undated)
      ↔ (∀ path entry file, (storedIndex state).get? path = some entry →
          tree.files.get? path = some file → path ∉ (env.computeFileDelta state tree).toUpdate →
          (env.indexOne path file now).map IndexedFile.undated = some entry.undated)
        ∧ ∀ old new entry file, (old, new) ∈ (env.computeFileDelta state tree).renames →
          (storedIndex state).get? old = some entry → tree.files.get? new = some file →
          env.parseFile new file.bytes = (entry.language, entry.symbolCount) := by
  have hnew : ∀ {old new entry file}, (old, new) ∈ (env.computeFileDelta state tree).renames →
      (storedIndex state).get? old = some entry → tree.files.get? new = some file →
      file.readable = true ∧ entry.contentHash = env.sha256 file.bytes
        ∧ (env.compared root git state tree now).get? new
            = some (reindexRenamed new file entry now) := by
    intro old new entry file hmem hentry hfile
    obtain ⟨entry', file', hentry', hfile', hnone, hread, hhash⟩ := renames_spec hmem
    rw [hentry] at hentry'
    rw [hfile] at hfile'
    cases hentry'
    cases hfile'
    have hsource : (env.sources state tree).get? new = some entry :=
      renameSource_eq_some.2 ⟨old, hmem, hentry⟩
    refine ⟨hread, hhash, ?_⟩
    rw [get?_of_new hfile hnone, if_pos hread, entryOf_eq hfile, hsource]
    rfl
  constructor
  · intro h
    constructor
    · intro path entry file hentry hfile hupdate
      have hpath := h path
      rw [get?_of_kept hfile hentry hupdate, freshEntry_of_file hfile] at hpath
      exact hpath.symm
    · intro old new entry file hmem hentry hfile
      obtain ⟨hread, hhash, hget⟩ := hnew hmem hentry hfile
      have hpath := h new
      rw [hget, freshEntry_of_file hfile] at hpath
      exact (reindexRenamed_undated hread hhash).1 hpath
  · intro h path
    obtain ⟨hkept, hrenamed⟩ := h
    cases hfile : tree.files.get? path with
    | none =>
        rw [get?_of_missing hfile, IndexEnv.freshEntry, hfile]
        rfl
    | some file =>
        rw [freshEntry_of_file hfile]
        cases hstored : (storedIndex state).get? path with
        | none =>
            by_cases hread : file.readable = true
            · cases hsource : (env.sources state tree).get? path with
              | none =>
                  rw [get?_of_new hfile hstored, if_pos hread, entryOf_eq hfile, hsource]
                  rfl
              | some entry =>
                  obtain ⟨old, hmem, hentry⟩ := renameSource_eq_some.1 hsource
                  obtain ⟨-, hhash, hget⟩ := hnew hmem hentry hfile
                  rw [hget]
                  exact (reindexRenamed_undated hread hhash).2 (hrenamed _ _ _ _ hmem hentry hfile)
            · rw [get?_of_new hfile hstored, if_neg hread, IndexEnv.indexOne, if_neg hread]
        | some entry =>
            by_cases hupdate : path ∈ (env.computeFileDelta state tree).toUpdate
            · rw [get?_of_updated hfile hupdate]
            · rw [get?_of_kept hfile hstored hupdate, hkept path entry file hstored hfile hupdate]
              rfl

/-- Where there is nothing to do, what git says makes no difference. -/
theorem computeDelta_of_quiet
    (h : unmoved git state = true → (env.computeFileDelta state tree).isEmpty = true) :
    env.computeDelta git state tree = env.computeFileDelta state tree := by
  unfold IndexEnv.computeDelta
  split
  next hunmoved =>
    have hempty := h hunmoved
    simp only [IndexDelta.isEmpty, Bool.and_eq_true, List.isEmpty_iff] at hempty
    obtain ⟨⟨hadd, hupdate⟩, hremove⟩ := hempty
    have hrenames : (env.computeFileDelta state tree).renames = [] := by
      have heq : (env.computeFileDelta state tree).renames
          = detectRenames (env.computeFileDelta state tree).toRemove _ _ := rfl
      rw [heq, hremove]
      exact if_pos (.inl rfl)
    generalize env.computeFileDelta state tree = delta at hadd hupdate hremove hrenames ⊢
    cases delta
    simp only at hadd hupdate hremove hrenames
    rw [hadd, hupdate, hremove, hrenames]
  next => rfl

/-- Where something is to do, a state that stays is not the fresh one. -/
theorem not_same_of_unmoved
    (hempty : (env.computeFileDelta state tree).isEmpty ≠ true)
    (h : ∀ path, ((storedIndex state).get? path).map IndexedFile.undated
      = (env.freshEntry tree now path).map IndexedFile.undated) : False := by
  refine hempty ?_
  simp only [IndexDelta.isEmpty, Bool.and_eq_true, List.isEmpty_iff, List.eq_nil_iff_forall_not_mem]
  refine ⟨⟨fun path hmem => ?_, fun path hmem => ?_⟩, fun path hmem => ?_⟩
  · obtain ⟨hnone, file, hfile, hread⟩ := mem_toAdd.1 hmem
    have hpath := h path
    rw [hnone, freshEntry_of_file hfile, IndexEnv.indexOne, if_pos hread] at hpath
    cases hpath
  · obtain ⟨entry, file, hentry, hfile, hupdated⟩ := mem_toUpdate.1 hmem
    obtain ⟨hread, hhash⟩ := isUpdated_spec hentry hupdated
    have hpath := h path
    rw [hentry, freshEntry_of_file hfile, IndexEnv.indexOne, if_pos hread] at hpath
    exact hhash (congrArg IndexedFile.contentHash (Option.some.inj hpath))
  · obtain ⟨hstored, hfile⟩ := mem_toRemove.1 hmem
    obtain ⟨entry, hentry⟩ := hstored
    have hpath := h path
    rw [hentry, IndexEnv.freshEntry, hfile] at hpath
    cases hpath

/-- A delta leaves the fresh index exactly when git is right that there is
nothing to do, every entry that stays is its file's, and no renamed file's
language or symbols depend on its path. -/
theorem sameIndex_iff (env : IndexEnv) (root : PyStr) (git : GitView) (state : Option IndexState)
    (tree : Tree) (now : Rat) :
    SameIndex env root git state tree now ↔ Rederivable env git state tree now := by
  constructor
  · intro h
    have hquiet : unmoved git state = true → (env.computeFileDelta state tree).isEmpty = true := by
      intro hunmoved
      by_contra hempty
      refine @not_same_of_unmoved env state tree now hempty fun path => ?_
      have hpath := h path
      rw [IndexEnv.computeDelta, if_pos hunmoved] at hpath
      exact hpath
    unfold SameIndex at h
    rw [computeDelta_of_quiet hquiet] at h
    obtain ⟨hkept, hrenamed⟩ := compared_iff.1 h
    exact ⟨hquiet, hkept, hrenamed⟩
  · intro h
    unfold SameIndex
    rw [computeDelta_of_quiet h.quiet]
    exact compared_iff.2 ⟨h.kept, h.renamed⟩

def plainEnv : IndexEnv where
  sha256 _ := "h".toList
  symbols _ _ := some 1

def pythonEntry : IndexedFile where
  path := "a.py".toList
  contentHash := "h".toList
  language := "python".toList
  symbolCount := 1
  indexedAt := 0
  mtime := 1
  size := 1

def pythonState : IndexState := ⟨[], none, 0, [("a.py".toList, pythonEntry)]⟩

def scriptTree : Tree := ⟨[("a.js".toList, ⟨1, [120], true⟩)], by simp [Assoc.keys]⟩

/-- A file renamed to another language keeps its language. -/
theorem not_sameIndex_renamed :
    ¬ SameIndex plainEnv [] ⟨none, false⟩ (some pythonState) scriptTree 0 := by
  intro h
  have hrenames : ("a.py".toList, "a.js".toList)
      ∈ (plainEnv.computeFileDelta (some pythonState) scriptTree).renames := by
    show _ ∈ detectRenames ["a.py".toList] [("a.js".toList, "h".toList)] _
    unfold detectRenames claimRename Assoc.keys
    rw [if_neg (by decide), List.mergeSort_singleton, List.map_cons, List.map_nil,
      List.mergeSort_singleton]
    decide
  have hparse := (compared_iff.1 h).2 _ _ pythonEntry ⟨1, [120], true⟩ hrenames rfl rfl
  have hlanguage : (plainEnv.parseFile "a.js".toList [120]).1 = "javascript".toList := by
    have hname : detectLanguage "a.js".toList = "javascript".toList := by decide
    unfold IndexEnv.parseFile
    split
    next => exact hname
    next =>
      dsimp only
      split
      next => exact hname
      next => exact hname
  rw [hparse] at hlanguage
  exact absurd hlanguage (by decide)

-- ===== further updates

section Further

variable {env : IndexEnv} {root : PyStr} {git : GitView} {state : Option IndexState} {tree : Tree}
  {now : Rat} {path : PyStr} {file : DiskFile} {entry : IndexedFile}

def IndexEnv.Settled (env : IndexEnv) (tree : Tree) (state : Option IndexState) : Prop :=
  (env.computeFileDelta state tree).isEmpty = true

theorem settled_iff : env.Settled tree state ↔
    (env.computeFileDelta state tree).toAdd = [] ∧ (env.computeFileDelta state tree).toUpdate = []
      ∧ (env.computeFileDelta state tree).toRemove = [] := by
  unfold IndexEnv.Settled IndexDelta.isEmpty
  simp only [Bool.and_eq_true, List.isEmpty_iff, and_assoc]

/-- A file that can be read has an entry, and a new entry has its hash. -/
theorem compared_hash (hfile : tree.files.get? path = some file) (hread : file.readable = true) :
    ∃ entry, (env.compared root git state tree now).get? path = some entry
      ∧ ((storedIndex state).get? path = some entry
            ∧ path ∉ (env.computeFileDelta state tree).toUpdate
          ∨ entry.contentHash = env.sha256 file.bytes) := by
  have hindex : ∃ entry, env.indexOne path file now = some entry
      ∧ entry.contentHash = env.sha256 file.bytes := by
    rw [IndexEnv.indexOne, if_pos hread]
    exact ⟨_, rfl, rfl⟩
  cases hstored : (storedIndex state).get? path with
  | none =>
      rw [get?_of_new hfile hstored, if_pos hread, entryOf_eq hfile]
      cases hsource : (env.sources state tree).get? path with
      | none =>
          obtain ⟨entry, hentry, hhash⟩ := hindex
          exact ⟨entry, hentry, .inr hhash⟩
      | some old =>
          obtain ⟨_, hmem, hold⟩ := renameSource_eq_some.1 hsource
          obtain ⟨entry, file', hentry, hfile', -, -, hhash⟩ := renames_spec hmem
          cases hold.symm.trans hentry
          cases hfile.symm.trans hfile'
          exact ⟨_, rfl, .inr hhash⟩
  | some old =>
      by_cases hupdate : path ∈ (env.computeFileDelta state tree).toUpdate
      · rw [get?_of_updated hfile hupdate]
        obtain ⟨entry, hentry, hhash⟩ := hindex
        exact ⟨entry, hentry, .inr hhash⟩
      · exact ⟨old, get?_of_kept hfile hstored hupdate, .inl ⟨rfl, hupdate⟩⟩

/-- What a delta leaves has nothing more to learn from the same tree. -/
theorem settled_apply :
    env.Settled tree
      (some (env.applyDelta root git now tree state (env.computeFileDelta state tree))) := by
  refine settled_iff.2 ⟨?_, ?_, ?_⟩ <;> refine List.eq_nil_iff_forall_not_mem.2 fun path hmem => ?_
  · obtain ⟨hnone, file, hfile, hread⟩ := mem_toAdd.1 hmem
    obtain ⟨entry, hentry, -⟩ := compared_hash hfile hread
    cases hnone.symm.trans hentry
  · obtain ⟨entry, file, hentry, hfile, hupdated⟩ := mem_toUpdate.1 hmem
    obtain ⟨hread, hhash⟩ := isUpdated_spec hentry hupdated
    obtain ⟨entry', hentry', ⟨hstored, hkept⟩ | hsame⟩ := compared_hash hfile hread
    all_goals cases hentry.symm.trans hentry'
    · -- what an entry tells of a change is the same before and after
      refine hkept (mem_toUpdate.2 ⟨entry, file, hstored, hfile, ?_⟩)
      unfold IndexEnv.isUpdated at hupdated ⊢
      dsimp only at hupdated ⊢
      rw [hentry] at hupdated
      rwa [hstored]
    · exact hhash hsame
  · obtain ⟨⟨entry, hentry⟩, hfile⟩ := mem_toRemove.1 hmem
    cases (get?_of_missing hfile).symm.trans hentry

theorem settled_update (h : env.Settled tree state) :
    (env.applyDelta root git now tree state (env.computeDelta git state tree)).fileIndex
      = storedIndex state := by
  obtain ⟨hadd, hupdate, hremove⟩ := settled_iff.1 h
  unfold IndexEnv.computeDelta
  split
  · rfl
  · unfold IndexEnv.applyDelta IndexDelta.toProcess
    dsimp only
    rw [hadd, hupdate, hremove]
    rfl

end Further

/-- One update after another of a tree that is not edited, each with what
git says then and its time. -/
def IndexEnv.updates (env : IndexEnv) (root : PyStr) (tree : Tree) :
    List (GitView × Rat) → IndexState → IndexState
  | [], state => state
  | (git, now) :: more, state =>
      env.updates root tree more
        (env.applyDelta root git now tree (some state) (env.computeDelta git (some state) tree))

/-- Once an update has looked at the files, any number of further ones
leaves the index as it is, whatever git says. -/
theorem updates_settle {env : IndexEnv} {root : PyStr} {git : GitView} {state : Option IndexState}
    {tree : Tree} {now : Rat} (hmoved : unmoved git state = false) (more : List (GitView × Rat)) :
    (env.updates root tree more
        (env.applyDelta root git now tree state (env.computeDelta git state tree))).fileIndex
      = (env.applyDelta root git now tree state (env.computeDelta git state tree)).fileIndex := by
  have hdelta : env.computeDelta git state tree = env.computeFileDelta state tree := by
    rw [IndexEnv.computeDelta, hmoved]
    rfl
  rw [hdelta]
  have hsettled := @settled_apply env root git state tree now
  generalize env.applyDelta root git now tree state (env.computeFileDelta state tree) = s at hsettled ⊢
  induction more generalizing s with
  | nil => rfl
  | cons update more ih =>
      have hsame := @settled_update env root update.1 (some s) tree update.2 hsettled
      refine (ih _ ?_).trans hsame
      unfold IndexEnv.Settled IndexEnv.computeFileDelta storedIndex at hsettled ⊢
      rw [Option.map_some, Option.getD_some, hsame]
      exact hsettled

/-- The renamed file keeps its language, and is left alone from then on. -/
theorem updates_settle_script :
    (plainEnv.updates [] scriptTree [(⟨none, true⟩, 1), (⟨none, false⟩, 2)]
        (plainEnv.applyDelta [] ⟨none, false⟩ 0 scriptTree (some pythonState)
          (plainEnv.computeDelta ⟨none, false⟩ (some pythonState) scriptTree))).fileIndex
      = (plainEnv.applyDelta [] ⟨none, false⟩ 0 scriptTree (some pythonState)
          (plainEnv.computeDelta ⟨none, false⟩ (some pythonState) scriptTree)).fileIndex :=
  updates_settle rfl _

end Velune.Repository
