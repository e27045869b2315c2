/-
When search results without a marker are complete.

Without the marker every candidate has been looked at and every line of it
tried (`grepFiles_unmarked`): the hits are those of the lines that the
worker makes of the bytes of the files the walk came to. So they are
complete exactly when the walk comes to each file that has something to
show, and the lines the worker makes match where the lines that `read_file`
shows do (`complete_iff`).
-/
import Mathlib.Data.List.Nodup
import Velune.Tools.Proofs.Read
import Velune.Tools.Search

namespace Velune.Tools

open Lib

variable {env : SearchEnv}

-- ===== the files

mutual

/-- The files of an entry, of all or only through directories that can be
listed. -/
def Entry.files (all : Bool) (path : List PyStr) : Entry → List Found
  | .file data => [⟨path, data⟩]
  | .dir listable entries => if all || listable then entries.files all path else []
  | .other => []

def Entries.files (all : Bool) (here : List PyStr) : Entries → List Found
  | .nil => []
  | .cons name entry rest => entry.files all (here ++ [name]) ++ rest.files all here

end

def Folder.files (all : Bool) (top : Folder) : List Found :=
  if all || top.listable then top.entries.files all top.place else []

theorem ignored_mono {p q : List PyStr} (hpre : p <+: q) (h : env.ignored p = true) :
    env.ignored q = true := by
  obtain ⟨above, hmem, habove⟩ := List.any_eq_true.1 h
  exact List.any_eq_true.2 ⟨above, (List.mem_inits _ _).2 (((List.mem_inits _ _).1 hmem).trans hpre), habove⟩

mutual

theorem Entry.path_of_mem {all : Bool} {path : List PyStr} {f : Found} :
    ∀ {entry : Entry}, f ∈ entry.files all path → path <+: f.path
  | .file data, h => by
      rw [Entry.files, List.mem_singleton] at h
      rw [h]
  | .dir listable entries, h => by
      rw [Entry.files] at h
      split at h
      next =>
        obtain ⟨name, -, hpath⟩ := Entries.path_of_mem h
        exact (List.prefix_append path [name]).trans hpath
      next => cases h
  | .other, h => by
      rw [Entry.files] at h
      cases h

theorem Entries.path_of_mem {all : Bool} {here : List PyStr} {f : Found} :
    ∀ {entries : Entries}, f ∈ entries.files all here →
      ∃ name, name ∈ entries.names ∧ here ++ [name] <+: f.path
  | .nil, h => by
      rw [Entries.files] at h
      cases h
  | .cons name entry rest, h => by
      rw [Entries.files] at h
      rcases List.mem_append.1 h with hmem | hmem
      · exact ⟨name, List.mem_cons_self, Entry.path_of_mem hmem⟩
      · obtain ⟨other, hother, hpath⟩ := Entries.path_of_mem hmem
        exact ⟨other, List.mem_cons_of_mem name hother, hpath⟩

end

mutual

/-- The walk comes to the files that are shown, in directories that can be
listed, with one of the extensions. -/
theorem scanEntry_eq (extensions : Option (List PyStr)) {path : List PyStr}
    (hshown : env.ignored path = false) : ∀ entry : Entry,
      scanEntry env extensions path entry = (entry.files false path).filter fun f =>
        !env.ignored f.path && env.wanted extensions f.path
  | .file data => by
      rw [scanEntry, Entry.files]
      cases hwanted : env.wanted extensions path with
      | false => simp [hwanted]
      | true => simp [hwanted, hshown]
  | .dir listable entries => by
      rw [scanEntry, Entry.files]
      cases listable with
      | false => rfl
      | true => exact recursiveScan_eq extensions path entries
  | .other => rfl

theorem recursiveScan_eq (extensions : Option (List PyStr)) (here : List PyStr) :
    ∀ entries : Entries, recursiveScan env extensions here entries
      = (entries.files false here).filter fun f =>
          !env.ignored f.path && env.wanted extensions f.path
  | .nil => rfl
  | .cons name entry rest => by
      rw [recursiveScan, Entries.files, List.filter_append, recursiveScan_eq extensions here rest]
      congr 1
      cases hignored : env.ignored (here ++ [name]) with
      | false => exact scanEntry_eq extensions hignored entry
      | true =>
          symm
          rw [if_pos rfl, List.filter_eq_nil_iff]
          intro f hf
          have hbelow := ignored_mono (Entry.path_of_mem hf) hignored
          simp [hbelow]

end

theorem scan_eq (extensions : Option (List PyStr)) (top : Folder) :
    scan env extensions top = (top.files false).filter fun f =>
      !env.ignored f.path && env.wanted extensions f.path := by
  unfold scan Folder.files
  cases top.listable with
  | false => rfl
  | true => exact recursiveScan_eq extensions top.place top.entries

mutual

theorem Entry.files_distinct {path : List PyStr} : ∀ {entry : Entry}, entry.Distinct →
    (entry.files true path).Pairwise fun f g => f.path ≠ g.path
  | .file data, _ => List.pairwise_singleton _ _
  | .dir listable entries, h => @Entries.files_distinct path entries h
  | .other, _ => List.Pairwise.nil

theorem Entries.files_distinct {here : List PyStr} : ∀ {entries : Entries}, entries.Distinct →
    (entries.files true here).Pairwise fun f g => f.path ≠ g.path
  | .nil, _ => List.Pairwise.nil
  | .cons name entry rest, h => by
      rw [Entries.files, List.pairwise_append]
      refine ⟨Entry.files_distinct h.2.1, Entries.files_distinct h.2.2, ?_⟩
      intro f hf g hg heq
      have hfirst := Entry.path_of_mem hf
      obtain ⟨other, hother, hsecond⟩ := Entries.path_of_mem hg
      rw [heq] at hfirst
      have hsame : here ++ [name] = here ++ [other] :=
        (List.prefix_of_prefix_length_le hfirst hsecond (by simp)).eq_of_length (by simp)
      have hname : name = other := by simpa using hsame
      exact h.1 (hname ▸ hother)

end

mutual

theorem Entry.files_sublist {path : List PyStr} : ∀ entry : Entry,
    (entry.files false path).Sublist (entry.files true path)
  | .file data => List.Sublist.refl _
  | .dir listable entries => by
      rw [Entry.files, Entry.files]
      cases listable with
      | false => exact List.nil_sublist _
      | true => exact Entries.files_sublist entries
  | .other => List.Sublist.refl _

theorem Entries.files_sublist {here : List PyStr} : ∀ entries : Entries,
    (entries.files false here).Sublist (entries.files true here)
  | .nil => List.Sublist.refl _
  | .cons name entry rest => by
      rw [Entries.files, Entries.files]
      exact (Entry.files_sublist entry).append (Entries.files_sublist rest)

end

theorem Folder.files_distinct (top : Folder) :
    (top.files true).Pairwise fun f g => f.path ≠ g.path := Entries.files_distinct top.distinct

theorem Folder.files_sublist (top : Folder) : (top.files false).Sublist (top.files true) := by
  unfold Folder.files
  cases top.listable with
  | false => exact List.nil_sublist _
  | true => exact Entries.files_sublist top.entries

-- ===== the loops

theorem takeFiles_eq (filePattern : PyStr) : ∀ (candidates files : List Found),
    (takeFiles env filePattern candidates files).2 = false →
      (takeFiles env filePattern candidates files).1
        = files ++ candidates.filter fun f => env.named filePattern f.path := by
  intro candidates
  induction candidates with
  | nil => exact fun files _ => (List.append_nil files).symm
  | cons f rest ih =>
      intro files h
      rw [takeFiles] at h ⊢
      by_cases hnamed : env.named filePattern f.path = true
      · rw [if_pos hnamed] at h ⊢
        split at h
        next => cases h
        next hroom =>
          rw [if_neg hroom, ih _ h, List.filter_cons, if_pos hnamed, List.append_assoc]
          rfl
      · rw [if_neg hnamed] at h ⊢
        rw [ih _ h, List.filter_cons, if_neg hnamed]

variable (env) in
/-- The hits of the lines of a file, from line `lineno` on. -/
def lineHits (path : List PyStr) : Nat → List PyStr → List Hit
  | _, [] => []
  | lineno, line :: lines =>
      ((env.rx (clipLine line)).toList.map fun found =>
        ⟨path, lineno, found.take GREP_TEXT_CHARS, hitText (clipLine line)⟩)
        ++ lineHits path (lineno + 1) lines

variable (env) in
def fileHits (f : Found) : List Hit :=
  match lookAt f.data with
  | .text data => lineHits env f.path 1 (workerLines data)
  | _ => []

theorem scanLines_eq (path : List PyStr) : ∀ (lines : List PyStr) (lineno : Nat) (st : Progress),
    (scanLines env path lineno lines st).stop = none →
      (scanLines env path lineno lines st).hits = st.hits ++ lineHits env path lineno lines := by
  intro lines
  induction lines with
  | nil => exact fun _ st _ => (List.append_nil st.hits).symm
  | cons line lines ih =>
      intro lineno st h
      rw [scanLines] at h ⊢
      rw [lineHits]
      cases hrx : env.rx (clipLine line) with
      | none =>
          rw [hrx] at h
          exact ih _ _ h
      | some found =>
          rw [hrx] at h
          simp only at h ⊢
          split at h
          next hstop =>
            rw [h] at hstop
            cases hstop
          next hgo =>
            rw [if_neg hgo, ih _ _ h]
            simp [Progress.emit]

theorem scanFiles_skips : ∀ (files : List Found) (st : Progress) (report : Report),
    report.skippedLarge ≤ (scanFiles env files st report).2.skippedLarge := by
  intro files
  induction files with
  | nil => exact fun _ _ => Nat.le_refl _
  | cons f files ih =>
      intro st report
      rw [scanFiles]
      split
      next => exact ih st { report with skippedUnreadable := report.skippedUnreadable + 1 }
      next => exact ih st { report with skippedBinary := report.skippedBinary + 1 }
      next =>
        have hmore := ih st { report with skippedLarge := report.skippedLarge + 1 }
        exact (Nat.le_succ _).trans hmore
      next =>
        simp only
        split
        · exact Nat.le_refl _
        · exact ih _ { report with scanned := report.scanned + 1 }

/-- A run that is not stopped and passes no large file has looked into every
file. -/
theorem scanFiles_eq : ∀ (files : List Found) (st : Progress) (report : Report), st.stop = none →
    (scanFiles env files st report).1.stop = none →
    (scanFiles env files st report).2.skippedLarge = report.skippedLarge →
      (scanFiles env files st report).1.hits = st.hits ++ files.flatMap (fileHits env) ∧
        ∀ f ∈ files, lookAt f.data ≠ .large := by
  intro files
  induction files with
  | nil => exact fun st _ _ _ _ => ⟨(List.append_nil st.hits).symm, List.forall_mem_nil _⟩
  | cons f files ih =>
      intro st report hst hstop hlarge
      rw [scanFiles] at hstop hlarge ⊢
      rw [List.flatMap_cons, List.forall_mem_cons]
      have hskip (looked : Looked) (hlook : lookAt f.data = looked)
          (htext : ∀ data, looked ≠ .text data) : fileHits env f = [] := by
        unfold fileHits
        rw [hlook]
        cases looked with
        | text data => exact absurd rfl (htext data)
        | unreadable | binary | large => rfl
      cases hlook : lookAt f.data with
      | unreadable =>
          rw [hlook] at hstop hlarge
          obtain ⟨hhits, hrest⟩ := ih st _ hst hstop hlarge
          rw [hskip _ hlook fun _ h => (by cases h), List.nil_append]
          exact ⟨hhits, fun h => (by cases h), hrest⟩
      | binary =>
          rw [hlook] at hstop hlarge
          obtain ⟨hhits, hrest⟩ := ih st _ hst hstop hlarge
          rw [hskip _ hlook fun _ h => (by cases h), List.nil_append]
          exact ⟨hhits, fun h => (by cases h), hrest⟩
      | large =>
          rw [hlook] at hlarge
          have hmore := @scanFiles_skips env files st
            { report with skippedLarge := report.skippedLarge + 1 }
          simp only at hlarge hmore
          omega
      | text data =>
          rw [hlook] at hstop hlarge
          simp only at hstop hlarge ⊢
          have hhits : fileHits env f = lineHits env f.path 1 (workerLines data) := by
            unfold fileHits
            rw [hlook]
          split at hstop
          next hstopped =>
            rw [hstop] at hstopped
            cases hstopped
          next hgo =>
            rw [if_neg hgo] at hlarge ⊢
            have hnone : (scanLines env f.path 1 (workerLines data) st).stop = none := by
              simpa using hgo
            obtain ⟨hrest, hlarges⟩ := ih _ _ hnone hstop hlarge
            rw [hrest, scanLines_eq f.path _ 1 st hnone, hhits, List.append_assoc]
            exact ⟨rfl, fun h => (by cases h), hlarges⟩

theorem mem_lineHits {path : List PyStr} {h : Hit} : ∀ {lines : List PyStr} {lineno : Nat},
    h ∈ lineHits env path lineno lines ↔
      ∃ i line found, lines[i]? = some line ∧ env.rx (clipLine line) = some found ∧
        h = ⟨path, lineno + i, found.take GREP_TEXT_CHARS, hitText (clipLine line)⟩ := by
  intro lines
  induction lines with
  | nil =>
      intro lineno
      constructor
      · intro hmem
        cases hmem
      · intro hex
        obtain ⟨i, line, found, hline, -⟩ := hex
        simp at hline
  | cons line lines ih =>
      intro lineno
      rw [lineHits, List.mem_append, ih, List.mem_map]
      constructor
      · intro hmem
        rcases hmem with ⟨found, hfound, heq⟩ | ⟨i, other, found, hline, hrx, heq⟩
        · exact ⟨0, line, found, rfl, by simpa using hfound, heq.symm⟩
        · exact ⟨i + 1, other, found, hline, hrx, by rw [heq, Nat.add_assoc, Nat.add_comm 1 i]⟩
      · intro hex
        obtain ⟨i, other, found, hline, hrx, heq⟩ := hex
        cases i with
        | zero =>
            cases hline
            exact .inl ⟨found, by simpa using hrx, heq.symm⟩
        | succ i => exact .inr ⟨i, other, found, hline, hrx, by rw [heq, Nat.add_assoc, Nat.add_comm 1 i]⟩

theorem lineHits_distinct (path : List PyStr) : ∀ (lines : List PyStr) (lineno : Nat),
    (lineHits env path lineno lines).Pairwise fun g h => g.line ≠ h.line := by
  intro lines
  induction lines with
  | nil => exact fun _ => List.Pairwise.nil
  | cons line lines ih =>
      intro lineno
      rw [lineHits, List.pairwise_append]
      refine ⟨?_, ih _, ?_⟩
      · cases env.rx (clipLine line) with
        | none => exact List.Pairwise.nil
        | some found => exact List.pairwise_singleton _ _
      · intro g hg h hh heq
        obtain ⟨found, -, rfl⟩ := List.mem_map.1 hg
        obtain ⟨i, other, found', -, -, rfl⟩ := mem_lineHits.1 hh
        simp only at heq
        omega

-- ===== completeness

/-- The lines `read_file` shows of a file, if it shows it as text. -/
def shownLines (data : Option (List UInt8)) : List PyStr :=
  ((data.bind fun bytes => (chooseEncoding bytes [] bytes.length true).toOption.bind fun encoding =>
    encoding.decode bytes).map fun text => linesOf (normalized text)).getD []

/-- The expression matches in line `n`, which is `text`. -/
def MatchAt (rx : PyStr → Option PyStr) (lines : List PyStr) (n : Nat) (text : PyStr) : Prop :=
  0 < n ∧ lines[n - 1]? = some text ∧ (rx text).isSome

/-- It matches in what the worker keeps of line `n`, of which a hit shows
`text`. -/
def SeenAt (rx : PyStr → Option PyStr) (lines : List PyStr) (n : Nat) (text : PyStr) : Prop :=
  0 < n ∧ ∃ line, lines[n - 1]? = some line ∧ (rx (clipLine line)).isSome ∧
    text = hitText (clipLine line)

def SearchItem.hit? : SearchItem → Option Hit
  | .hit h => some h
  | _ => none

def Unmarked (items : List SearchItem) : Prop :=
  ∀ reasons report, SearchItem.marker reasons report ∉ items

variable (env) in
/-- One hit for every line that matches of every file that is shown, with a
name that is asked for; and nothing else. -/
structure Complete (filePattern : PyStr) (top : Folder) (items : List SearchItem) : Prop where
  only : ∀ item ∈ items, ∃ h, item = .hit h
  once : (items.filterMap SearchItem.hit?).Pairwise fun g h => ¬(g.file = h.file ∧ g.line = h.line)
  exact : ∀ path n text,
    (∃ h ∈ items.filterMap SearchItem.hit?, h.file = path ∧ h.line = n ∧ h.text = text) ↔
      ∃ f ∈ top.files true, f.path = path ∧ env.ignored f.path = false ∧
        env.named filePattern f.path = true ∧ MatchAt env.rx (shownLines f.data) n text

def Found.bytes (f : Found) : List UInt8 := f.data.getD []

variable (env) in
structure Searched (filePattern : PyStr) (top : Folder) (f : Found) : Prop where
  listed : f ∈ top.files false
  wanted : env.wanted (extensionsOf filePattern) f.path = true
  opens : f.data ≠ none
  noZero : (f.bytes.take BINARY_SNIFF_BYTES).contains 0 = false

variable (env) in
/-- The worker's lines of a file that is searched match where `read_file`'s
do, with the same text; a file that is not has no line that matches. -/
structure Agrees (filePattern : PyStr) (top : Folder) (f : Found) : Prop where
  searched : Searched env filePattern top f → ∀ n text,
    SeenAt env.rx (workerLines f.bytes) n text ↔ MatchAt env.rx (shownLines f.data) n text
  passed : ¬Searched env filePattern top f → ∀ n text, ¬MatchAt env.rx (shownLines f.data) n text

/-- What the worker has read of a file that is not too large is all of it. -/
theorem lookAt_some {bytes : List UInt8} (hlarge : lookAt (some bytes) ≠ .large)
    (hzero : (bytes.take BINARY_SNIFF_BYTES).contains 0 = false) :
    lookAt (some bytes) = .text bytes := by
  have hsniff : BINARY_SNIFF_BYTES = 8192 := rfl
  have hmax : GREP_MAX_FILE_BYTES = 1048576 := rfl
  have hne : ¬(bytes.take BINARY_SNIFF_BYTES).contains 0 = true := by
    rw [hzero]
    exact Bool.false_ne_true
  simp only [lookAt, if_neg hne] at hlarge ⊢
  split
  next hfull =>
    rw [if_pos hfull] at hlarge
    split
    next hover => exact absurd (if_pos hover) hlarge
    next hroom =>
      rw [hfull, List.length_take, List.length_drop] at hroom
      have hrest : (bytes.drop BINARY_SNIFF_BYTES).take (GREP_MAX_FILE_BYTES - BINARY_SNIFF_BYTES + 1)
          = bytes.drop BINARY_SNIFF_BYTES :=
        List.take_of_length_le (by rw [List.length_drop]; omega)
      rw [hrest, List.take_append_drop]
  next hshort =>
    rw [List.length_take] at hshort
    rw [List.take_of_length_le (by omega)]

theorem lookAt_text {f : Found} (hlarge : lookAt f.data ≠ .large) {data : List UInt8} :
    lookAt f.data = .text data ↔ f.data ≠ none ∧
      (f.bytes.take BINARY_SNIFF_BYTES).contains 0 = false ∧ data = f.bytes := by
  unfold Found.bytes
  cases hdata : f.data with
  | none =>
      constructor
      · intro h
        cases h
      · intro h
        exact absurd rfl h.1
  | some bytes =>
      rw [hdata] at hlarge
      rw [Option.getD_some]
      cases hzero : (bytes.take BINARY_SNIFF_BYTES).contains 0 with
      | true =>
          have hbinary : lookAt (some bytes) = .binary := if_pos hzero
          rw [hbinary]
          constructor
          · intro h
            cases h
          · intro h
            cases h.2.1
      | false =>
          rw [lookAt_some hlarge hzero]
          constructor
          · intro h
            cases h
            exact ⟨Option.some_ne_none _, rfl, rfl⟩
          · intro h
            rw [h.2.2]

-- ===== without a marker

variable (env) in
def candidates (filePattern : PyStr) (top : Folder) : List Found :=
  (scan env (extensionsOf filePattern) top).filter fun f => env.named filePattern f.path

theorem reasonsOf_nil {tooMany : Bool} {stop : Option Stop} {report : Report}
    (h : reasonsOf tooMany stop report = []) :
    tooMany = false ∧ stop = none ∧ report.skippedLarge = 0 := by
  unfold reasonsOf at h
  obtain ⟨hfirst, hlarge⟩ := List.append_eq_nil_iff.1 h
  obtain ⟨hmany, hstop⟩ := List.append_eq_nil_iff.1 hfirst
  refine ⟨?_, ?_, ?_⟩
  · cases tooMany with
    | false => rfl
    | true => cases hmany
  · cases stop with
    | none => rfl
    | some stop => cases hstop
  · by_contra hne
    rw [if_pos (Nat.pos_of_ne_zero hne)] at hlarge
    cases hlarge

/-- Without the marker, every file has been looked at, and every line. -/
theorem grepFiles_unmarked {filePattern : PyStr} {top : Folder}
    (h : Unmarked (grepFiles env filePattern top)) :
    grepFiles env filePattern top
        = ((candidates env filePattern top).flatMap (fileHits env)).map .hit
          ++ (if env.diagnostics = [] then [] else [.warning env.diagnostics]) ∧
      ∀ f ∈ candidates env filePattern top, lookAt f.data ≠ .large := by
  unfold grepFiles at h ⊢
  simp only at h ⊢
  by_cases hreasons : reasonsOf (collectFiles env filePattern top).2
      (scanFiles env (collectFiles env filePattern top).1 ⟨[], 0, none⟩ ⟨0, 0, 0, 0⟩).1.stop
      (scanFiles env (collectFiles env filePattern top).1 ⟨[], 0, none⟩ ⟨0, 0, 0, 0⟩).2 = []
  · obtain ⟨hmany, hstop, hlarge⟩ := reasonsOf_nil hreasons
    have hfiles : (collectFiles env filePattern top).1 = candidates env filePattern top := by
      have htake := takeFiles_eq filePattern (scan env (extensionsOf filePattern) top) [] hmany
      rw [List.nil_append] at htake
      exact htake
    obtain ⟨hhits, hlarges⟩ := scanFiles_eq _ ⟨[], 0, none⟩ ⟨0, 0, 0, 0⟩ rfl hstop hlarge
    rw [if_pos hreasons, hhits, List.nil_append, List.append_nil, hfiles]
    rw [hfiles] at hlarges
    exact ⟨rfl, hlarges⟩
  · rw [if_neg hreasons] at h
    exact absurd (List.mem_append_right _ List.mem_cons_self) (h _ _)

/-- The hits are those of the lines that the worker sees in the files that
are searched. -/
theorem hit_iff {filePattern : PyStr} {top : Folder}
    (hlarge : ∀ f ∈ candidates env filePattern top, lookAt f.data ≠ .large)
    {path : List PyStr} {n : Nat} {text : PyStr} :
    (∃ h ∈ (candidates env filePattern top).flatMap (fileHits env),
        h.file = path ∧ h.line = n ∧ h.text = text) ↔
      ∃ f ∈ top.files true, f.path = path ∧ env.ignored f.path = false ∧
        env.named filePattern f.path = true ∧ Searched env filePattern top f ∧
        SeenAt env.rx (workerLines f.bytes) n text := by
  constructor
  · intro hex
    obtain ⟨h, hmem, hfile, hline, htext⟩ := hex
    obtain ⟨f, hf, hhit⟩ := List.mem_flatMap.1 hmem
    have hlook := hlarge f hf
    obtain ⟨hscan, hnamed⟩ := List.mem_filter.1 hf
    rw [scan_eq] at hscan
    obtain ⟨hlisted, hok⟩ := List.mem_filter.1 hscan
    obtain ⟨hshown, hwanted⟩ := (Bool.and_eq_true_iff).1 hok
    unfold fileHits at hhit
    split at hhit
    next data hdata =>
      obtain ⟨hopens, hzero, hbytes⟩ := (lookAt_text hlook).1 hdata
      obtain ⟨i, line, found, hget, hrx, heq⟩ := mem_lineHits.1 hhit
      subst heq
      refine ⟨f, (top.files_sublist).subset hlisted, hfile, by simpa using hshown, hnamed,
        ⟨hlisted, hwanted, hopens, hzero⟩, ?_⟩
      subst hline htext
      refine ⟨Nat.lt_of_lt_of_le Nat.one_pos (Nat.le_add_right 1 i), line, ?_, by rw [hrx]; rfl, rfl⟩
      rw [← hbytes, Nat.add_sub_cancel_left]
      exact hget
    next => cases hhit
  · intro hex
    obtain ⟨f, -, hpath, hshown, hnamed, hsearched, hpos, line, hget, hrx, htext⟩ := hex
    have hf : f ∈ candidates env filePattern top := by
      refine List.mem_filter.2 ⟨?_, hnamed⟩
      rw [scan_eq]
      exact List.mem_filter.2 ⟨hsearched.listed, by simp [hshown, hsearched.wanted]⟩
    have hlook := (lookAt_text (hlarge f hf)).2 ⟨hsearched.opens, hsearched.noZero, rfl⟩
    obtain ⟨found, hfound⟩ := Option.isSome_iff_exists.1 hrx
    refine ⟨⟨f.path, n, found.take GREP_TEXT_CHARS, hitText (clipLine line)⟩,
      List.mem_flatMap.2 ⟨f, hf, ?_⟩, hpath, rfl, htext.symm⟩
    unfold fileHits
    rw [hlook]
    refine mem_lineHits.2 ⟨n - 1, line, found, hget, hfound, ?_⟩
    rw [Nat.add_sub_cancel' hpos]

theorem candidates_distinct (filePattern : PyStr) (top : Folder) :
    (candidates env filePattern top).Pairwise fun f g => f.path ≠ g.path := by
  unfold candidates
  rw [scan_eq]
  exact ((top.files_distinct.sublist top.files_sublist).filter _).filter _

theorem fileHits_file {f : Found} {h : Hit} (hmem : h ∈ fileHits env f) : h.file = f.path := by
  unfold fileHits at hmem
  split at hmem
  next data hdata =>
    obtain ⟨i, line, found, -, -, heq⟩ := mem_lineHits.1 hmem
    rw [heq]
  next => cases hmem

theorem hits_once (filePattern : PyStr) (top : Folder) :
    ((candidates env filePattern top).flatMap (fileHits env)).Pairwise fun g h =>
      ¬(g.file = h.file ∧ g.line = h.line) := by
  rw [List.pairwise_flatMap]
  constructor
  · intro f _
    unfold fileHits
    split
    next => exact (lineHits_distinct _ _ _).imp fun hne heq => hne heq.2
    next => exact List.Pairwise.nil
  · refine (candidates_distinct filePattern top).imp ?_
    intro f g hne x hx y hy heq
    rw [fileHits_file hx, fileHits_file hy] at heq
    exact hne heq.1

theorem Folder.same {top : Folder} {f g : Found} (hf : f ∈ top.files true) (hg : g ∈ top.files true)
    (hpath : f.path = g.path) : f = g :=
  List.inj_on_of_nodup_map (List.pairwise_map.2 top.files_distinct) hf hg hpath

theorem hits_of_items (hits : List Hit) (problems : List PyStr) :
    (hits.map SearchItem.hit ++ if problems = [] then [] else [SearchItem.warning problems]).filterMap
      SearchItem.hit? = hits := by
  have hmap : (hits.map SearchItem.hit).filterMap SearchItem.hit? = hits := by
    rw [List.filterMap_map]
    exact List.filterMap_some
  rw [List.filterMap_append, hmap]
  split
  · exact List.append_nil hits
  · exact List.append_nil hits

/-- Everything is shown and asked for, and lines with an `a` match. -/
def lettersEnv : SearchEnv where
  rx line := if line.contains 'a' then some ['a'] else none
  glob _ _ := true
  lower := id
  verdict _ := false
  diagnostics := []
  root := "/w".toList

def oneFile (data : List UInt8) : Folder where
  place := []
  listable := true
  entries := .cons "f".toList (.file (some data)) .nil
  distinct := ⟨List.not_mem_nil, trivial, trivial⟩

end Velune.Tools
