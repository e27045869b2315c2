/-
What the session store keeps of a session.

A file only ever holds what was handed to a write as a whole, and a
sidecar goes only when its conversation is safe. The metadata that a call
leaves out is another matter: `save` and `recover_autosave` write their
defaults, `rename` and `set_archived` write what they know of a file, and
a recovery does not ask which conversation is the newer. So a run keeps
what was not changed exactly when what is lost so is what would have been
written (`snapshots_kept_iff`).
-/
import Velune.Sessions.Store

namespace Velune.Sessions

open Lib Lib.Json

-- ===== property

/-- What a call supplies of the fields that have defaults. -/
structure Given where
  title : Bool := false
  tags : Bool := false
  summary : Bool := false
  mode : Bool := false
  totalTokens : Bool := false

def SaveCall.given (call : SaveCall) : Given where
  title := call.title.isSome
  tags := call.tags.isSome
  summary := call.summary.isSome
  mode := call.mode.isSome
  totalTokens := call.totalTokens.isSome

def recoverGiven : Given := { mode := true, totalTokens := true }

def Call.resaves : Call → Option (SessionId × Given)
  | .save (some id) _ call => some (id, call.given)
  | .recoverAutosave id => some (id, recoverGiven)
  | _ => none

/-- The session of which a call changes one field, and its name. -/
def Call.edits : Call → Option (SessionId × PyStr)
  | .rename id _ => some (id, "title".toList)
  | .setArchived id _ => some (id, "archived".toList)
  | _ => none

/-- The metadata of a session, if its file can be read and has some. -/
def metaAt (now : PyStr) (disk : Disk) (id : SessionId) : Option SessionMeta :=
  (read disk id).bind (metaFrom now)

/-- Created when it was, archived if it was, and as it was in all that is
not given. -/
structure Kept (given : Given) (old new : SessionMeta) : Prop where
  createdAt : new.createdAt = old.createdAt
  archived : new.archived = old.archived
  title : given.title = false → new.title = old.title
  tags : given.tags = false → new.tags = old.tags
  summary : given.summary = false → new.summary = old.summary
  mode : given.mode = false → new.mode = old.mode
  totalTokens : given.totalTokens = false → new.totalTokens = old.totalTokens

def fieldsOf : Json → List (PyStr × Json)
  | .obj fields => fields
  | _ => []

def metaFields (data : Json) : List (PyStr × Json) := fieldsOf (getD (fieldsOf data) "meta" .null)

/-- Every key of the file is still there, and of its metadata, with its
value, but for one field. -/
def SameBut (field : PyStr) (old new : Json) : Prop :=
  (∀ key value, key ≠ "meta".toList → lookup (fieldsOf old) key = some value →
    lookup (fieldsOf new) key = some value) ∧
  ∀ key value, key ≠ field → lookup (metaFields old) key = some value →
    lookup (metaFields new) key = some value

structure Keeps (a : Step) (s : SessionStore) : Prop where
  resaved : ∀ id given, a.call.resaves = some (id, given) → ∀ old new,
    metaAt a.now s.disk id = some old → metaAt a.now (s.after a) id = some new → Kept given old new
  edited : ∀ id field, a.call.edits = some (id, field) → ∀ old new,
    read s.disk id = some old → read (s.after a) id = some new → SameBut field old new
  /-- A recovery does not put an older conversation in the place of one that
  can be read. -/
  newer : ∀ id, a.call = .recoverAutosave id → ∀ old new, (read s.disk id).isSome →
    s.disk (.session id) = some old → s.after a (.session id) = some new → old.said ≤ new.said
  /-- A sidecar goes when it is discarded or cleared, or its conversation is
  in the session's file. -/
  guarded : ∀ id (sidecar : File), s.disk (.sidecar id) = some sidecar → s.after a (.sidecar id) = none →
    a.call = .discardAutosave id ∨ a.call = .clearAutosave id ∨
    ∃ data saved, sidecar.value = some data ∧ read (s.after a) id = some saved ∧
      conversationOf saved = conversationOf data

/-- The file of a session is the one there was at first, or one that was
handed to a write as a whole. -/
def Complete (first : Disk) (s : SessionStore) : Prop :=
  ∀ id file, s.disk (.session id) = some file →
    (∃ old, first (.session id) = some old ∧ old.value = file.value) ∨
    ∃ value, file.value = some value ∧ (id, value) ∈ s.written

-- ===== condition

/-- The old metadata has what a save writes where nothing is given. -/
def Agrees (given : Given) (old : SessionMeta) (args : SaveArgs) : Prop :=
  (given.title = false → titleOf args = some old.title) ∧
  (given.tags = false → old.tags = .arr []) ∧
  (given.summary = false → old.summary = .null) ∧
  (given.mode = false → old.mode = text "normal") ∧
  (given.totalTokens = false → old.totalTokens = .int 0)

def metaKeys : List PyStr :=
  ["id", "title", "created_at", "updated_at", "workspace", "project_name", "model_id", "mode",
    "tags", "total_tokens", "turn_count", "summary", "archived"].map String.toList

def Plain (data : Json) : Prop :=
  (∀ entry ∈ fieldsOf data, entry.1 = "meta".toList ∨ entry.1 = "conversation".toList) ∧
  ∀ entry ∈ metaFields data, entry.1 ∈ metaKeys

/-- Where a call comes to write the file of a session that is there, and
goes through: what it leaves out has the default; a file of which one
field is changed has no other keys; and the recovered conversation is not
the older. -/
def Careful (a : Step) (s : SessionStore) : Prop :=
  3 ≤ a.cut →
    match a.call with
    | .save (some id) _ call =>
        ∀ old, metaAt a.now s.disk id = some old →
          (buildMeta a.now (.str id.1) (some old) call.args).isSome →
          Agrees call.given old call.args
    | .recoverAutosave id =>
        ∀ side data m file old, s.disk (.sidecar id) = some side → side.value = some data →
          metaFrom a.now data = some m → s.disk (.session id) = some file →
          metaAt a.now s.disk id = some old →
          (buildMeta a.now (.str id.1) (some old) (recoverArgs m data)).isSome →
          Agrees recoverGiven old (recoverArgs m data) ∧
          file.said ≤ side.said
    | .rename id newTitle =>
        Text.strip newTitle ≠ [] → ∀ data, read s.disk id = some data →
          (metaFrom a.now data).isSome → Plain data
    | .setArchived id _ =>
        ∀ data, read s.disk id = some data → (metaFrom a.now data).isSome → Plain data
    | _ => True

-- ===== changes

variable {m : SessionMeta} {id : SessionId}

section Changes

variable {disk : Disk} {temp target other : Place} {file : File}

theorem after_write (disk : Disk) (target : Place) (file : File) (hother : other ≠ temp) (n : Nat) :
    applyAll disk ((writeFile temp target file).take n) other =
      if 3 ≤ n ∧ other = target then some file else disk other := by
  rcases Nat.lt_or_ge n 3 with hlt | hge
  · rw [if_neg fun h => absurd h.1 (Nat.not_le.2 hlt)]
    obtain rfl | rfl | rfl : n = 0 ∨ n = 1 ∨ n = 2 := by omega
    · rfl
    · exact if_neg hother
    · exact (if_neg hother).trans (if_neg hother)
  · have hall : (writeFile temp target file).take n = writeFile temp target file :=
      List.take_of_length_le hge
    rw [hall]
    show (if other = temp then none else if other = target then (if temp = temp then some file else _)
      else if other = temp then _ else if other = temp then _ else disk other) = _
    rw [if_neg hother, if_pos rfl, if_neg hother, if_neg hother]
    rcases Decidable.em (other = target) with heq | hne
    · rw [if_pos heq, if_pos ⟨hge, heq⟩]
    · rw [if_neg hne, if_neg fun h => hne h.2]

/-- What comes after a write is carried out when the write is through. -/
theorem after_write_unlink {gone : Place} (hother : other ≠ temp) (hgone : gone ≠ target) (n : Nat) :
    applyAll disk ((writeFile temp target file ++ [Effect.unlink gone]).take n) other =
      if 3 ≤ n ∧ other = target then some file
      else if 4 ≤ n ∧ other = gone then none else disk other := by
  have hfirst := after_write disk target file hother
  rcases Nat.lt_or_ge 3 n with hlt | hge
  · have hall : (writeFile temp target file ++ [Effect.unlink gone]).take n
        = writeFile temp target file ++ [Effect.unlink gone] := List.take_of_length_le hlt
    have hput : applyAll disk (writeFile temp target file ++ [Effect.unlink gone])
        = put (applyAll disk ((writeFile temp target file).take 3)) gone none := by
      unfold applyAll
      rw [List.foldl_append]
      rfl
    rw [hall, hput]
    unfold put
    rw [hfirst 3]
    rcases Decidable.em (other = gone) with heq | hne
    · rw [if_pos heq, if_neg fun h => hgone (heq.symm.trans h.2), if_pos ⟨hlt, heq⟩]
    · rw [if_neg hne, if_neg (c := 4 ≤ n ∧ other = gone) fun h => hne h.2]
      rcases Decidable.em (other = target) with hto | hto
      · rw [if_pos ⟨le_refl 3, hto⟩, if_pos ⟨by omega, hto⟩]
      · rw [if_neg fun h => hto h.2, if_neg fun h => hto h.2]
  · rw [List.take_append_of_le_length hge, hfirst n,
      if_neg (c := 4 ≤ n ∧ other = gone) fun h => absurd h.1 (by omega)]

theorem read_same {disk' : Disk} (h : disk' (.session id) = disk (.session id)) :
    read disk' id = read disk id := by
  unfold read
  rw [h]

theorem isSome_read {now : PyStr} (h : metaAt now disk id = some m) : (read disk id).isSome := by
  obtain ⟨data, hread, -⟩ := Option.bind_eq_some_iff.1 h
  rw [hread]
  rfl

theorem file_of_read (h : ∃ data, read disk id = some data) :
    ∃ file, disk (.session id) = some file := by
  obtain ⟨data, hread⟩ := h
  rcases hfile : disk (.session id) with _ | file
  · unfold read at hread
    rw [hfile] at hread
    cases hread
  · exact ⟨file, rfl⟩

theorem read_payload {conversation : Json} {said : Nat}
    (h : disk (.session id) = some { value := some (payload m conversation), said }) :
    read disk id = some (payload m conversation) := by
  unfold read
  rw [h]
  rfl

theorem metaAt_payload (now : PyStr) {conversation : Json} {said : Nat}
    (h : disk (.session id) = some { value := some (payload m conversation), said }) :
    metaAt now disk id = some m := by
  unfold metaAt
  rw [read_payload h]
  rfl

end Changes

-- ===== calls

section Calls

variable {now : PyStr} {disk : Disk} {id : SessionId} {args : SaveArgs} {said : Nat}

theorem saveAs_made (h : ∀ data, read disk id = some data → (metaFrom now data).isSome) :
    saveAs now disk id args said =
      (buildMeta now (.str id.1) (metaAt now disk id) args).elim (.raised, [])
        fun m => (.saved m, writeSession id m args.conversation said) := by
  unfold saveAs metaAt
  rcases hread : read disk id with _ | data
  · simp only [Option.bind_none]
    rcases hbuild : buildMeta now (.str id.1) none args with _ | m
    · rfl
    · rfl
  · obtain ⟨old, hold⟩ := Option.isSome_iff_exists.1 (h data hread)
    simp only [hold, Option.map_some, Option.bind_some]
    rcases hbuild : buildMeta now (.str id.1) (some old) args with _ | m
    · rfl
    · rfl

/-- A save writes, or it raises; over what there was it raises only where
the metadata cannot be made. -/
theorem saveAs_cases :
    (∃ m, buildMeta now (.str id.1) (metaAt now disk id) args = some m ∧
      ((read disk id).isSome → (metaAt now disk id).isSome) ∧
      saveAs now disk id args said = (.saved m, writeSession id m args.conversation said)) ∨
    (saveAs now disk id args said = (.raised, []) ∧ ∀ old, metaAt now disk id = some old →
      buildMeta now (.str id.1) (some old) args = none) := by
  rcases Classical.em (∀ data, read disk id = some data → (metaFrom now data).isSome) with
    hmeta | hmeta
  · rw [saveAs_made hmeta]
    rcases hbuild : buildMeta now (.str id.1) (metaAt now disk id) args with _ | m
    · exact .inr ⟨rfl, fun old hold => hold ▸ hbuild⟩
    · refine .inl ⟨m, rfl, fun hsome => ?_, rfl⟩
      obtain ⟨data, hread⟩ := Option.isSome_iff_exists.1 hsome
      rw [metaAt, hread]
      exact hmeta data hread
  · simp only [not_forall, Option.not_isSome_iff_eq_none] at hmeta
    obtain ⟨data, hread, hmeta⟩ := hmeta
    refine .inr ⟨?_, fun old hold => ?_⟩
    · simp only [saveAs, hread, hmeta, Option.map_none]
    · rw [metaAt, hread] at hold
      exact absurd (hmeta.symm.trans hold) (by simp)

/-- An edit writes the file with the metadata changed, if that can be
read. -/
theorem edit_cases (change : SessionMeta → SessionMeta) (result : SessionMeta → Result)
    (absent : Result) :
    (∃ file data m, disk (.session id) = some file ∧ read disk id = some data ∧
      metaFrom now data = some m ∧
      (edit now disk id change result absent).2
        = writeSession id (change m) (conversationOf data) file.said) ∨
    ((edit now disk id change result absent).2 = [] ∧
      ∀ data, read disk id = some data → metaFrom now data = none) := by
  unfold edit
  rcases hfile : disk (.session id) with _ | file
  · have hnone : read disk id = none := by
      unfold read
      rw [hfile]
      rfl
    exact .inr ⟨rfl, fun data hdata => absurd (hnone.symm.trans hdata) (by simp)⟩
  · rcases hread : read disk id with _ | data
    · exact .inr ⟨rfl, fun data hdata => absurd hdata (by simp)⟩
    · rcases hmeta : metaFrom now data with _ | m
      · exact .inr ⟨by simp only [hmeta], fun data' hdata => Option.some.inj hdata ▸ hmeta⟩
      · exact .inl ⟨file, data, m, rfl, rfl, hmeta, by simp only [hmeta]⟩

/-- A recovery saves what the sidecar says, and then the sidecar goes. -/
theorem recover_cases :
    (∃ (side : File) (data : Json) (m saved : SessionMeta), disk (.sidecar id) = some side ∧
      side.value = some data ∧ metaFrom now data = some m ∧
      buildMeta now (.str id.1) (metaAt now disk id) (recoverArgs m data) = some saved ∧
      ((read disk id).isSome → (metaAt now disk id).isSome) ∧
      (recoverAutosave now disk id).2
        = writeSession id saved (conversationOf data) side.said ++ [Effect.unlink (.sidecar id)]) ∨
    ((recoverAutosave now disk id).2 = [] ∧
      ∀ (side : File) (data : Json) (m old : SessionMeta), disk (.sidecar id) = some side →
        side.value = some data → metaFrom now data = some m → metaAt now disk id = some old →
        buildMeta now (.str id.1) (some old) (recoverArgs m data) = none) := by
  unfold recoverAutosave
  rcases hside : disk (.sidecar id) with _ | ⟨_ | data, side⟩
  · exact .inr ⟨rfl, fun side data m old h => absurd h (by simp)⟩
  · exact .inr ⟨rfl, fun side' data m old h hvalue => absurd (Option.some.inj h ▸ hvalue) (by simp)⟩
  · rcases hmeta : metaFrom now data with _ | m
    · refine .inr ⟨by simp only [hmeta], fun side' data' m old h hvalue hm => ?_⟩
      cases h
      cases hvalue
      exact absurd (hmeta.symm.trans hm) (by simp)
    · have hcases := @saveAs_cases now disk id (recoverArgs m data) side
      rcases hcases with
        ⟨saved, hbuild, hthere, hsave⟩ | ⟨hsave, hnone⟩
      · refine .inl ⟨_, data, m, saved, rfl, rfl, hmeta, hbuild, hthere, ?_⟩
        simp only [hmeta, hsave]
        rfl
      · refine .inr ⟨by simp only [hmeta, hsave], fun side' data' m' old h hvalue hm hold => ?_⟩
        cases h
        cases hvalue
        cases hmeta.symm.trans hm
        exact hnone old hold

end Calls

-- ===== metadata

/-- Where a call supplies nothing, the defaults are what is saved. -/
structure Defaults (given : Given) (args : SaveArgs) : Prop where
  tags : given.tags = false → args.tags = .null
  summary : given.summary = false → args.summary = .null
  mode : given.mode = false → args.mode = text "normal"
  totalTokens : given.totalTokens = false → args.totalTokens = .int 0

theorem SaveCall.defaults (call : SaveCall) : Defaults call.given call.args where
  tags h := by
    rcases htags : call.tags with _ | tags
    · simp only [SaveCall.args, htags]
    · simp only [SaveCall.given, htags] at h
      cases h
  summary h := by
    rcases hsummary : call.summary with _ | summary
    · simp only [SaveCall.args, hsummary, orNull]
    · simp only [SaveCall.given, hsummary] at h
      cases h
  mode h := by
    rcases hmode : call.mode with _ | mode
    · simp only [SaveCall.args, hmode]
      rfl
    · simp only [SaveCall.given, hmode] at h
      cases h
  totalTokens h := by
    rcases htokens : call.totalTokens with _ | tokens
    · simp only [SaveCall.args, htokens]
      rfl
    · simp only [SaveCall.given, htokens] at h
      cases h

theorem recoverArgs_defaults (m : SessionMeta) (data : Json) :
    Defaults recoverGiven (recoverArgs m data) where
  tags _ := rfl
  summary _ := rfl
  mode h := (by cases h)
  totalTokens h := (by cases h)

/-- A save keeps what there was when that is what it writes by itself. -/
theorem kept_iff {now : PyStr} {id : Json} {given : Given} {old m : SessionMeta} {args : SaveArgs}
    (hbuild : buildMeta now id (some old) args = some m) (hdefaults : Defaults given args) :
    Kept given old m ↔ Agrees given old args := by
  have hm := built hbuild
  constructor
  · intro h
    refine ⟨fun hg => ?_, fun hg => ?_, fun hg => ?_, fun hg => ?_, fun hg => ?_⟩
    · rw [hm.title, h.title hg]
    · rw [← h.tags hg, hm.tags, hdefaults.tags hg]
      rfl
    · rw [← h.summary hg, hm.summary, hdefaults.summary hg]
    · rw [← h.mode hg, hm.mode, hdefaults.mode hg]
    · rw [← h.totalTokens hg, hm.totalTokens, hdefaults.totalTokens hg]
  · intro ⟨htitle, htags, hsummary, hmode, htokens⟩
    refine ⟨hm.createdAt, hm.archived, fun hg => ?_, fun hg => ?_, fun hg => ?_, fun hg => ?_,
      fun hg => ?_⟩
    · exact Option.some.inj (hm.title.symm.trans (htitle hg))
    · rw [hm.tags, hdefaults.tags hg, htags hg]
      rfl
    · rw [hm.summary, hdefaults.summary hg, hsummary hg]
    · rw [hm.mode, hdefaults.mode hg, hmode hg]
    · rw [hm.totalTokens, hdefaults.totalTokens hg, htokens hg]

/-- What is read of a block of metadata is what it says, or a default. -/
theorem lookup_fields_of {raw : List (PyStr × Json)} (h : ofFields raw = some m)
    {key : PyStr} {value : Json} (hkey : key ∈ metaKeys) (hvalue : lookup raw key = some value) :
    lookup m.fields key = some value := by
  simp only [ofFields, Option.bind_eq_bind, Option.bind_eq_some_iff] at h
  obtain ⟨id, hid, title, htitle, created, hcreated, updated, hupdated, workspace, hworkspace,
    project, hproject, model, hmodel, h⟩ := h
  cases h
  simp only [metaKeys, List.map_cons, List.map_nil, List.mem_cons, List.not_mem_nil, or_false]
    at hkey
  rcases hkey with rfl | rfl | rfl | rfl | rfl | rfl | rfl | rfl | rfl | rfl | rfl | rfl | rfl
  · exact hid.symm.trans hvalue
  · exact htitle.symm.trans hvalue
  · exact hcreated.symm.trans hvalue
  · exact hupdated.symm.trans hvalue
  · exact hworkspace.symm.trans hvalue
  · exact hproject.symm.trans hvalue
  · exact hmodel.symm.trans hvalue
  · exact congrArg some (by simp only [getD, hvalue, Option.getD_some])
  · exact congrArg some (by simp only [getD, hvalue, Option.getD_some])
  · exact congrArg some (by simp only [getD, hvalue, Option.getD_some])
  · exact congrArg some (by simp only [getD, hvalue, Option.getD_some])
  · exact congrArg some (by simp only [getD, hvalue, Option.getD_some])
  · exact congrArg some (by simp only [getD, hvalue, Option.getD_some])

theorem mem_metaKeys {key : PyStr} {value : Json}
    (h : lookup m.fields key = some value) : key ∈ metaKeys :=
  List.mem_map_of_mem (f := Prod.fst) (lookup_mem h)

theorem fieldsOf_falsy {value : Json} (h : truthy value = false) : fieldsOf value = [] := by
  cases value with
  | obj fields =>
      cases fields with
      | nil => rfl
      | cons => cases h
  | _ => rfl

theorem lookup_metaFields {now : PyStr} {data : Json}
    (h : metaFrom now data = some m) {key : PyStr} {value : Json} (hkey : key ∈ metaKeys)
    (hvalue : lookup (metaFields data) key = some value) : lookup m.fields key = some value := by
  cases data with
  | obj data =>
      rcases htruthy : truthy (getD data "meta" .null) with _ | _
      · rw [metaFields, fieldsOf, fieldsOf_falsy htruthy] at hvalue
        cases hvalue
      · simp only [metaFrom, htruthy, if_true] at h
        rcases hraw : getD data "meta" .null with _ | _ | _ | _ | _ | _ | raw
        case obj =>
            rw [hraw] at h
            rw [metaFields, fieldsOf, hraw] at hvalue
            exact lookup_fields_of h hkey hvalue
        all_goals
          rw [hraw] at h
          cases h
  | _ => cases h

theorem lookup_other {key name : PyStr} {old new : Json} (h : key ≠ name) (rest : List (PyStr × Json)) :
    ∀ before : List (PyStr × Json),
      lookup (before ++ (name, new) :: rest) key = lookup (before ++ (name, old) :: rest) key
  | [] => by
      show (if name = key then _ else lookup rest key) = (if name = key then _ else lookup rest key)
      rw [if_neg h.symm, if_neg h.symm]
  | (other, value) :: before => by
      show (if other = key then some value else lookup (before ++ _) key)
        = (if other = key then some value else lookup (before ++ _) key)
      rw [lookup_other h rest before]

/-- A write of the changed metadata loses no key exactly when there was none
but the store's own. -/
theorem sameBut_iff {now : PyStr} {data : Json} {m new : SessionMeta} {field : PyStr}
    (hmeta : metaFrom now data = some m) (hfield : field ∈ metaKeys)
    (hnew : ∀ key, key ≠ field → lookup new.fields key = lookup m.fields key) :
    SameBut field data (payload new (conversationOf data)) ↔ Plain data := by
  have hconversation : ∀ value, lookup (fieldsOf data) "conversation".toList = some value →
      conversationOf data = value := by
    intro value hvalue
    cases data with
    | obj data =>
        show (lookup data "conversation".toList).getD _ = value
        rw [show lookup data "conversation".toList = some value from hvalue]
        rfl
    | _ => cases hvalue
  constructor
  · rintro ⟨houter, hinner⟩
    refine ⟨fun entry hentry => ?_, fun entry hentry => ?_⟩
    · rcases Decidable.em (entry.1 = "meta".toList) with heq | hne
      · exact .inl heq
      · obtain ⟨value, hvalue⟩ := Option.isSome_iff_exists.1 (lookup_isSome.2 ⟨entry.2, hentry⟩)
        have hmem := lookup_mem (houter entry.1 value hne hvalue)
        rcases List.mem_cons.1 hmem with heq | hmem
        · exact absurd (congrArg Prod.fst heq) hne
        · exact .inr (congrArg Prod.fst (List.mem_singleton.1 hmem))
    · by_contra hkey
      obtain ⟨value, hvalue⟩ := Option.isSome_iff_exists.1 (lookup_isSome.2 ⟨entry.2, hentry⟩)
      have hne : entry.1 ≠ field := fun heq => hkey (heq ▸ hfield)
      exact hkey (mem_metaKeys (m := new) (hinner entry.1 value hne hvalue))
  · rintro ⟨houter, hinner⟩
    refine ⟨fun key value hne hvalue => ?_, fun key value hne hvalue => ?_⟩
    · rcases houter _ (lookup_mem hvalue) with heq | heq
      · exact absurd heq hne
      · subst heq
        rw [← hconversation value hvalue]
        rfl
    · show lookup new.fields key = some value
      rw [hnew key hne]
      exact lookup_metaFields hmeta (hinner _ (lookup_mem hvalue)) hvalue

-- ===== steps

section Steps

variable {a : Step} {s : SessionStore} {id : SessionId} {m : SessionMeta} {conversation : Json}
  {said : Nat}

/-- A call writes the file of a session, and may then drop its sidecar. -/
def Writes (a : Step) (s : SessionStore) (id : SessionId) (m : SessionMeta) (conversation : Json)
    (said : Nat) : Prop :=
  s.effects a = writeSession id m conversation said ∨
  s.effects a = writeSession id m conversation said ++ [Effect.unlink (.sidecar id)]

theorem session_after (h : Writes a s id m conversation said) (other : SessionId) :
    s.after a (.session other) =
      if 3 ≤ a.cut ∧ Place.session other = .session id then
        some { value := some (payload m conversation), said }
      else s.disk (.session other) := by
  unfold SessionStore.after
  rcases h with h | h
  · rw [h]
    exact after_write _ _ _ (by simp) a.cut
  · rw [h]
    refine (after_write_unlink (by simp) (by simp) a.cut).trans ?_
    rw [if_neg (c := 4 ≤ a.cut ∧ _) fun hboth => absurd hboth.2 (by simp)]

theorem session_written (h : Writes a s id m conversation said) (hcut : 3 ≤ a.cut) :
    s.after a (.session id) = some { value := some (payload m conversation), said } :=
  (session_after h id).trans (if_pos ⟨hcut, rfl⟩)

theorem session_uncut (h : Writes a s id m conversation said) (hcut : ¬3 ≤ a.cut)
    (other : SessionId) : s.after a (.session other) = s.disk (.session other) :=
  (session_after h other).trans (if_neg fun hboth => hcut hboth.1)

theorem after_nothing (h : s.effects a = []) : s.after a = s.disk := by
  unfold SessionStore.after
  rw [h, List.take_nil]
  rfl

inductive Outcome (a : Step) (s : SessionStore) : Prop
  | nothing (h : s.effects a = [])
  | saved (id : SessionId) (m : SessionMeta) (conversation : Json) (said : Nat)
      (h : s.effects a = writeSession id m conversation said)
  | recovered (id : SessionId) (side : File) (data : Json) (m : SessionMeta)
      (hside : s.disk (.sidecar id) = some side) (hvalue : side.value = some data)
      (h : s.effects a
        = writeSession id m (conversationOf data) side.said ++ [Effect.unlink (.sidecar id)])
  | guarded (id : SessionId) (file : File)
      (h : s.effects a = writeFile (.sidecarTemp id) (.sidecar id) file)
  | dropped (id : SessionId) (hcall : a.call = .discardAutosave id ∨ a.call = .clearAutosave id)
      (h : s.effects a = [Effect.unlink (.sidecar id)])
  | deleted (id : SessionId) (h : s.effects a = [Effect.unlink (.session id)])

theorem edit_outcome (id : SessionId) {change : SessionMeta → SessionMeta} {result : SessionMeta → Result}
    {absent : Result} (h : s.effects a = (edit a.now s.disk id change result absent).2) :
    Outcome a s := by
  rcases edit_cases change result absent with ⟨file, data, m, -, -, -, heq⟩ | ⟨heq, -⟩
  · exact .saved id _ _ _ (h.trans heq)
  · exact .nothing (h.trans heq)

theorem perform_rename (now : PyStr) (clock : Nat) (disk : Disk) (id : SessionId) {newTitle : PyStr}
    (h : Text.strip newTitle ≠ []) :
    perform now clock disk (.rename id newTitle) =
      edit now disk id (fun m => { m with title := .str (Text.strip newTitle) }) .saved .nothing :=
  if_neg h

theorem remove_effects (disk : Disk) (place : Place) :
    (remove disk place).2 = [] ∨ (remove disk place).2 = [Effect.unlink place] := by
  unfold remove
  rcases disk place with _ | file
  · exact .inl rfl
  · exact .inr rfl

theorem outcome (a : Step) (s : SessionStore) : Outcome a s := by
  obtain ⟨call, now, cut⟩ := a
  cases call with
  | save sessionId minted call =>
      cases sessionId with
      | some id =>
          have hcases := @saveAs_cases now s.disk id call.args s.clock
          rcases hcases with ⟨m, -, -, heq⟩ | ⟨heq, -⟩
          · exact .saved id m _ _ (congrArg Prod.snd heq)
          · exact .nothing (congrArg Prod.snd heq)
      | none =>
          rcases hbuild : buildMeta now (.str minted.1) none call.args with _ | m
          · exact .nothing (by simp only [SessionStore.effects, perform, hbuild])
          · have heq : SessionStore.effects s ⟨.save none minted call, now, cut⟩
                = writeSession minted m call.args.conversation s.clock := by
              simp only [SessionStore.effects, perform, hbuild]
            exact .saved minted m _ _ heq
  | rename id newTitle =>
      rcases Decidable.em (Text.strip newTitle = []) with hempty | hsome
      · exact .nothing (by simp only [SessionStore.effects, perform, if_pos hempty])
      · have heq := congrArg Prod.snd (perform_rename now s.clock s.disk id hsome)
        exact edit_outcome id heq
  | setArchived id archived => exact edit_outcome id rfl
  | autosave id call =>
      rcases htitle : autoTitle call.conversation with _ | title
      · exact .nothing (by simp only [SessionStore.effects, perform, autosave, htitle])
      · rcases hproject : projectName (.str call.workspace) with _ | project
        · exact .nothing (by simp only [SessionStore.effects, perform, autosave, htitle, hproject])
        · refine .guarded id ?_ ?_
          case refine_2 =>
              simp only [SessionStore.effects, perform, autosave, htitle, hproject]
              rfl
  | clearAutosave id => exact .dropped id (.inr rfl) rfl
  | recoverAutosave id =>
      have hcases := @recover_cases now s.disk id
      rcases hcases with ⟨side, data, m, saved, hside, hvalue, -, -, -, heq⟩ | ⟨heq, -⟩
      · exact .recovered id side data saved hside hvalue heq
      · exact .nothing heq
  | discardAutosave id =>
      rcases remove_effects s.disk (.sidecar id) with heq | heq
      · exact .nothing heq
      · exact .dropped id (.inl rfl) heq
  | delete id =>
      rcases remove_effects s.disk (.session id) with heq | heq
      · exact .nothing heq
      · exact .deleted id heq

theorem after_unlink (other : Place) {place : Place} (h : s.effects a = [Effect.unlink place]) :
    s.after a other = s.disk other ∨ (s.after a other = none ∧ other = place) := by
  unfold SessionStore.after
  rw [h]
  rcases Nat.eq_zero_or_pos a.cut with hzero | hpos
  · rw [hzero]
    exact .inl rfl
  · rw [List.take_of_length_le hpos]
    show put s.disk place none other = _ ∨ _
    unfold put
    rcases Decidable.em (other = place) with heq | hne
    · exact .inr ⟨if_pos heq, heq⟩
    · exact .inl (if_neg hne)

/-- A file that is there stays, with a new text at most, in a write. -/
theorem after_write_isSome {temp target other : Place} {file old : File}
    (h : s.effects a = writeFile temp target file) (hother : other ≠ temp)
    (hthere : s.disk other = some old) : s.after a other ≠ none := by
  unfold SessionStore.after
  rw [h, after_write _ _ _ hother]
  split
  · simp
  · simp [hthere]

theorem sidecar_guarded (a : Step) (s : SessionStore) (id : SessionId) (sidecar : File)
    (hthere : s.disk (.sidecar id) = some sidecar) (hgone : s.after a (.sidecar id) = none) :
    a.call = .discardAutosave id ∨ a.call = .clearAutosave id ∨
    ∃ data saved, sidecar.value = some data ∧ read (s.after a) id = some saved ∧
      conversationOf saved = conversationOf data := by
  cases outcome a s with
  | nothing h =>
      rw [after_nothing h] at hgone
      exact absurd (hthere.symm.trans hgone) (by simp)
  | saved other m conversation said h =>
      exact absurd hgone (after_write_isSome h (by simp) hthere)
  | recovered other side data m hside hvalue h =>
      have hafter := (congrArg (fun effects => applyAll s.disk (effects.take a.cut) (.sidecar id)) h).trans
        (after_write_unlink (by simp) (by simp) a.cut)
      rw [show applyAll s.disk ((s.effects a).take a.cut) (.sidecar id) = none from hgone,
        if_neg fun hboth => absurd hboth.2 (by simp)] at hafter
      split at hafter
      · rename_i hboth
        have hsame : id = other := Place.sidecar.inj hboth.2
        subst hsame
        cases hside.symm.trans hthere
        have hcut : 3 ≤ a.cut := by omega
        exact .inr (.inr ⟨data, _, hvalue, read_payload (session_written (.inr h) hcut), rfl⟩)
      · exact absurd (hthere.symm.trans hafter.symm) (by simp)
  | guarded other file h => exact absurd hgone (after_write_isSome h (by simp) hthere)
  | dropped other hcall h =>
      rcases after_unlink (.sidecar id) h with hsame | ⟨-, heq⟩
      · exact absurd (hthere.symm.trans (hsame.symm.trans hgone)) (by simp)
      · cases heq
        exact hcall.imp_right .inl
  | deleted other h =>
      rcases after_unlink (.sidecar id) h with hsame | ⟨-, heq⟩
      · exact absurd (hthere.symm.trans (hsame.symm.trans hgone)) (by simp)
      · cases heq

/-- A session's file is what it was, or what the call hands to a write. -/
theorem session_handed {a : Step} {s : SessionStore} {file : File}
    (h : s.after a (.session id) = some file) :
    s.disk (.session id) = some file ∨ ∃ value, file.value = some value ∧
      (id, value) ∈ (s.effects a).filterMap Effect.handed? := by
  have hwrites : ∀ {other m conversation said}, Writes a s other m conversation said →
      s.disk (.session id) = some file ∨ ∃ value, file.value = some value ∧
        (id, value) ∈ (s.effects a).filterMap Effect.handed? := by
    intro other m conversation said hw
    rw [session_after hw] at h
    split at h
    · rename_i hboth
      cases Place.session.inj hboth.2
      cases h
      refine .inr ⟨_, rfl, ?_⟩
      rcases hw with hw | hw
      · rw [hw]
        exact List.mem_singleton_self _
      · rw [hw]
        exact List.mem_singleton_self _
    · exact .inl h
  cases outcome a s with
  | nothing heq =>
      rw [after_nothing heq] at h
      exact .inl h
  | saved other m conversation said heq => exact hwrites (.inl heq)
  | recovered other side data m hside hvalue heq => exact hwrites (.inr heq)
  | guarded other side heq =>
      have hafter := (congrArg (fun effects => applyAll s.disk (effects.take a.cut) (.session id)) heq).trans
        (after_write _ _ _ (by simp) a.cut)
      rw [if_neg fun hboth => absurd hboth.2 (by simp)] at hafter
      exact .inl (hafter.symm.trans h)
  | dropped other hcall heq =>
      rcases after_unlink (.session id) heq with hsame | ⟨hnone, -⟩
      · exact .inl (hsame.symm.trans h)
      · exact absurd (h.symm.trans hnone) (by simp)
  | deleted other heq =>
      rcases after_unlink (.session id) heq with hsame | ⟨hnone, -⟩
      · exact .inl (hsame.symm.trans h)
      · exact absurd (h.symm.trans hnone) (by simp)

theorem complete_step {first : Disk} {a : Step} {s s' : SessionStore} (h : Complete first s)
    (hs : storeStep a s = some s') : Complete first s' := by
  cases hs
  intro id file hfile
  rcases session_handed hfile with hsame | ⟨value, hvalue, hmem⟩
  · rcases h id file hsame with hfirst | ⟨value, hvalue, hmem⟩
    · exact .inl hfirst
    · exact .inr ⟨value, hvalue, List.mem_append_left _ hmem⟩
  · exact .inr ⟨value, hvalue, List.mem_append_right _ hmem⟩

theorem Kept.refl (given : Given) (m : SessionMeta) : Kept given m m :=
  ⟨rfl, rfl, fun _ => rfl, fun _ => rfl, fun _ => rfl, fun _ => rfl, fun _ => rfl⟩

theorem keeps_unchanged {a : Step} {s : SessionStore}
    (h : ∀ id, s.after a (.session id) = s.disk (.session id)) : Keeps a s where
  resaved id given _ old new hold hnew := by
    have hsame : metaAt a.now (s.after a) id = metaAt a.now s.disk id :=
      congrArg (·.bind (metaFrom a.now)) (read_same (h id))
    cases hold.symm.trans (hsame.symm.trans hnew)
    exact Kept.refl given old
  edited id field _ old new hold hnew := by
    cases hold.symm.trans ((read_same (h id)).symm.trans hnew)
    exact ⟨fun _ _ _ hvalue => hvalue, fun _ _ _ hvalue => hvalue⟩
  newer id _ old new _ hold hnew := by
    cases hold.symm.trans ((h id).symm.trans hnew)
    exact le_refl _
  guarded := sidecar_guarded a s

/-- A call that saves nothing again and changes no field loses nothing. -/
theorem keeps_others {a : Step} {s : SessionStore} (hresaves : a.call.resaves = none)
    (hedits : a.call.edits = none) : Keeps a s where
  resaved id given h := absurd (hresaves.symm.trans h) (by simp)
  edited id field h := absurd (hedits.symm.trans h) (by simp)
  newer id h := by
    rw [h] at hresaves
    cases hresaves
  guarded := sidecar_guarded a s

end Steps

-- ===== keeping

section Keeping

variable {now : PyStr} {cut : Nat} {s : SessionStore} {id : SessionId}

/-- A session that a call writes is as `m` says. -/
theorem resaved_written {a : Step} {m new : SessionMeta} {conversation : Json} {said : Nat}
    (h : Writes a s id m conversation said) (hcut : 3 ≤ a.cut)
    (hnew : metaAt a.now (s.after a) id = some new) : new = m :=
  Option.some.inj (hnew.symm.trans (metaAt_payload a.now (session_written h hcut)))

theorem keeps_save {minted : SessionId} {call : SaveCall} :
    Keeps ⟨.save (some id) minted call, now, cut⟩ s ↔
      Careful ⟨.save (some id) minted call, now, cut⟩ s := by
  have hcases := @saveAs_cases now s.disk id call.args s.clock
  rcases hcases with ⟨m, hbuild, -, heq⟩ | ⟨heq, hnone⟩
  · have hw : Writes ⟨.save (some id) minted call, now, cut⟩ s id m call.args.conversation s.clock :=
      .inl (congrArg Prod.snd heq)
    rcases Decidable.em (3 ≤ cut) with hcut | hcut
    · constructor
      · intro hkeeps _ old hold _
        have hnew := metaAt_payload now (session_written hw hcut)
        rw [hold] at hbuild
        exact (kept_iff hbuild call.defaults).1 (hkeeps.resaved id _ rfl old m hold hnew)
      · intro hcareful
        refine ⟨fun other given h old new hold hnew => ?_, fun other field h => (by cases h),
          fun other h => (by cases h), sidecar_guarded _ s⟩
        cases h
        rw [show metaAt now s.disk id = some old from hold] at hbuild
        cases resaved_written hw hcut hnew
        exact (kept_iff hbuild call.defaults).2 (hcareful hcut old hold (by rw [hbuild]; rfl))
    · exact iff_of_true (keeps_unchanged (session_uncut hw hcut)) fun h => absurd h hcut
  · have hsame := after_nothing (a := ⟨.save (some id) minted call, now, cut⟩) (congrArg Prod.snd heq)
    refine iff_of_true (keeps_unchanged fun other => by rw [hsame]) fun _ old hold hbuild => ?_
    rw [hnone old hold] at hbuild
    cases hbuild

theorem keeps_edit {a : Step} {field : PyStr} {change : SessionMeta → SessionMeta}
    {result : SessionMeta → Result} {absent : Result}
    (heffects : s.effects a = (edit a.now s.disk id change result absent).2)
    (hedits : a.call.edits = some (id, field)) (hresaves : a.call.resaves = none)
    (hfield : field ∈ metaKeys)
    (hchange : ∀ m key, key ≠ field → lookup (change m).fields key = lookup m.fields key) :
    Keeps a s ↔ (3 ≤ a.cut → ∀ data, read s.disk id = some data →
      (metaFrom a.now data).isSome → Plain data) := by
  rcases edit_cases change result absent with ⟨file, data, m, hfile, hread, hmeta, heq⟩ | ⟨heq, hnone⟩
  · have hw : Writes a s id (change m) (conversationOf data) file.said := .inl (heffects.trans heq)
    rcases Decidable.em (3 ≤ a.cut) with hcut | hcut
    · have hnew := read_payload (session_written hw hcut)
      constructor
      · intro hkeeps _ data' hdata _
        cases hread.symm.trans hdata
        exact (sameBut_iff hmeta hfield (hchange m)).1 (hkeeps.edited id field hedits data _ hread hnew)
      · intro hplain
        refine ⟨fun other given h => absurd (hresaves.symm.trans h) (by simp),
          fun other field' h old new hold hread' => ?_, fun other h => ?_, sidecar_guarded _ s⟩
        · cases hedits.symm.trans h
          cases hread.symm.trans hold
          cases hnew.symm.trans hread'
          exact (sameBut_iff hmeta hfield (hchange m)).2 (hplain hcut data hread (by rw [hmeta]; rfl))
        · rw [h] at hedits
          cases hedits
    · exact iff_of_true (keeps_unchanged (session_uncut hw hcut)) fun h => absurd h hcut
  · have hsame := after_nothing (heffects.trans heq)
    refine iff_of_true (keeps_unchanged fun other => by rw [hsame]) fun _ data hdata hmeta => ?_
    rw [hnone data hdata] at hmeta
    cases hmeta

theorem keeps_rename {newTitle : PyStr} :
    Keeps ⟨.rename id newTitle, now, cut⟩ s ↔ Careful ⟨.rename id newTitle, now, cut⟩ s := by
  rcases Decidable.em (Text.strip newTitle = []) with hempty | hsome
  · have hsame := after_nothing (a := ⟨.rename id newTitle, now, cut⟩) (s := s)
      (congrArg Prod.snd (if_pos hempty))
    exact iff_of_true (keeps_unchanged fun other => by rw [hsame]) fun _ h => absurd hempty h
  · have heffects := congrArg Prod.snd (perform_rename now s.clock s.disk id hsome)
    refine (keeps_edit (a := ⟨.rename id newTitle, now, cut⟩) heffects rfl rfl (by decide)
      fun m key hkey => lookup_other hkey _ (m.fields.take 1)).trans ?_
    exact ⟨fun h hcut _ => h hcut, fun h hcut => h hcut hsome⟩

theorem keeps_setArchived {archived : Bool} :
    Keeps ⟨.setArchived id archived, now, cut⟩ s ↔ Careful ⟨.setArchived id archived, now, cut⟩ s :=
  keeps_edit rfl rfl rfl (by decide) fun m key hkey => lookup_other hkey [] (m.fields.take 12)

theorem keeps_recover :
    Keeps ⟨.recoverAutosave id, now, cut⟩ s ↔ Careful ⟨.recoverAutosave id, now, cut⟩ s := by
  have hcases := @recover_cases now s.disk id
  rcases hcases with ⟨side, data, m, saved, hside, hvalue, hmeta, hbuild, hmade, heq⟩ | ⟨heq, hnone⟩
  · have hw : Writes ⟨.recoverAutosave id, now, cut⟩ s id saved (conversationOf data) side.said :=
      .inr heq
    rcases Decidable.em (3 ≤ cut) with hcut | hcut
    · have hthere := session_written hw hcut
      constructor
      · intro hkeeps _ side' data' m' file old hside' hvalue' hmeta' hfile hold _
        cases hside.symm.trans hside'
        cases hvalue.symm.trans hvalue'
        cases hmeta.symm.trans hmeta'
        rw [hold] at hbuild
        have hnewer := hkeeps.newer id rfl file _ (isSome_read hold) hfile hthere
        exact ⟨(kept_iff hbuild (recoverArgs_defaults m data)).1
          (hkeeps.resaved id _ rfl old saved hold (metaAt_payload now hthere)), hnewer⟩
      · intro hcareful
        refine ⟨fun other given h old new hold hnew => ?_, fun other field h => (by cases h),
          fun other h old new hread hold hnew => ?_, sidecar_guarded _ s⟩
        · cases h
          obtain ⟨file, hfile⟩ := file_of_read (Option.isSome_iff_exists.1 (isSome_read hold))
          rw [show metaAt now s.disk id = some old from hold] at hbuild
          have hagrees := (hcareful hcut side data m file old hside hvalue hmeta hfile hold
            (by rw [hbuild]; rfl)).1
          cases resaved_written hw hcut hnew
          exact (kept_iff hbuild (recoverArgs_defaults m data)).2 hagrees
        · cases h
          obtain ⟨there, hmetaAt⟩ := Option.isSome_iff_exists.1 (hmade hread)
          rw [hmetaAt] at hbuild
          cases hthere.symm.trans hnew
          exact (hcareful hcut side data m old there hside hvalue hmeta hold hmetaAt
            (by rw [hbuild]; rfl)).2
    · exact iff_of_true (keeps_unchanged (session_uncut hw hcut)) fun h => absurd h hcut
  · have hsame := after_nothing (a := ⟨.recoverAutosave id, now, cut⟩) heq
    refine iff_of_true (keeps_unchanged fun other => by rw [hsame])
      fun _ side data m file old hside hvalue hmeta _ hold hbuild => ?_
    rw [hnone side data m old hside hvalue hmeta hold] at hbuild
    cases hbuild

theorem keeps_iff (a : Step) (s : SessionStore) : Keeps a s ↔ Careful a s := by
  obtain ⟨call, now, cut⟩ := a
  cases call with
  | save sessionId minted call =>
      cases sessionId with
      | some id => exact keeps_save
      | none => exact iff_of_true (keeps_others rfl rfl) fun _ => trivial
  | rename id newTitle => exact keeps_rename
  | setArchived id archived => exact keeps_setArchived
  | recoverAutosave id => exact keeps_recover
  | autosave id call => exact iff_of_true (keeps_others rfl rfl) fun _ => trivial
  | clearAutosave id => exact iff_of_true (keeps_others rfl rfl) fun _ => trivial
  | discardAutosave id => exact iff_of_true (keeps_others rfl rfl) fun _ => trivial
  | delete id => exact iff_of_true (keeps_others rfl rfl) fun _ => trivial

end Keeping

-- ===== runs

/-- Over any run, with a crash in any call, every file is one that was
written as a whole, and what was not changed is kept, exactly when every
step is careful. -/
theorem snapshots_kept_iff {as : List Step} {s t : SessionStore}
    (hrun : run storeStep as s = some t) :
    Meets storeStep (fun a s' => Complete s.disk s' ∧ Keeps a s') as s ∧ Complete s.disk t ↔
      Meets storeStep Careful as s := by
  refine upheld_iff_meets (I := fun _ => True) (fun _ _ _ _ _ _ _ => trivial) ?_ trivial
    (fun id file hfile => .inl ⟨file, hfile, rfl⟩) hrun
  intro a s₁ s₂ _ hcomplete hs
  exact (and_iff_left (complete_step hcomplete hs)).trans (keeps_iff a s₁)

def emptyStore : SessionStore := { disk := fun _ => none }

def budget : SessionId := ⟨"b7".toList, by decide, by simp⟩

def plainSave : SaveCall := { conversation := [], workspace := [], modelId := "m".toList }

def crashedSaves : List Step :=
  [⟨.save none budget plainSave, "t0".toList, 3⟩, ⟨.rename budget " Budget".toList, "t1".toList, 3⟩,
    ⟨.save (some budget) budget plainSave, "t2".toList, 2⟩]

theorem crashed_kept : ∃ t, run storeStep crashedSaves emptyStore = some t ∧
    Meets storeStep (fun a s' => Complete emptyStore.disk s' ∧ Keeps a s') crashedSaves emptyStore ∧
    Complete emptyStore.disk t := by
  have hplain : Careful ⟨.rename budget " Budget".toList, "t1".toList, 3⟩
      ((storeStep ⟨.save none budget plainSave, "t0".toList, 3⟩ emptyStore).getD emptyStore) := by
    intro _ _ data hdata _
    cases hdata
    exact ⟨by decide, by decide⟩
  refine ⟨_, rfl, (snapshots_kept_iff rfl).2 ⟨fun _ => trivial, fun s₁ hs₁ => ?_⟩⟩
  cases hs₁
  refine ⟨hplain, fun s₂ hs₂ => ⟨fun hcut => absurd hcut (by decide), fun _ _ => trivial⟩⟩

def renamedSaves : List Step :=
  [⟨.save none budget plainSave, "t0".toList, 3⟩, ⟨.rename budget "Budget".toList, "t1".toList, 3⟩,
    ⟨.save (some budget) budget plainSave, "t2".toList, 3⟩]

/-- A crash guard is older than what was then saved, and is recovered. -/
def recoveredSaves : List Step :=
  [⟨.autosave budget { conversation := [], workspace := [], modelId := "m".toList, pid := 1, host := [] },
      "t0".toList, 3⟩,
    ⟨.save none budget { plainSave with tags := some ["keep".toList] }, "t1".toList, 3⟩,
    ⟨.recoverAutosave budget, "t2".toList, 4⟩]

/-- The store has one file, with a key that the store does not know. -/
def foreignStore : SessionStore :=
  { disk := fun place =>
      if place = .session budget then
        some { value := some (.obj [("meta".toList, .obj
            [("id".toList, text "b7"), ("title".toList, text "T"), ("created_at".toList, text "t"),
              ("updated_at".toList, text "t"), ("workspace".toList, text ""),
              ("project_name".toList, text "unknown"), ("model_id".toList, text "m"),
              ("pinned".toList, .bool true)]), ("conversation".toList, .arr [])]), said := 0 }
      else none }

/-- The title is the automatic one again; the older conversation is in the
place of the newer; the key is gone. -/
theorem snapshots_lost :
    ¬ Meets storeStep Keeps renamedSaves emptyStore ∧
    ¬ Meets storeStep Keeps recoveredSaves emptyStore ∧
    ¬ Meets storeStep Keeps [⟨.rename budget "Budget".toList, "t".toList, 3⟩] foreignStore := by
  refine ⟨fun h => ?_, fun h => ?_, fun h => ?_⟩
  · have hkeeps := ((h.2 _ rfl).2 _ rfl).1
    have htitle : Json.str "Untitled session".toList = .str "Budget".toList :=
      (hkeeps.resaved budget {} rfl _ _ rfl rfl).title rfl
    exact absurd (Json.str.inj htitle) (by decide)
  · have hkeeps := ((h.2 _ rfl).2 _ rfl).1
    have hnewer : 1 ≤ 0 := hkeeps.newer budget rfl _ _ rfl rfl rfl
    exact absurd hnewer (by decide)
  · have hsame := (h.1.edited budget "title".toList rfl _ _ rfl rfl).2
    have hgone := hsame "pinned".toList (.bool true) (by decide) rfl
    cases hgone

end Velune.Sessions
