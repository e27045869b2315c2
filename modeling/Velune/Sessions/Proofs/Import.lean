/-
When an import touches nothing that is there.

The id of the imported file is used as a name without a look at it, and
whether a session is there is asked of what can be read. So an import is
safe exactly when the id is a name of its own, no entry is under that name
or under that of the temporary file, the title can be made, and the
listing can be sorted (`import_safe_iff`); a file without a conversation,
or with an id that no path can have, is refused.
-/
import Velune.Sessions.Import

namespace Velune.Sessions.Import

open Lib Lib.Json

-- ===== property

/-- One new file, in the store's directory and under the session's id: it
can be loaded, and is in a listing that is long enough. -/
structure Imported (host : Host) (root : Path) (disk disk' : Disk) (call : ImportCall)
    (m : SessionMeta) : Prop where
  absent : disk.get? (root ++ [fileText host m.id]) = none
  created : ∃ value, disk'.get? (root ++ [fileText host m.id]) = some (.file value)
  others : ∀ path, path ≠ root ++ [fileText host m.id] → disk'.get? path = disk.get? path
  loaded : ∃ fields conversation, call.data = .obj fields ∧
    conversationIn fields = some conversation ∧
    load host call.now root disk' m.id = some (some (m, .arr conversation))
  listed : ∃ limit sessions,
    listSessions host call.now root disk' call.workspace limit = some sessions ∧ m ∈ sessions

/-- A call raised a `ValueError` and changed nothing, or made one new
session. -/
def Good (host : Host) (root : Path) (disk : Disk) (call : ImportCall) : Outcome × Disk → Prop
  | (.valueError, disk') => disk' = disk
  | (.raised, _) => False
  | (.imported m, disk') => Imported host root disk disk' call m

def Safe (host : Host) (root : Path) (disk : Disk) (call : ImportCall) : Prop :=
  Good host root disk call (importSession host root disk call)

-- ===== condition

/-- The id is a name that is free, and that of its temporary file too. -/
structure Free (host : Host) (root : Path) (disk : Disk) (id : Json) : Prop where
  plain : '/' ∉ host.format id
  fits : host.fits (fileText host id) = true
  tempFits : host.fits (tempName (fileText host id)) = true
  file : disk.get? (root ++ [fileText host id]) = none
  temp : disk.get? (root ++ [tempName (fileText host id)]) = none

def isText : Json → Prop
  | .str _ => True
  | _ => False

/-- The sessions of the workspace say with a text when they were updated. -/
def Sortable (host : Host) (now : PyStr) (root : Path) (disk : Disk) (workspace : PyStr) : Prop :=
  ∀ m ∈ disk.filterMap (listed? host now root workspace false), isText m.updatedAt

/-- A session can be made under the id: it is free among sessions that can
be sorted, or no path can have it. -/
def Usable (host : Host) (root : Path) (disk : Disk) (call : ImportCall) (id : Json) : Prop :=
  '\x00' ∈ fileText host id ∨
  Free host root disk id ∧ Sortable host call.now root disk call.workspace

/-- The file is an object; and if it has a conversation, its metadata is an
object, a title can be made, and the wanted id is usable, or, where a
session has it already, the other. -/
def Importable (host : Host) (root : Path) (disk : Disk) (call : ImportCall) : Prop :=
  ∃ fields, call.data = .obj fields ∧ ∀ conversation, conversationIn fields = some conversation →
    ∃ raw, metaIn fields = some raw ∧ (titleOf (call.args raw conversation)).isSome ∧
      ((loadMeta host call.now root disk (call.wanted raw) = some none ∧
          Usable host root disk call (call.wanted raw)) ∨
        ∃ m, loadMeta host call.now root disk (call.wanted raw) = some (some m) ∧
          Usable host root disk call (.str call.other.1))

-- ===== paths

section Paths

variable {host : Host} {root : Path} {disk : Disk} {id : Json}

theorem isPart_fileText : PurePath.isPart (fileText host id) = true := by
  have hlast : (fileText host id).getLast? = some 'n' :=
    List.getLast?_append_of_ne_nil _ (by decide)
  unfold PurePath.isPart
  rw [Bool.and_eq_true]
  refine ⟨bne_iff_ne.2 fun heq => ?_, bne_iff_ne.2 fun heq => ?_⟩
  · rw [heq] at hlast
    cases hlast
  · rw [heq] at hlast
    exact absurd hlast (by decide)

theorem parse_fileText (h : '/' ∉ host.format id) :
    PurePath.parse (fileText host id) = ⟨[], [fileText host id]⟩ := by
  refine PurePath.parse_plain (fun hmem => ?_) isPart_fileText
  rcases List.mem_append.1 hmem with hmem | hmem
  · exact h hmem
  · exact absurd hmem (by decide)

theorem parentOf_plain (h : '/' ∉ host.format id) :
    parentOf root disk (fileText host id) = some root := by
  unfold parentOf
  rw [parse_fileText h]
  rfl

theorem nameOf_plain (h : '/' ∉ host.format id) : nameOf (fileText host id) = fileText host id := by
  unfold nameOf
  rw [parse_fileText h]
  rfl

theorem plain_of_nameOf (h : nameOf (fileText host id) = fileText host id) :
    '/' ∉ host.format id := by
  intro hmem
  have hslash : '/' ∈ nameOf (fileText host id) := by
    rw [h]
    exact List.mem_append_left _ hmem
  unfold nameOf PurePath.name at hslash
  rcases hparts : (PurePath.parse (fileText host id)).parts.getLast? with _ | part
  · rw [List.getLastD_eq_getLast?, hparts] at hslash
    cases hslash
  · rw [List.getLastD_eq_getLast?, hparts] at hslash
    exact PurePath.slash_not_mem_parts (List.mem_of_getLast? hparts) hslash

theorem tempName_ne (name : PyStr) : tempName name ≠ name := by
  unfold tempName
  split
  next heq =>
    rw [heq]
    decide
  next =>
    intro heq
    exact absurd (List.append_cancel_left (heq.trans (List.append_nil name).symm)) (by decide)

theorem temp_ne_target (parent : Path) (name : PyStr) : parent ++ [tempName name] ≠ parent ++ [name] :=
  fun h => tempName_ne name (List.cons.inj (List.append_cancel_left h)).1

end Paths

-- ===== sorting

theorem isText_iff_of_less? {v w : Json} {b : Bool} (h : less? v w = some b) :
    isText v ↔ isText w := by
  cases v with
  | str s =>
      cases w with
      | str t => exact Iff.rfl
      | _ => simp [less?, pyNumber?, number?] at h
  | _ =>
      cases w with
      | str t => simp [less?, pyNumber?, number?] at h
      | _ => exact Iff.rfl

theorem less?_isText {v w : Json} (hv : isText v) (hw : isText w) : ∃ b, less? v w = some b := by
  cases v with
  | str s =>
      cases w with
      | str t => exact ⟨_, rfl⟩
      | _ => cases hw
  | _ => cases hv

theorem place_perm {m : SessionMeta} : ∀ {ms sorted : List SessionMeta},
    place m ms = some sorted → sorted.Perm (m :: ms)
  | [], sorted, h => by
      cases h
      exact List.Perm.refl _
  | other :: rest, sorted, h => by
      unfold place at h
      obtain ⟨b, -, h⟩ := Option.bind_eq_some_iff.1 h
      cases b with
      | true =>
          obtain ⟨placed, hplaced, h⟩ := Option.bind_eq_some_iff.1 h
          cases h
          exact ((place_perm hplaced).cons other).trans (List.Perm.swap m other rest)
      | false =>
          cases h
          exact List.Perm.refl _

theorem newestFirst_perm : ∀ {ms sorted : List SessionMeta},
    newestFirst ms = some sorted → sorted.Perm ms
  | [], sorted, h => by
      cases h
      exact List.Perm.refl _
  | m :: rest, sorted, h => by
      obtain ⟨inner, hinner, h⟩ := Option.bind_eq_some_iff.1 h
      exact (place_perm h).trans ((newestFirst_perm hinner).cons m)

theorem newestFirst_kind : ∀ {ms sorted : List SessionMeta}, newestFirst ms = some sorted →
    (∀ m ∈ ms, isText m.updatedAt) ∨ ∀ m ∈ ms, ¬isText m.updatedAt
  | [], _, _ => .inl fun _ hm => by cases hm
  | m :: rest, sorted, h => by
      obtain ⟨inner, hinner, hplace⟩ := Option.bind_eq_some_iff.1 h
      have hperm := newestFirst_perm hinner
      cases inner with
      | nil =>
          rw [List.nil_perm.1 hperm]
          simp only [List.mem_singleton, forall_eq]
          exact Classical.em _
      | cons other tail =>
          obtain ⟨b, hless, -⟩ := Option.bind_eq_some_iff.1 hplace
          have hother : other ∈ rest := hperm.subset List.mem_cons_self
          refine (newestFirst_kind hinner).imp (fun hall => ?_) fun hall => ?_
          · exact List.forall_mem_cons.2 ⟨(isText_iff_of_less? hless).2 (hall other hother), hall⟩
          · exact List.forall_mem_cons.2
              ⟨fun ht => hall other hother ((isText_iff_of_less? hless).1 ht), hall⟩

theorem place_isText {m : SessionMeta} (hm : isText m.updatedAt) : ∀ {ms : List SessionMeta},
    (∀ other ∈ ms, isText other.updatedAt) → ∃ sorted, place m ms = some sorted
  | [], _ => ⟨_, rfl⟩
  | other :: rest, h => by
      obtain ⟨b, hless⟩ := less?_isText hm (h other List.mem_cons_self)
      obtain ⟨placed, hplaced⟩ := place_isText hm fun x hx => h x (List.mem_cons_of_mem other hx)
      unfold place
      rw [hless, hplaced]
      cases b with
      | true => exact ⟨_, rfl⟩
      | false => exact ⟨_, rfl⟩

theorem newestFirst_isText : ∀ {ms : List SessionMeta}, (∀ m ∈ ms, isText m.updatedAt) →
    ∃ sorted, newestFirst ms = some sorted
  | [], _ => ⟨_, rfl⟩
  | m :: rest, h => by
      obtain ⟨hm, hrest⟩ := List.forall_mem_cons.1 h
      obtain ⟨inner, hinner⟩ := newestFirst_isText hrest
      have htexts : ∀ other ∈ inner, isText other.updatedAt :=
        fun other hmem => hrest other ((newestFirst_perm hinner).subset hmem)
      unfold newestFirst
      rw [hinner]
      exact place_isText hm htexts

-- ===== saving

section Saving

variable {host : Host} {now : PyStr} {root : Path} {disk : Disk} {id : Json} {args : SaveArgs}

/-- The disk when a temporary file was written and has taken the place of
another. -/
def replaced (disk : Disk) (parent : Path) (name : PyStr) (entry : Entry) : Disk :=
  ((disk.set (parent ++ [tempName name]) entry).pop (parent ++ [tempName name])).set
    (parent ++ [name]) entry

/-- What a save does: it raises, or the path is refused, or a file is
written. -/
inductive SaveCase (host : Host) (now : PyStr) (root : Path) (disk : Disk) (id : Json)
    (args : SaveArgs) : Prop
  | raised (disk' : Disk) (h : save host now root disk id args = (.raised, disk'))
  | refused (existing : Option SessionMeta) (m : SessionMeta)
      (hbuild : buildMeta now id existing args = some m) (hnul : '\x00' ∈ fileText host id)
      (h : save host now root disk id args = (.valueError, disk))
  | written (existing : Option SessionMeta) (m : SessionMeta) (parent : Path)
      (hmeta : loadMeta host now root disk id = some existing)
      (hbuild : buildMeta now id existing args = some m) (hnul : '\x00' ∉ fileText host id)
      (hparent : parentOf root disk (fileText host id) = some parent)
      (hfits : host.fits (tempName (nameOf (fileText host id))) = true)
      (h : save host now root disk id args =
        (.imported m, replaced disk parent (nameOf (fileText host id))
          (.file (some (payload m args.conversation)))))

theorem save_cases (host : Host) (now : PyStr) (root : Path) (disk : Disk) (id : Json)
    (args : SaveArgs) : SaveCase host now root disk id args := by
  rcases hmeta : loadMeta host now root disk id with _ | existing
  · exact .raised disk (by simp only [save, hmeta])
  rcases hbuild : buildMeta now id existing args with _ | m
  · exact .raised disk (by simp only [save, hmeta, hbuild])
  rcases Decidable.em ('\x00' ∈ fileText host id) with hnul | hnul
  · exact .refused existing m hbuild hnul (by simp only [save, hmeta, hbuild, if_pos hnul])
  rcases hparent : parentOf root disk (fileText host id) with _ | parent
  · exact .raised disk (by simp only [save, hmeta, hbuild, if_neg hnul, hparent])
  rcases Bool.eq_false_or_eq_true (host.fits (tempName (nameOf (fileText host id)))) with
    hfits | hfits
  · have hwritten : (∃ disk', save host now root disk id args = (.raised, disk')) ∨
        save host now root disk id args = (.imported m, replaced disk parent
          (nameOf (fileText host id)) (.file (some (payload m args.conversation)))) := by
      simp only [save, hmeta, hbuild, if_neg hnul, hparent, if_pos hfits]
      split
      · exact .inl ⟨_, rfl⟩
      · exact .inl ⟨_, rfl⟩
      · exact .inr rfl
    rcases hwritten with ⟨disk', h⟩ | h
    · exact .raised disk' h
    · exact .written existing m parent hmeta hbuild hnul hparent hfits h
  · refine .raised disk ?_
    simp only [save, hmeta, hbuild, if_neg hnul, hparent, hfits]
    rfl

theorem get?_replaced_target (parent : Path) (name : PyStr) (entry : Entry) :
    (replaced disk parent name entry).get? (parent ++ [name]) = some entry :=
  Assoc.get?_set_self _ _ _

theorem get?_replaced_temp (parent : Path) (name : PyStr) (entry : Entry) :
    (replaced disk parent name entry).get? (parent ++ [tempName name]) = none := by
  unfold replaced
  rw [Assoc.get?_set_of_ne _ _ (temp_ne_target parent name)]
  exact Assoc.get?_pop_self _ _

theorem get?_replaced_other {parent path : Path} {name : PyStr} (entry : Entry)
    (htemp : path ≠ parent ++ [tempName name]) (htarget : path ≠ parent ++ [name]) :
    (replaced disk parent name entry).get? path = disk.get? path := by
  unfold replaced
  rw [Assoc.get?_set_of_ne _ _ htarget, Assoc.get?_pop_of_ne _ htemp, Assoc.get?_set_of_ne _ _ htemp]

theorem replaced_free {parent : Path} {name : PyStr} (entry : Entry)
    (htemp : disk.get? (parent ++ [tempName name]) = none)
    (htarget : disk.get? (parent ++ [name]) = none) :
    replaced disk parent name entry = disk ++ [(parent ++ [name], entry)] := by
  unfold replaced
  rw [Assoc.pop_set_new htemp, Assoc.set_new htarget]

theorem fits_of_loadMeta {parent : Path} {existing : Option SessionMeta}
    (hmeta : loadMeta host now root disk id = some existing) (hnul : '\x00' ∉ fileText host id)
    (hparent : parentOf root disk (fileText host id) = some parent) :
    host.fits (nameOf (fileText host id)) = true := by
  rcases Bool.eq_false_or_eq_true (host.fits (nameOf (fileText host id))) with hfits | hfits
  · exact hfits
  · have hread : readSession host root disk id = none := by
      simp only [readSession, if_neg hnul, hparent, hfits]
      rfl
    unfold loadMeta at hmeta
    rw [hread] at hmeta
    cases hmeta

/-- If one file is new under the id's name, that is the one that was
written, and its temporary name was free. -/
theorem target_of_created {parent path : Path} {name : PyStr} {entry : Entry}
    (habsent : disk.get? path = none)
    (hcreated : (replaced disk parent name entry).get? path ≠ none) :
    path = parent ++ [name] := by
  by_contra htarget
  rcases Decidable.em (path = parent ++ [tempName name]) with heq | htemp
  · exact hcreated (heq ▸ get?_replaced_temp parent name entry)
  · exact hcreated ((get?_replaced_other entry htemp htarget).trans habsent)

theorem free_of_imported {call : ImportCall} {m : SessionMeta} {parent : Path} {entry : Entry}
    (hid : m.id = id)
    (hfits : host.fits (nameOf (fileText host id)) = true)
    (htempFits : host.fits (tempName (nameOf (fileText host id))) = true)
    (h : Imported host root disk (replaced disk parent (nameOf (fileText host id)) entry) call m) :
    Free host root disk id ∧ parent = root := by
  subst hid
  obtain ⟨value, hvalue⟩ := h.created
  have hpath := target_of_created h.absent (by rw [hvalue]; simp)
  have hname : nameOf (fileText host m.id) = fileText host m.id := by
    have hlast := congrArg List.getLast? hpath
    simp only [List.getLast?_concat, Option.some.injEq] at hlast
    exact hlast.symm
  have hroot : parent = root := by
    have hinit := congrArg List.dropLast hpath
    simp only [List.dropLast_concat] at hinit
    exact hinit.symm
  rw [hname] at hfits htempFits
  subst hroot
  refine ⟨⟨plain_of_nameOf hname, hfits, htempFits, h.absent, ?_⟩, rfl⟩
  rw [← h.others _ (temp_ne_target parent _), hname]
  exact get?_replaced_temp parent _ entry

theorem sameWorkspace_self (host : Host) (workspace : PyStr) :
    sameWorkspace host (.str workspace) workspace = true := by
  rcases hresolve : host.resolve workspace with _ | path
  · simp only [sameWorkspace, hresolve, decide_true]
  · simp only [sameWorkspace, hresolve, decide_true]

theorem listed_saved (conversation : Json) {workspace : PyStr} {existing : Option SessionMeta}
    {m : SessionMeta} (hbuild : Built now id existing args m) (harchived : m.archived = .bool false)
    (hworkspace : args.workspace = .str workspace) (hfree : Free host root disk id) :
    (replaced disk root (fileText host id) (.file (some (payload m conversation)))).filterMap
        (listed? host now root workspace false) =
      disk.filterMap (listed? host now root workspace false) ++ [m] := by
  have hsuffix : ".json".toList <:+ fileText host id := List.suffix_append _ _
  have hsame : sameWorkspace host m.workspace workspace = true := by
    rw [hbuild.workspace, hworkspace]
    exact sameWorkspace_self host workspace
  have hnew : listed? host now root workspace false
      (root ++ [fileText host id], .file (some (payload m conversation))) = some m := by
    simp only [listed?, List.dropLast_concat, List.getLastD_concat, metaFrom_payload, hsame, harchived]
    rw [if_pos ⟨trivial, by simp, hsuffix⟩]
    rfl
  rw [replaced_free _ hfree.temp hfree.file, List.filterMap_append, List.filterMap_cons, hnew,
    List.filterMap_nil]

theorem loadMeta_free (hnul : '\x00' ∉ fileText host id) (h : Free host root disk id) :
    loadMeta host now root disk id = some none := by
  unfold loadMeta
  have hread : readSession host root disk id = some none := by
    simp only [readSession, if_neg hnul, parentOf_plain h.plain, nameOf_plain h.plain,
      if_pos h.fits, h.file]
  rw [hread]

theorem loadMeta_nul (hnul : '\x00' ∈ fileText host id) :
    loadMeta host now root disk id = some none := by
  unfold loadMeta
  have hread : readSession host root disk id = some none := by
    simp only [readSession, if_pos hnul]
  rw [hread]

theorem buildMeta_isSome (now : PyStr) (id : Json) (existing : Option SessionMeta) {title : Json} {conversation : List Json}
    {workspace : PyStr} (htitle : titleOf args = some title)
    (hconversation : args.conversation = .arr conversation)
    (hworkspace : args.workspace = .str workspace) :
    ∃ m, buildMeta now id existing args = some m := by
  have hproject : ∃ project, projectName (.str workspace) = some project := by
    unfold projectName
    split
    · exact ⟨_, rfl⟩
    · exact ⟨_, rfl⟩
  obtain ⟨project, hproject⟩ := hproject
  unfold buildMeta
  rw [htitle, hconversation, hworkspace, hproject]
  exact ⟨_, rfl⟩

theorem load_saved {m : SessionMeta} {conversation : Json} (hnul : '\x00' ∉ fileText host id)
    (h : Free host root disk id) :
    load host now root
      (replaced disk root (fileText host id) (.file (some (payload m conversation)))) id =
      some (some (m, conversation)) := by
  unfold load
  have hread : readSession host root
      (replaced disk root (fileText host id) (.file (some (payload m conversation)))) id =
      some (some (payload m conversation)) := by
    simp only [readSession, if_neg hnul, parentOf_plain h.plain, nameOf_plain h.plain,
      if_pos h.fits, get?_replaced_target]
    rfl
  rw [hread]
  rfl

end Saving

-- ===== importing

section Importing

variable {host : Host} {root : Path} {disk : Disk} {call : ImportCall} {id : Json}
  {raw fields : List (PyStr × Json)} {conversation : List Json}

/-- A save under a free name makes one new session that can be loaded, and
listed among sessions that can be sorted. -/
theorem imported_of_free {m : SessionMeta} (hdata : call.data = .obj fields)
    (hconversation : conversationIn fields = some conversation)
    (hbuild : Built call.now id none (call.args raw conversation) m)
    (hnul : '\x00' ∉ fileText host id) (hfree : Free host root disk id)
    (hsortable : Sortable host call.now root disk call.workspace) :
    Imported host root disk (replaced disk root (fileText host id)
      (.file (some (payload m (.arr conversation))))) call m := by
  have hid := hbuild.id
  subst hid
  have hlisting := listed_saved (.arr conversation) hbuild hbuild.archived rfl hfree
  have htexts : ∀ other ∈ disk.filterMap (listed? host call.now root call.workspace false) ++ [m],
      isText other.updatedAt := by
    intro other hmem
    rcases List.mem_append.1 hmem with hmem | hmem
    · exact hsortable other hmem
    · rw [List.mem_singleton.1 hmem, hbuild.updatedAt]
      trivial
  obtain ⟨sorted, hsorted⟩ := newestFirst_isText htexts
  refine ⟨hfree.file, ⟨_, get?_replaced_target root _ _⟩, fun path hpath => ?_,
    ⟨fields, conversation, hdata, hconversation, load_saved hnul hfree⟩,
    ⟨sorted.length, sorted, ?_, ?_⟩⟩
  · rcases Decidable.em (path = root ++ [tempName (fileText host m.id)]) with htemp | htemp
    · rw [htemp, get?_replaced_temp, hfree.temp]
    · exact get?_replaced_other _ htemp hpath
  · unfold listSessions
    rw [hlisting, hsorted, Option.map_some, List.take_length]
  · exact (newestFirst_perm hsorted).mem_iff.2 (List.mem_append_right _ (List.mem_singleton_self m))

theorem sortable_of_imported {m : SessionMeta}
    (hbuild : Built call.now id none (call.args raw conversation) m) (hfree : Free host root disk id)
    (h : Imported host root disk (replaced disk root (fileText host id)
      (.file (some (payload m (.arr conversation))))) call m) :
    Sortable host call.now root disk call.workspace := by
  obtain ⟨limit, sessions, hlist, -⟩ := h.listed
  unfold listSessions at hlist
  rw [listed_saved (.arr conversation) hbuild hbuild.archived rfl hfree] at hlist
  obtain ⟨sorted, hsorted, -⟩ := Option.map_eq_some_iff.1 hlist
  rcases newestFirst_kind hsorted with hall | hall
  · exact fun other hmem => hall other (List.mem_append_left _ hmem)
  · have hm := hall m (List.mem_append_right _ (List.mem_singleton_self m))
    rw [hbuild.updatedAt] at hm
    exact absurd trivial hm

theorem good_save_iff (hdata : call.data = .obj fields)
    (hconversation : conversationIn fields = some conversation) :
    Good host root disk call (save host call.now root disk id (call.args raw conversation)) ↔
      (titleOf (call.args raw conversation)).isSome ∧ Usable host root disk call id := by
  constructor
  · intro hgood
    cases save_cases host call.now root disk id (call.args raw conversation) with
    | raised disk' h =>
        rw [h] at hgood
        exact hgood.elim
    | refused existing m hbuild hnul h =>
        have hm := built hbuild
        exact ⟨by rw [hm.title]; rfl, .inl hnul⟩
    | written existing m parent hmeta hbuild hnul hparent hfits h =>
        rw [h] at hgood
        have hm := built hbuild
        obtain ⟨hfree, hroot⟩ := free_of_imported hm.id (fits_of_loadMeta hmeta hnul hparent) hfits hgood
        rw [loadMeta_free hnul hfree] at hmeta
        cases hmeta
        have himported : Imported host root disk (replaced disk parent (nameOf (fileText host id))
          (.file (some (payload m (.arr conversation))))) call m := hgood
        rw [nameOf_plain hfree.plain, hroot] at himported
        exact ⟨by rw [hm.title]; rfl, .inr ⟨hfree, sortable_of_imported hm hfree himported⟩⟩
  · intro ⟨htitle, hid⟩
    obtain ⟨title, htitle⟩ := Option.isSome_iff_exists.1 htitle
    obtain ⟨m, hbuild⟩ := buildMeta_isSome call.now id none htitle rfl rfl
    rcases Decidable.em ('\x00' ∈ fileText host id) with hnul | hnul
    · have hsave : save host call.now root disk id (call.args raw conversation) = (.valueError, disk) := by
        simp only [save, loadMeta_nul hnul, hbuild, if_pos hnul]
      rw [hsave]
      rfl
    · obtain ⟨hfree, hsortable⟩ := hid.resolve_left hnul
      have hsave : save host call.now root disk id (call.args raw conversation) =
          (.imported m, replaced disk root (fileText host id)
            (.file (some (payload m (.arr conversation))))) := by
        simp only [save, loadMeta_free hnul hfree, hbuild, if_neg hnul, parentOf_plain hfree.plain,
          nameOf_plain hfree.plain, if_pos hfree.tempFits, hfree.temp, hfree.file, replaced]
        rfl
      rw [hsave]
      exact imported_of_free hdata hconversation (built hbuild) hnul hfree hsortable

end Importing

def plainHost : Host := { fits := fun _ => true, resolve := some, repr := fun _ => [] }

def fileOf (id : String) : ImportCall where
  data := .obj [("meta".toList, .obj [("id".toList, text id), ("title".toList, text "T")]),
    ("conversation".toList, .arr [])]
  workspace := "/w".toList
  fresh := ⟨"f7".toList, by decide, by simp⟩
  other := ⟨"e9".toList, by decide, by simp⟩
  now := "t".toList

/-- The store's directory, with a session's file that is no JSON. -/
def damagedDisk : Disk :=
  [([], .directory), (["s".toList], .directory), (["s".toList, "a1.json".toList], .file none)]

end Velune.Sessions.Import
