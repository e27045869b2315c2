/-
Tool calls put together from a stream are the ones of the whole message,
and a message is read unless something in it has the wrong type
(`toolCalls_iff`).

What a stream leaves in a slot is what the fragments of its index leave,
whatever stands between them (`get?_added`), so an interleaving comes down
to the fragments of one call.
-/
import Mathlib.Data.List.Perm.Basic
import Mathlib.Data.List.Nodup
import Mathlib.Data.List.Range
import Velune.Providers.ToolCalls

namespace Velune.Adapters

open Lib Lib.JsonText

-- ===== vocabulary

structure WireCall where
  id : Option Str
  name : Str
  arguments : Str

/-- An entry of a message's `tool_calls` for a call. -/
def EntryOf (call : WireCall) (raw : Value) : Prop :=
  ∃ fields fn, raw = .dict fields
    ∧ (field fields "id" = call.id.map .str ∨ call.id = none ∧ field fields "id" = some .null)
    ∧ field fields "function" = some (.dict fn)
    ∧ field fn "name" = some (.str call.name) ∧ field fn "arguments" = some (.str call.arguments)

def Assembled (calls : List WireCall) (message : Fields) : Prop :=
  ∃ raws, field message "tool_calls" = some (.list raws) ∧ List.Forall₂ EntryOf calls raws

/-- Fragments of one call: the name and the arguments in pieces, and no id
but the call's. -/
structure Splits (call : WireCall) (frags : List Fragment) : Prop where
  some_frag : frags ≠ []
  name : frags.flatMap (·.name.getD []) = call.name
  arguments : frags.flatMap (·.arguments.getD []) = call.arguments
  own_id : ∀ frag ∈ frags, frag.id.getD [] ≠ [] → frag.id.getD [] = call.id.getD []
  given_id : call.id.getD [] ≠ [] → ∃ frag ∈ frags, frag.id.getD [] = call.id.getD []

/-- Fragments of several calls, mixed in any way: those with the index of a
call split it. -/
structure Streams (calls : List WireCall) (frags : List Fragment) : Prop where
  indexed : ∀ frag ∈ frags, ∃ i : Nat, i < calls.length ∧ frag.index = i
  splits : ∀ (i : Nat) (call : WireCall), calls[i]? = some call →
    Splits call (frags.filter fun frag => frag.index = i)

def accumulate (chunks : List (Option (List Fragment))) : Slots := chunks.foldl Slots.add []

structure Readable (py : Interpreter) (raw : Fields) : Prop where
  function : ∀ v, field raw "function" = some v → truthy py v = true → ∃ fn, v = .dict fn
  name : ∀ fn v, field raw "function" = some (.dict fn) → field fn "name" = some v → ∃ s, v = .str s
  id : ∀ v, field raw "id" = some v → truthy py v = true → ∃ s, v = .str s
  arguments : ∀ fn s, field raw "function" = some (.dict fn) →
    field fn "arguments" = some (.str s) → s ≠ [] → py.loads s ≠ .error .other

-- ===== slots

def slotOf (call : WireCall) : Slot where
  id := call.id.getD []
  name := call.name
  arguments := call.arguments

theorem take_fields (frags : List Fragment) : ∀ slot : Slot,
    (frags.foldl Slot.take slot).name = slot.name ++ frags.flatMap (·.name.getD [])
      ∧ (frags.foldl Slot.take slot).arguments
        = slot.arguments ++ frags.flatMap (·.arguments.getD []) := by
  induction frags with
  | nil => exact fun slot => ⟨(List.append_nil _).symm, (List.append_nil _).symm⟩
  | cons frag rest ih =>
      intro slot
      obtain ⟨hname, harguments⟩ := ih (slot.take frag)
      rw [List.foldl_cons, hname, harguments, List.flatMap_cons, List.flatMap_cons]
      exact ⟨List.append_assoc .., List.append_assoc ..⟩

theorem take_id {id : Str} : ∀ {frags : List Fragment} {slot : Slot},
    (∀ frag ∈ frags, frag.id.getD [] ≠ [] → frag.id.getD [] = id) → slot.id = [] ∨ slot.id = id →
      slot.id = id ∨ (∃ frag ∈ frags, frag.id.getD [] = id) →
        (frags.foldl Slot.take slot).id = id := by
  intro frags
  induction frags with
  | nil =>
      intro slot _ _ h
      exact h.resolve_right fun ⟨_, hmem, _⟩ => List.not_mem_nil hmem
  | cons frag rest ih =>
      intro slot hown hslot h
      have hfrag := hown frag (List.mem_cons_self ..)
      rw [List.foldl_cons]
      refine ih (fun f hf => hown f (List.mem_cons_of_mem _ hf)) ?_ ?_
      · show (if frag.id.getD [] = [] then slot.id else frag.id.getD []) = [] ∨ _
        unfold Slot.take
        dsimp only
        by_cases hnone : frag.id.getD [] = []
        · rw [if_pos hnone]
          exact hslot
        · rw [if_neg hnone]
          exact .inr (hfrag hnone)
      · unfold Slot.take
        dsimp only
        by_cases hnone : frag.id.getD [] = []
        · rw [if_pos hnone]
          rcases h with h | ⟨f, hf, hid⟩
          · exact .inl h
          · rcases List.mem_cons.1 hf with rfl | hf
            · rw [hnone] at hid
              exact .inl (hid ▸ hslot.elim (fun h => h) fun h => h.trans hid.symm)
            · exact .inr ⟨f, hf, hid⟩
        · rw [if_neg hnone]
          exact .inl (hfrag hnone)

theorem foldl_take {call : WireCall} {frags : List Fragment} (h : Splits call frags) :
    frags.foldl (fun found frag => some ((found.getD {}).take frag)) none = some (slotOf call) := by
  have hsome : ∀ (frags : List Fragment) (slot : Slot),
      frags.foldl (fun found frag => some (((found : Option Slot).getD {}).take frag)) (some slot)
        = some (frags.foldl Slot.take slot) := by
    intro frags
    induction frags with
    | nil => exact fun slot => rfl
    | cons frag rest ih => exact fun slot => ih (slot.take frag)
  have hfold : frags.foldl (fun found frag => some (((found : Option Slot).getD {}).take frag)) none
      = some (frags.foldl Slot.take {}) := by
    cases frags with
    | nil => exact absurd rfl h.some_frag
    | cons frag rest => exact hsome rest _
  obtain ⟨hname, harguments⟩ := take_fields frags {}
  have hid : (frags.foldl Slot.take {}).id = call.id.getD [] := by
    refine take_id h.own_id (.inl rfl) ?_
    by_cases hgiven : call.id.getD [] = []
    · exact .inl hgiven.symm
    · exact .inr (h.given_id hgiven)
  rw [hfold]
  refine congrArg some ?_
  show Slot.mk (frags.foldl Slot.take {}).id (frags.foldl Slot.take {}).name
    (frags.foldl Slot.take {}).arguments = _
  rw [hid, hname, harguments, h.name, h.arguments]
  rfl

theorem accumulate_eq (chunks : List (Option (List Fragment))) :
    accumulate chunks = Assoc.updates (·.index) (fun found frag => (found.getD {}).take frag)
      (chunks.flatMap (·.getD [])) [] := by
  have hadd : ∀ (chunks : List (Option (List Fragment))) (slots : Slots),
      chunks.foldl Slots.add slots = Assoc.updates (·.index)
        (fun found frag => (found.getD {}).take frag) (chunks.flatMap (·.getD [])) slots := by
    intro chunks
    induction chunks with
    | nil => exact fun slots => rfl
    | cons chunk rest ih =>
        intro slots
        rw [List.foldl_cons, ih, List.flatMap_cons]
        unfold Assoc.updates
        rw [List.foldl_append]
        rfl
  exact hadd chunks []

section Accumulated

variable {calls : List WireCall} {chunks : List (Option (List Fragment))}
  (h : Streams calls (chunks.flatMap (·.getD [])))

include h

theorem get?_accumulate (k : Int) (slot : Slot) :
    (accumulate chunks).get? k = some slot ↔
      ∃ (i : Nat) (call : WireCall), calls[i]? = some call ∧ k = i ∧ slot = slotOf call := by
  rw [accumulate_eq, Assoc.get?_updates]
  show List.foldl _ none _ = _ ↔ _
  constructor
  · intro hslot
    cases hfrags : (chunks.flatMap (·.getD [])).filter fun frag => frag.index = k with
    | nil =>
        rw [hfrags] at hslot
        cases hslot
    | cons frag rest =>
        have hmem : frag ∈ (chunks.flatMap (·.getD [])).filter fun frag => frag.index = k := by
          rw [hfrags]
          exact List.mem_cons_self ..
        obtain ⟨hstream, hindex⟩ := List.mem_filter.1 hmem
        obtain ⟨i, hi, hfrag⟩ := h.indexed frag hstream
        have hk : k = i := (of_decide_eq_true hindex).symm.trans hfrag
        have hcall := List.getElem?_eq_getElem hi
        subst hk
        rw [foldl_take (h.splits i _ hcall)] at hslot
        exact ⟨i, _, hcall, rfl, (Option.some.inj hslot).symm⟩
  · intro hcall
    obtain ⟨i, call, hcall, rfl, rfl⟩ := hcall
    exact foldl_take (h.splits i call hcall)

omit h

theorem keys_accumulate : (accumulate chunks).keys.Nodup := by
  rw [accumulate_eq]
  exact Assoc.keys_updates _ _ _ List.nodup_nil

def slotsOf (first : Nat) (calls : List WireCall) : Slots :=
  (calls.zipIdx first).map fun item => ((item.2 : Int), slotOf item.1)

theorem mem_slotsOf {k : Int} {slot : Slot} : (k, slot) ∈ slotsOf 0 calls ↔
    ∃ (i : Nat) (call : WireCall), calls[i]? = some call ∧ k = i ∧ slot = slotOf call := by
  unfold slotsOf
  rw [List.mem_map]
  constructor
  · intro hmem
    obtain ⟨item, hitem, heq⟩ := hmem
    obtain ⟨hk, hslot⟩ := Prod.mk.inj heq
    exact ⟨item.2, item.1, List.mem_zipIdx_iff_getElem?.1 hitem, hk.symm, hslot.symm⟩
  · intro hmem
    obtain ⟨i, call, hcall, rfl, rfl⟩ := hmem
    exact ⟨(call, i), List.mem_zipIdx_iff_getElem?.2 hcall, rfl⟩

theorem sorted_slotsOf : (slotsOf 0 calls).Pairwise fun a b => a.1 ≤ b.1 ∧ a.1 ≠ b.1 := by
  have hindices : ((slotsOf 0 calls).map (·.1)) = (List.range' 0 calls.length).map Int.ofNat := by
    unfold slotsOf
    rw [List.map_map, ← List.zipIdx_map_snd 0 calls, List.map_map]
    rfl
  have hsorted : ((slotsOf 0 calls).map (·.1)).Pairwise fun a b => a ≤ b ∧ a ≠ b := by
    rw [hindices, List.pairwise_map]
    refine (List.pairwise_lt_range' ..).imp fun {i j} hij => ?_
    have hlt : (i : Int) < j := Int.ofNat_lt.2 hij
    exact ⟨Int.le_of_lt hlt, Int.ne_of_lt hlt⟩
  exact List.pairwise_map.1 hsorted

include h

theorem sorted_accumulate :
    (accumulate chunks).mergeSort (fun a b => decide (a.1 ≤ b.1)) = slotsOf 0 calls := by
  have hnodup : (accumulate chunks).Nodup := keys_accumulate.of_map _
  have hsorted := @sorted_slotsOf calls
  have hnodup' : (slotsOf 0 calls).Nodup :=
    hsorted.imp fun {a b} hab heq => hab.2 (congrArg Prod.fst heq)
  have hperm : (accumulate chunks).Perm (slotsOf 0 calls) := by
    refine (List.perm_ext_iff_of_nodup hnodup hnodup').2 fun e => ?_
    rw [← Assoc.get?_eq_some_iff keys_accumulate, get?_accumulate h, mem_slotsOf]
  have hmerged := (List.mergeSort_perm (accumulate chunks) fun a b => decide (a.1 ≤ b.1)).trans hperm
  refine List.Perm.eq_of_pairwise (fun a b ha hb hab hba => ?_) ?_
    (hsorted.imp fun {a b} hab => hab.1) hmerged
  · have hkey : a.1 = b.1 := Int.le_antisymm hab hba
    have hone : (accumulate chunks).get? a.1 = some a.2 :=
      (Assoc.get?_eq_some_iff keys_accumulate).2 (hperm.mem_iff.2 (hmerged.mem_iff.1 ha))
    have hother : (accumulate chunks).get? b.1 = some b.2 :=
      (Assoc.get?_eq_some_iff keys_accumulate).2 (hperm.mem_iff.2 hb)
    rw [hkey, hother] at hone
    exact Prod.ext hkey (Option.some.inj hone).symm
  · refine (List.pairwise_mergeSort ?_ ?_ _).imp fun {a b} hab => of_decide_eq_true hab
    · exact fun a b c hab hbc => decide_eq_true
        (Int.le_trans (of_decide_eq_true hab) (of_decide_eq_true hbc))
    · intro a b
      rcases Int.le_total a.1 b.1 with hab | hba
      · rw [decide_eq_true hab, Bool.true_or]
      · rw [decide_eq_true hba, Bool.or_true]

end Accumulated

-- ===== the loops

section Loops

variable (py : Interpreter) (fresh : Nat → Str)

theorem truthy_str {s : Str} : truthy py (.str s) = true ↔ s ≠ [] := by
  unfold truthy
  cases s with
  | nil => exact iff_of_false Bool.false_ne_true fun h => h rfl
  | cons c s => exact iff_of_true rfl (by simp)

/-- A call's entry and its slot make the same call, and use up the same
ids. -/
theorem callsOf_eq {calls : List WireCall} {raws : List Value}
    (h : List.Forall₂ EntryOf calls raws) : ∀ first n : Nat,
      callsOf py fresh n raws = slotCalls py fresh n (slotsOf first calls) := by
  induction h with
  | nil => exact fun first n => rfl
  | cons hentry hrest ih =>
      rename_i call raw calls raws
      intro first n
      obtain ⟨fields, fn, rfl, hid, hfunction, hname, harguments⟩ := hentry
      have hfn : functionOf py fields = .ok fn := by
        have htruthy : truthy py (.dict fn) = true := by
          cases fn with
          | nil => cases hname
          | cons e rest => rfl
        unfold functionOf
        rw [hfunction, Option.getD_some]
        dsimp only
        rw [if_pos htruthy]
      have hgiven : truthy py ((field fields "id").getD .null) = true ↔ call.id.getD [] ≠ [] := by
        rcases hid with hid | ⟨hnone, hid⟩
        · rw [hid]
          cases call.id with
          | none => exact iff_of_false Bool.false_ne_true fun h => h rfl
          | some id => exact truthy_str py
        · rw [hid, hnone]
          exact iff_of_false Bool.false_ne_true fun h => h rfl
      have hvalue : call.id.getD [] ≠ [] →
          (field fields "id").getD .null = .str (call.id.getD []) := by
        intro hsome
        rcases hid with hid | ⟨hnone, -⟩
        · rw [hid]
          cases hcall : call.id with
          | none =>
              rw [hcall] at hsome
              exact absurd rfl hsome
          | some id => rfl
        · rw [hnone] at hsome
          exact absurd rfl hsome
      show callsOf py fresh n (.dict fields :: raws)
        = slotCalls py fresh n (((first : Int), slotOf call) :: slotsOf (first + 1) calls)
      unfold callsOf slotCalls
      rw [hfn]
      simp only [hname, harguments, Option.getD_some]
      have harg : messageArguments py (.str call.arguments)
          = streamArguments py (slotOf call).arguments := rfl
      rw [harg]
      cases hread : streamArguments py (slotOf call).arguments with
      | error e => rfl
      | ok arguments =>
          dsimp only
          by_cases hsome : call.id.getD [] = []
          · have hfalse : ¬truthy py ((field fields "id").getD .null) = true := fun ht => hgiven.1 ht hsome
            have hslot : (slotOf call).id = [] := hsome
            simp only [if_neg hfalse, if_pos hslot, ToolCall.of]
            rw [ih (first + 1) (n + 1)]
            rfl
          · have htrue := (truthy_str py).2 hsome
            have hslot : ¬(slotOf call).id = [] := hsome
            simp only [hvalue hsome, if_pos htrue, if_neg hslot, ToolCall.of]
            rw [ih (first + 1) n]
            rfl

theorem finalize_eq {calls : List WireCall} {chunks : List (Option (List Fragment))} {message : Fields}
    (h : Streams calls (chunks.flatMap (·.getD []))) (hm : Assembled calls message) :
    (accumulate chunks).finalize py fresh = parseOpenaiToolCalls py fresh message := by
  obtain ⟨raws, hraws, hentries⟩ := hm
  have hsorted := sorted_accumulate h
  have hempty : accumulate chunks = [] ↔ calls = [] := by
    have hlength := (List.mergeSort_perm (accumulate chunks) fun a b => decide (a.1 ≤ b.1)).length_eq
    rw [hsorted] at hlength
    unfold slotsOf at hlength
    rw [List.length_map, List.length_zipIdx] at hlength
    rw [← List.length_eq_zero_iff, ← hlength, List.length_eq_zero_iff]
  unfold Slots.finalize parseOpenaiToolCalls
  rw [hraws, Option.getD_some, hsorted, ← callsOf_eq py fresh hentries 0 0]
  dsimp only
  cases hentries with
  | nil =>
      rw [if_pos (hempty.2 rfl), if_neg (show ¬truthy py (.list []) = true from Bool.false_ne_true)]
  | cons hentry hrest =>
      rename_i call raw calls raws
      rw [if_neg (fun hnil => List.cons_ne_nil call calls (hempty.1 hnil)),
        if_pos (show truthy py (.list (raw :: raws)) = true from rfl)]

-- ===== malformed input

theorem of_ok_iff {id name : Value} {arguments : Fields} :
    (∃ call, ToolCall.of id name arguments = .ok call) ↔
      (∃ s, id = .str s) ∧ ∃ s, name = .str s := by
  constructor
  · intro h
    obtain ⟨call, hcall⟩ := h
    unfold ToolCall.of at hcall
    split at hcall
    next => exact ⟨⟨_, rfl⟩, _, rfl⟩
    next => cases hcall
  · intro h
    obtain ⟨⟨s, rfl⟩, t, rfl⟩ := h
    exact ⟨_, rfl⟩

theorem messageArguments_ok_iff {v : Value} : (∃ arguments, messageArguments py v = .ok arguments) ↔
    ∀ s, v = .str s → s ≠ [] → py.loads s ≠ .error .other := by
  constructor
  · intro h s hs hne hloads
    obtain ⟨arguments, hok⟩ := h
    rw [hs] at hok
    unfold messageArguments at hok
    simp only [if_neg hne, hloads] at hok
    cases hok
  · intro h
    unfold messageArguments
    split
    next entries => exact ⟨entries, rfl⟩
    next s =>
      by_cases hnil : s = []
      · exact ⟨[], if_pos hnil⟩
      · rw [if_neg hnil]
        split
        next v _ => exact ⟨asArguments v, rfl⟩
        next => exact ⟨rawArguments (.str s), rfl⟩
        next hloads => exact absurd hloads (h s rfl hnil)
    next =>
      by_cases htruthy : truthy py v = true
      · exact ⟨_, if_pos htruthy⟩
      · exact ⟨_, if_neg htruthy⟩

theorem functionOf_dict {raw fn : Fields} (h : field raw "function" = some (.dict fn)) :
    functionOf py raw = .ok fn := by
  unfold functionOf
  rw [h, Option.getD_some]
  cases fn with
  | nil => rfl
  | cons e rest => rfl

theorem functionOf_ok {raw fn : Fields} (h : functionOf py raw = .ok fn) :
    field raw "function" = some (.dict fn)
      ∨ fn = [] ∧ ∀ fields, field raw "function" = some (.dict fields) → fields = [] := by
  cases hfield : field raw "function" with
  | none =>
      unfold functionOf at h
      rw [hfield] at h
      cases h
      exact .inr ⟨rfl, fun fields hsome => by cases hsome⟩
  | some v =>
      by_cases hdict : ∃ fields, v = .dict fields
      · obtain ⟨fields, rfl⟩ := hdict
        rw [functionOf_dict py hfield] at h
        cases h
        exact .inl rfl
      · unfold functionOf at h
        rw [hfield, Option.getD_some] at h
        dsimp only at h
        split at h
        next =>
          split at h
          next => exact absurd ⟨_, rfl⟩ hdict
          next => cases h
        next =>
          cases h
          exact .inr ⟨rfl, fun fields hsome => absurd ⟨fields, Option.some.inj hsome⟩ hdict⟩

theorem functionOf_ok_iff {raw : Fields} : (∃ fn, functionOf py raw = .ok fn) ↔
    ∀ v, field raw "function" = some v → truthy py v = true → ∃ fn, v = .dict fn := by
  constructor
  · intro h v hv htruthy
    obtain ⟨fn, hfn⟩ := h
    unfold functionOf at hfn
    rw [hv, Option.getD_some] at hfn
    dsimp only at hfn
    rw [if_pos htruthy] at hfn
    split at hfn
    next fields => exact ⟨fields, rfl⟩
    next => cases hfn
  · intro h
    unfold functionOf
    dsimp only
    split
    next htruthy =>
      cases hfield : field raw "function" with
      | none => exact ⟨[], rfl⟩
      | some v =>
          rw [hfield] at htruthy
          obtain ⟨fn, rfl⟩ := h v hfield htruthy
          exact ⟨fn, rfl⟩
    next => exact ⟨[], rfl⟩

theorem callsOf_cons_ok {n : Nat} {raw : Fields} {rest : List Value} {calls : List ToolCall} :
    callsOf py fresh n (.dict raw :: rest) = .ok calls ↔
      ∃ fn arguments call others, functionOf py raw = .ok fn
        ∧ messageArguments py ((field fn "arguments").getD (.str [])) = .ok arguments
        ∧ ToolCall.of (if truthy py ((field raw "id").getD .null) then (field raw "id").getD .null
            else .str (callId fresh n)) ((field fn "name").getD (.str [])) arguments = .ok call
        ∧ callsOf py fresh (if truthy py ((field raw "id").getD .null) then n else n + 1) rest
          = .ok others
        ∧ calls = call :: others := by
  constructor
  · intro h
    unfold callsOf at h
    split at h
    next => cases h
    next fn hfn =>
      split at h
      next => cases h
      next arguments harguments =>
        dsimp only at h
        split at h
        next => cases h
        next call hcall =>
          cases hothers : callsOf py fresh
              (if truthy py ((field raw "id").getD .null) then n else n + 1) rest with
          | error e =>
              rw [hothers] at h
              cases h
          | ok others =>
              rw [hothers] at h
              cases h
              exact ⟨fn, arguments, call, others, hfn, harguments, hcall, rfl, rfl⟩
  · intro h
    obtain ⟨fn, arguments, call, others, hfn, harguments, hcall, hothers, rfl⟩ := h
    unfold callsOf
    simp only [hfn, harguments, hcall, hothers]
    rfl

theorem readable_iff {raw : Fields} {n : Nat} : Readable py raw ↔
    ∃ fn arguments call, functionOf py raw = .ok fn
      ∧ messageArguments py ((field fn "arguments").getD (.str [])) = .ok arguments
      ∧ ToolCall.of (if truthy py ((field raw "id").getD .null) then (field raw "id").getD .null
          else .str (callId fresh n)) ((field fn "name").getD (.str [])) arguments = .ok call := by
  constructor
  · intro h
    obtain ⟨fn, hfn⟩ := (functionOf_ok_iff py).2 h.function
    have hargs : ∃ arguments,
        messageArguments py ((field fn "arguments").getD (.str [])) = .ok arguments := by
      refine (messageArguments_ok_iff py).2 fun s hs hne => ?_
      rcases functionOf_ok py hfn with hfield | ⟨rfl, -⟩
      · cases harg : field fn "arguments" with
        | none =>
            rw [harg] at hs
            cases hs
            exact absurd rfl hne
        | some v =>
            rw [harg, Option.getD_some] at hs
            exact h.arguments fn s hfield (hs ▸ harg) hne
      · cases hs
        exact absurd rfl hne
    obtain ⟨arguments, harguments⟩ := hargs
    have hid : ∃ s, (if truthy py ((field raw "id").getD .null) then (field raw "id").getD .null
        else .str (callId fresh n)) = Value.str s := by
      split
      next htruthy =>
        cases hfield : field raw "id" with
        | none =>
            rw [hfield] at htruthy
            cases htruthy
        | some v =>
            rw [hfield] at htruthy
            exact h.id v hfield htruthy
      next => exact ⟨_, rfl⟩
    have hname : ∃ s, (field fn "name").getD (.str []) = Value.str s := by
      rcases functionOf_ok py hfn with hfield | ⟨rfl, -⟩
      · cases hv : field fn "name" with
        | none => exact ⟨[], rfl⟩
        | some v => exact h.name fn v hfield hv
      · exact ⟨[], rfl⟩
    obtain ⟨call, hcall⟩ := (@of_ok_iff _ _ arguments).2 ⟨hid, hname⟩
    exact ⟨fn, arguments, call, hfn, harguments, hcall⟩
  · intro h
    obtain ⟨fn, arguments, call, hfn, harguments, hcall⟩ := h
    obtain ⟨hid, hname⟩ := of_ok_iff.1 ⟨call, hcall⟩
    have hsame : ∀ fields, field raw "function" = some (.dict fields) → fields = fn := by
      intro fields hfields
      rw [functionOf_dict py hfields] at hfn
      exact Except.ok.inj hfn
    constructor
    case function => exact (functionOf_ok_iff py).1 ⟨fn, hfn⟩
    case name =>
      intro fields v hfields hv
      rw [← hsame fields hfields, hv] at hname
      exact hname
    case id =>
      intro v hv htruthy
      rw [hv, Option.getD_some, if_pos htruthy] at hid
      exact hid
    case arguments =>
      intro fields s hfields hs
      refine (messageArguments_ok_iff py).1 ⟨arguments, harguments⟩ s ?_
      rw [← hsame fields hfields, hs]
      rfl

/-- The loop over objects raises nothing, and keeps them all, exactly if
each is readable. -/
theorem callsOf_ok_iff : ∀ {raws : List Value} {n : Nat}, (∀ raw ∈ raws, ∃ fields, raw = .dict fields) →
    ((∃ calls, callsOf py fresh n raws = .ok calls ∧ calls.length = raws.length) ↔
      ∀ fields, .dict fields ∈ raws → Readable py fields) := by
  intro raws
  induction raws with
  | nil =>
      intro n _
      exact iff_of_true ⟨[], rfl, rfl⟩ fun fields hmem => absurd hmem List.not_mem_nil
  | cons raw rest ih =>
      intro n hdicts
      obtain ⟨⟨fields, rfl⟩, hrest⟩ := List.forall_mem_cons.1 hdicts
      constructor
      · intro h
        obtain ⟨calls, hcalls, hlength⟩ := h
        obtain ⟨fn, arguments, call, others, hfn, harguments, hcall, hothers, rfl⟩ :=
          (callsOf_cons_ok py fresh).1 hcalls
        have hall := (ih hrest).1 ⟨others, hothers, Nat.succ.inj hlength⟩
        intro other hmem
        rcases List.mem_cons.1 hmem with heq | hmem
        · cases heq
          exact (readable_iff py fresh).2 ⟨fn, arguments, call, hfn, harguments, hcall⟩
        · exact hall other hmem
      · intro h
        obtain ⟨fn, arguments, call, hfn, harguments, hcall⟩ :=
          (@readable_iff py fresh fields n).1 (h fields (List.mem_cons_self ..))
        obtain ⟨others, hothers, hlength⟩ := (ih hrest).2 fun other hmem =>
          h other (List.mem_cons_of_mem _ hmem)
        exact ⟨call :: others, (callsOf_cons_ok py fresh).2
          ⟨fn, arguments, call, others, hfn, harguments, hcall, hothers, rfl⟩, congrArg (· + 1) hlength⟩

end Loops

/-- The calls of a stream are those of the message, and of a message whose
`tool_calls` are objects each becomes a call exactly if all are readable. -/
theorem toolCalls_iff (py : Interpreter) (fresh : Nat → Str) :
    (∀ (calls : List WireCall) (chunks : List (Option (List Fragment))) (message : Fields),
      Streams calls (chunks.flatMap (·.getD [])) → Assembled calls message →
        (accumulate chunks).finalize py fresh = parseOpenaiToolCalls py fresh message)
    ∧ ∀ (message : Fields) (raws : List Value), field message "tool_calls" = some (.list raws) →
      (∀ raw ∈ raws, ∃ fields, raw = .dict fields) →
        ((∃ result, parseOpenaiToolCalls py fresh message = .ok result
            ∧ (result.getD []).length = raws.length) ↔
          ∀ fields, .dict fields ∈ raws → Readable py fields) := by
  refine ⟨fun calls chunks message h hm => finalize_eq py fresh h hm, ?_⟩
  intro message raws hraws hdicts
  rw [← callsOf_ok_iff py fresh (n := 0) hdicts]
  unfold parseOpenaiToolCalls
  rw [hraws, Option.getD_some]
  dsimp only
  cases raws with
  | nil => exact iff_of_true ⟨none, rfl, rfl⟩ ⟨[], rfl, rfl⟩
  | cons raw rest =>
      rw [if_pos (show truthy py (.list (raw :: rest)) = true from rfl)]
      constructor
      · intro h
        obtain ⟨result, hresult, hlength⟩ := h
        cases hcalls : callsOf py fresh 0 (raw :: rest) with
        | error e =>
            rw [hcalls] at hresult
            cases hresult
        | ok calls =>
            rw [hcalls] at hresult
            cases hresult
            exact ⟨calls, rfl, hlength⟩
      · intro h
        obtain ⟨calls, hcalls, hlength⟩ := h
        rw [hcalls]
        exact ⟨some calls, rfl, hlength⟩

-- ===== examples

def plainText : Str → Option (List Char)
  | [] => some []
  | .char c :: rest => (plainText rest).map (c :: ·)
  | _ => none

def plainInterpreter : Interpreter where
  loads := fun s =>
    match plainText s with
    | none => .error .decode
    | some text =>
        match JsonText.loads 900 text with
        | .ok v => .ok v
        | .error .value => .error .decode
        | .error .recursion => .error .other
  str := fun _ => ofText "?".toList
  isZero := fun literal => literal = "0.0".toList

def text (s : String) : Str := ofText s.toList

/-- Two calls, their fragments mixed, and the message they make. -/
def twoCalls : List WireCall :=
  [{ id := some (text "c1"), name := text "search", arguments := text "\x7b\x7d" },
    { id := none, name := text "read", arguments := [] }]

def twoChunks : List (Option (List Fragment)) :=
  [some [{ index := 0, id := some (text "c1"), name := some (text "search") },
      { index := 1, name := some (text "read") }],
    none,
    some [{ index := 0, arguments := some (text "\x7b") }],
    some [{ index := 1, arguments := some [] }, { index := 0, arguments := some (text "\x7d") }]]

def twoRaws : List Value :=
  [.dict [(text "id", .str (text "c1")), (text "function", .dict [(text "name", .str (text "search")),
      (text "arguments", .str (text "\x7b\x7d"))])],
    .dict [(text "function", .dict [(text "name", .str (text "read")), (text "arguments", .str [])])]]

def twoMessage : Fields := [(text "tool_calls", .list twoRaws)]

def countedIds (n : Nat) : Str := ofText (Nat.toDigits 16 n)

theorem streams_twoCalls : Streams twoCalls (twoChunks.flatMap (·.getD [])) where
  indexed := by
    intro frag hfrag
    have hindex : frag.index ∈ [0, 1, 0, 1, 0] := by
      simpa [twoChunks] using List.mem_map_of_mem (f := Fragment.index) hfrag
    simp only [List.mem_cons, List.not_mem_nil, or_false] at hindex
    rcases hindex with h | h | h | h | h
    · exact ⟨0, by decide, h⟩
    · exact ⟨1, by decide, h⟩
    · exact ⟨0, by decide, h⟩
    · exact ⟨1, by decide, h⟩
    · exact ⟨0, by decide, h⟩
  splits := by
    intro i call hcall
    cases i with
    | zero =>
        cases hcall
        exact ⟨by simp [twoChunks], rfl, rfl, by simp [twoChunks], fun _ => by simp [twoChunks]⟩
    | succ i =>
        cases i with
        | zero =>
            cases hcall
            exact ⟨by simp [twoChunks], rfl, rfl, by simp [twoChunks], fun h => absurd rfl h⟩
        | succ i => cases hcall

theorem assembled_twoCalls : Assembled twoCalls twoMessage :=
  ⟨_, rfl, .cons ⟨_, _, rfl, .inl rfl, rfl, rfl, rfl⟩ (.cons ⟨_, _, rfl, .inl rfl, rfl, rfl, rfl⟩ .nil)⟩

theorem toolCalls_iff_two :
    (accumulate twoChunks).finalize plainInterpreter countedIds
      = parseOpenaiToolCalls plainInterpreter countedIds twoMessage
    ∧ ((∃ result, parseOpenaiToolCalls plainInterpreter countedIds twoMessage = .ok result
        ∧ (result.getD []).length = twoRaws.length) ↔
      ∀ fields, .dict fields ∈ twoRaws → Readable plainInterpreter fields) := by
  obtain ⟨hstream, hmessage⟩ := toolCalls_iff plainInterpreter countedIds
  refine ⟨hstream _ _ _ streams_twoCalls assembled_twoCalls, hmessage _ _ rfl fun raw hraw => ?_⟩
  rcases List.mem_cons.1 hraw with rfl | hraw
  · exact ⟨_, rfl⟩
  · rw [List.mem_singleton.1 hraw]
    exact ⟨_, rfl⟩

def nullName : Fields :=
  [(text "tool_calls", .list [.dict [(text "id", .str (text "c1")),
    (text "function", .dict [(text "name", .null), (text "arguments", .str (text "\x7b\x7d"))])]])]

theorem not_parsed_nullName :
    ¬∃ result, parseOpenaiToolCalls plainInterpreter countedIds nullName = .ok result := by
  intro h
  obtain ⟨result, hresult⟩ := h
  have herror : parseOpenaiToolCalls plainInterpreter countedIds nullName = .error .validation := rfl
  rw [herror] at hresult
  cases hresult

end Velune.Adapters
