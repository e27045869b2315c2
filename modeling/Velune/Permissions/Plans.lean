/-
The status of a plan file (`permissions/plans.py`): the status line found
by `_STATUS_RE`, its reading and its rewriting, and what the manager does
with the two.

A regular expression of this shape matches in one way at a place: white
space is taken as far as it goes, since neither `Status:` nor a word
begins with it, and so is the word.

A plan's status reads back as it was set (`parse_status`,
`set_status`).

A match is taken apart once (`matchHere_eq_some`): white space, the
literal, white space, a word. A rewritten word leaves every earlier line
start as it was, for whether the pattern matches there depends on the
text before the word only (`matchHere_none_of`). A text without a status
gets a section appended; there the pattern may match across the end of
the old text, if that is an empty status line (`Dangling`): the word is
then the `##` of the section's heading, and it alone is wrong
(`faithful_iff`).
-/
import Mathlib.Data.List.DropRight
import Velune.Domain
import Velune.Lib.Lines

namespace Velune.Permissions.Plans

open Lib Lib.Text Lib.Lines

def WAITING : PyStr := "WAITING_FOR_USER_APPROVAL".toList

def EXECUTING : PyStr := "EXECUTING".toList

def DONE : PyStr := "DONE".toList

/-- The literal of `_STATUS_RE`. -/
def STATUS : PyStr := "Status:".toList

structure StatusMatch where
  head : PyStr
  word : PyStr
  after : PyStr

/-- `(\s*Status:\s*)(\S+)` at the front of a text. -/
def matchHere (s : PyStr) : Option StatusMatch :=
  let line := s.dropWhile isSpace
  if STATUS.isPrefixOf line then
    let rest := line.drop STATUS.length
    let behind := rest.dropWhile isSpace
    match behind.takeWhile (!isSpace ·) with
    | [] => none
    | word =>
        some ⟨s.takeWhile isSpace ++ STATUS ++ rest.takeWhile isSpace, word,
          behind.dropWhile (!isSpace ·)⟩
  else none

/-- `_STATUS_RE.search`, with the text before the match. -/
def searchStatus (text : PyStr) : Option (PyStr × StatusMatch) := Lines.search matchHere true text

def parseStatus (text : PyStr) : Option PyStr :=
  (searchStatus text).map fun found => strip found.2.word

/-- `text.rstrip()`. -/
def rstrip (text : PyStr) : PyStr := text.rdropWhile isSpace

def approvalSection (status : PyStr) : PyStr :=
  "\n\n## Approval\n\nStatus: ".toList ++ status ++ "\n".toList

def setStatus (text status : PyStr) : PyStr :=
  match searchStatus text with
  | some (before, found) => before ++ found.head ++ status ++ found.after
  | none => rstrip text ++ approvalSection status

-- ===== statement

def Word (s : PyStr) : Prop := s ≠ [] ∧ ∀ c ∈ s, isSpace c = false

/-- Nothing but the status word is replaced, or the section is appended in
place of the blank end. -/
def Kept (text status result : PyStr) : Prop :=
  (∃ before old after, parseStatus text = some old ∧ text = before ++ old ++ after
      ∧ result = before ++ status ++ after)
    ∨ result = rstrip text ++ approvalSection status

def Faithful : PyStr → List PyStr → Prop
  | _, [] => True
  | text, status :: rest =>
      parseStatus (setStatus text status) = some status
        ∧ Kept text status (setStatus text status) ∧ Faithful (setStatus text status) rest

def Dangling (text : PyStr) : Prop :=
  searchStatus text = none ∧ ∃ before line, rstrip text = before ++ line
    ∧ LineStart true before ∧ line.dropWhile isSpace = STATUS

-- ===== matching

theorem word_of {s : PyStr} (hne : s ≠ []) (hall : s.all (fun c => !isSpace c) = true) : Word s :=
  ⟨hne, fun c hc => by simpa using List.all_eq_true.1 hall c hc⟩

theorem dropWhile_status (t : PyStr) : (STATUS ++ t).dropWhile isSpace = STATUS ++ t := rfl

theorem dropWhile_behind (x t : PyStr) :
    (x ++ (STATUS ++ t)).dropWhile isSpace = x.dropWhile isSpace ++ (STATUS ++ t) := by
  rw [List.dropWhile_append]
  split
  next hempty => rw [List.isEmpty_iff.1 hempty, dropWhile_status, List.nil_append]
  next => rfl

theorem matchHere_of {white gap word after : PyStr} (hwhite : ∀ c ∈ white, isSpace c = true)
    (hgap : ∀ c ∈ gap, isSpace c = true) (hword : Word word)
    (hafter : ∀ c ∈ after.head?, isSpace c = true) :
    matchHere (white ++ (STATUS ++ (gap ++ (word ++ after))))
      = some ⟨white ++ STATUS ++ gap, word, after⟩ := by
  obtain ⟨c, word, rfl⟩ := List.exists_cons_of_ne_nil hword.1
  have hc : isSpace c = false := hword.2 c (List.mem_cons_self ..)
  have hline : (white ++ (STATUS ++ (gap ++ (c :: word ++ after)))).dropWhile isSpace
      = STATUS ++ (gap ++ (c :: word ++ after)) := by
    rw [List.dropWhile_append_of_pos hwhite]
    rfl
  have hfront : (white ++ (STATUS ++ (gap ++ (c :: word ++ after)))).takeWhile isSpace = white := by
    rw [List.takeWhile_append_of_pos hwhite]
    exact (congrArg (white ++ ·) rfl).trans (List.append_nil white)
  have hbehind : (gap ++ (c :: word ++ after)).dropWhile isSpace = c :: word ++ after := by
    rw [List.dropWhile_append_of_pos hgap, List.cons_append, List.dropWhile_cons_of_neg]
    rw [hc]
    exact Bool.false_ne_true
  have hgapped : (gap ++ (c :: word ++ after)).takeWhile isSpace = gap := by
    rw [List.takeWhile_append_of_pos hgap, List.cons_append, List.takeWhile_cons_of_neg,
      List.append_nil]
    rw [hc]
    exact Bool.false_ne_true
  have hends : after.takeWhile (!isSpace ·) = [] ∧ after.dropWhile (!isSpace ·) = after := by
    cases after with
    | nil => exact ⟨rfl, rfl⟩
    | cons d after =>
        have hd : isSpace d = true := hafter d rfl
        have hneg : ¬ (!isSpace d) = true := by
          rw [hd]
          exact Bool.false_ne_true
        exact ⟨List.takeWhile_cons_of_neg hneg, List.dropWhile_cons_of_neg hneg⟩
  have hwords : ∀ d ∈ c :: word, (!isSpace d) = true := fun d hd => by rw [hword.2 d hd]; rfl
  have hliteral : STATUS.isPrefixOf (STATUS ++ (gap ++ (c :: word ++ after))) = true :=
    List.isPrefixOf_iff_prefix.2 (List.prefix_append ..)
  unfold matchHere
  simp only [hline, hfront, hliteral, if_true, List.drop_left, hbehind, hgapped,
    List.takeWhile_append_of_pos hwords, List.dropWhile_append_of_pos hwords, hends.1, hends.2,
    List.append_nil]

/-- Whether the pattern matches: the literal is there, and not all behind
it is white. -/
theorem matchHere_isSome {s : PyStr} :
    (matchHere s).isSome = true ↔ STATUS <+: s.dropWhile isSpace
      ∧ ∃ c ∈ (s.dropWhile isSpace).drop STATUS.length, isSpace c = false := by
  unfold matchHere
  simp only
  split
  next hliteral =>
      rw [and_iff_right (List.isPrefixOf_iff_prefix.1 hliteral)]
      cases hbehind : ((s.dropWhile isSpace).drop STATUS.length).dropWhile isSpace with
      | nil =>
          refine iff_of_false Bool.false_ne_true fun ⟨c, hc, hspace⟩ => ?_
          have hmem := mem_dropWhile hc hspace
          rw [hbehind] at hmem
          cases hmem
      | cons c behind =>
          have hc : isSpace c = false := by
            have hnot := List.head?_dropWhile_not isSpace ((s.dropWhile isSpace).drop STATUS.length)
            rw [hbehind] at hnot
            simpa using hnot
          have htake : (c :: behind).takeWhile (!isSpace ·) = c :: behind.takeWhile (!isSpace ·) :=
            List.takeWhile_cons_of_pos (by rw [hc]; rfl)
          rw [htake]
          refine iff_of_true rfl ⟨c, (List.dropWhile_sublist isSpace).subset ?_, hc⟩
          rw [hbehind]
          exact List.mem_cons_self ..
  next hliteral =>
      exact iff_of_false Bool.false_ne_true fun h => hliteral (List.isPrefixOf_iff_prefix.2 h.1)

theorem matchHere_eq_some {s : PyStr} {m : StatusMatch} (h : matchHere s = some m) :
    ∃ white gap, s = white ++ (STATUS ++ (gap ++ (m.word ++ m.after)))
      ∧ m.head = white ++ STATUS ++ gap ∧ (∀ c ∈ white, isSpace c = true)
      ∧ (∀ c ∈ gap, isSpace c = true) ∧ Word m.word
      ∧ ∀ c ∈ m.after.head?, isSpace c = true := by
  unfold matchHere at h
  simp only at h
  split at h
  next hliteral =>
      obtain ⟨rest, hrest⟩ := List.isPrefixOf_iff_prefix.1 hliteral
      have hdrop : (s.dropWhile isSpace).drop STATUS.length = rest := by
        rw [← hrest, List.drop_left]
      rw [hdrop] at h
      split at h
      next => cases h
      next hne =>
          cases h
          refine ⟨s.takeWhile isSpace, rest.takeWhile isSpace, ?_, rfl,
            fun c hc => List.mem_takeWhile_imp hc, fun c hc => List.mem_takeWhile_imp hc,
            ⟨hne, fun c hc => ?_⟩, fun c hc => ?_⟩
          · rw [List.takeWhile_append_dropWhile, List.takeWhile_append_dropWhile, hrest,
              List.takeWhile_append_dropWhile]
          · simpa using List.mem_takeWhile_imp hc
          · have hnot := List.head?_dropWhile_not (!isSpace ·) (rest.dropWhile isSpace)
            rw [Option.mem_def.1 hc] at hnot
            simpa using hnot
  next => cases h

theorem prefix_of_append {x t : PyStr} (hlen : STATUS.length ≤ x.length) :
    STATUS <+: x ++ t ↔ STATUS <+: x :=
  ⟨fun h => List.prefix_of_prefix_length_le h (List.prefix_append x t) hlen,
    fun h => h.trans (List.prefix_append x t)⟩

/-- Whether the pattern matches at an earlier line does not depend on the
word of a later one. -/
theorem matchHere_none_of {x gap word after word' after' : PyStr} (hword : Word word)
    (h : matchHere (x ++ (STATUS ++ (gap ++ (word ++ after)))) = none) :
    matchHere (x ++ (STATUS ++ (gap ++ (word' ++ after')))) = none := by
  have hno : ¬ (matchHere (x ++ (STATUS ++ (gap ++ (word ++ after))))).isSome = true := by
    rw [h]
    exact Bool.false_ne_true
  refine Option.not_isSome_iff_eq_none.1 fun hsome => hno ?_
  rw [matchHere_isSome, dropWhile_behind, ← List.append_assoc] at hsome ⊢
  have hlen : STATUS.length ≤ (x.dropWhile isSpace ++ STATUS).length := by
    rw [List.length_append]
    exact Nat.le_add_left ..
  obtain ⟨hliteral, -⟩ := hsome
  refine ⟨(prefix_of_append hlen).2 ((prefix_of_append hlen).1 hliteral), ?_⟩
  obtain ⟨c, word, rfl⟩ := List.exists_cons_of_ne_nil hword.1
  refine ⟨c, ?_, hword.2 c (List.mem_cons_self ..)⟩
  rw [List.drop_append_of_le_length hlen]
  simp

-- ===== rewriting

theorem searchStatus_rewrite {text before status : PyStr} {m : StatusMatch}
    (h : searchStatus text = some (before, m)) (hstatus : Word status) :
    searchStatus (before ++ m.head ++ status ++ m.after)
      = some (before, { m with word := status }) := by
  obtain ⟨hstart, ⟨v, htext, hm⟩, hearlier⟩ := search_eq_some_iff.1 h
  obtain ⟨white, gap, hv, hhead, hwhite, hgap, hword, hafter⟩ := matchHere_eq_some hm
  have hnew : before ++ m.head ++ status ++ m.after
      = before ++ (white ++ (STATUS ++ (gap ++ (status ++ m.after)))) := by
    rw [hhead]
    simp only [List.append_assoc]
  refine search_eq_some_iff.2 ⟨hstart, ⟨_, hnew, ?_⟩, fun p v' hs hlt hp => ?_⟩
  · rw [matchHere_of hwhite hgap hstatus hafter, hhead]
  · -- the line start is in the text before the match
    rw [hnew] at hs
    have hbefore : before <+: p ++ v' := by
      rw [← hs]
      exact List.prefix_append before _
    obtain ⟨q, hq⟩ :=
      List.prefix_of_prefix_length_le (List.prefix_append p v') hbefore (Nat.le_of_lt hlt)
    have hv' : v' = (q ++ white) ++ (STATUS ++ (gap ++ (status ++ m.after))) := by
      rw [← hq, List.append_assoc] at hs
      rw [← List.append_cancel_left hs]
      simp only [List.append_assoc]
    rw [hv']
    have hold : text = p ++ ((q ++ white) ++ (STATUS ++ (gap ++ (m.word ++ m.after)))) := by
      rw [htext, hv, ← hq]
      simp only [List.append_assoc]
    exact matchHere_none_of hword (hearlier p _ hold hlt hp)

theorem setStatus_found {text before status : PyStr} {m : StatusMatch}
    (h : searchStatus text = some (before, m)) :
    setStatus text status = before ++ m.head ++ status ++ m.after := by
  unfold setStatus
  rw [h]

theorem setStatus_none {text status : PyStr} (h : searchStatus text = none) :
    setStatus text status = rstrip text ++ approvalSection status := by
  unfold setStatus
  rw [h]

theorem parseStatus_of {text before : PyStr} {m : StatusMatch}
    (h : searchStatus text = some (before, m)) (hword : Word m.word) :
    parseStatus text = some m.word := by
  unfold parseStatus
  rw [h]
  exact congrArg some (trim_eq_self hword.2)

theorem faithful_of_found : ∀ {statuses : List PyStr} {text before : PyStr} {m : StatusMatch},
    (∀ s ∈ statuses, Word s) → searchStatus text = some (before, m) → Faithful text statuses
  | [], _, _, _, _, _ => trivial
  | status :: rest, text, before, m, hwords, h => by
      have hstatus := hwords status (List.mem_cons_self ..)
      have hnew := searchStatus_rewrite h hstatus
      rw [← setStatus_found h] at hnew
      refine ⟨parseStatus_of hnew hstatus, .inl ?_,
        faithful_of_found (fun s hs => hwords s (List.mem_cons_of_mem status hs)) hnew⟩
      obtain ⟨-, ⟨v, htext, hm⟩, -⟩ := search_eq_some_iff.1 h
      obtain ⟨white, gap, hv, hhead, -, -, hword, -⟩ := matchHere_eq_some hm
      refine ⟨before ++ m.head, m.word, m.after, parseStatus_of h hword, ?_, setStatus_found h⟩
      rw [htext, hv, hhead]
      simp only [List.append_assoc]

-- ===== appending

def opening : PyStr := "\n\n## Approval\n".toList

theorem approvalSection_eq (status : PyStr) :
    approvalSection status
      = opening ++ ("\n".toList ++ (STATUS ++ (" ".toList ++ (status ++ "\n".toList)))) := rfl

theorem opening_none {q r : PyStr} (hq : opening = q ++ r) (hr : r ≠ []) (hstart : LineStart true q)
    (t : PyStr) : matchHere (r ++ t) = none := by
  have hlines : ∀ k < opening.length, (k = 0 ∨ (opening.take k).getLast? = some '\n') →
      ((opening.drop k).dropWhile isSpace).head? = some '#' := by decide
  have hlen : q.length < opening.length := by
    rw [hq, List.length_append]
    exact Nat.lt_add_of_pos_right (List.length_pos_of_ne_nil hr)
  have hhead := hlines q.length hlen (by
    rw [hq, List.take_left]
    rcases hstart with ⟨hnil, -⟩ | ⟨q', hq'⟩
    · exact .inl (congrArg List.length hnil)
    · exact .inr (by rw [hq']; simp))
  rw [hq, List.drop_left] at hhead
  refine Option.not_isSome_iff_eq_none.1 fun hsome => ?_
  rw [matchHere_isSome] at hsome
  obtain ⟨⟨u, hu⟩, -⟩ := hsome
  cases hrest : r.dropWhile isSpace with
  | nil =>
      rw [hrest] at hhead
      cases hhead
  | cons c rest =>
      rw [hrest] at hhead
      cases hhead
      rw [List.dropWhile_append, hrest] at hu
      have hfirst : some 'S' = some '#' := congrArg List.head? hu
      exact absurd hfirst (by decide)

theorem rstrip_spec (text : PyStr) :
    ∃ blank, text = rstrip text ++ blank ∧ (∀ c ∈ blank, isSpace c = true)
      ∧ ∀ c ∈ (rstrip text).getLast?, isSpace c = false := by
  refine ⟨text.rtakeWhile isSpace, List.rdropWhile_append_rtakeWhile.symm,
    fun c hc => List.mem_rtakeWhile_imp hc, fun c hc => ?_⟩
  unfold rstrip List.rdropWhile at hc
  rw [List.getLast?_reverse] at hc
  have hnot := List.head?_dropWhile_not isSpace text.reverse
  rw [Option.mem_def.1 hc] at hnot
  simpa using hnot

/-- The end of the old text that a line start leaves: it is an empty
status line, or the pattern does not match there whatever line follows. -/
theorem line_cases {text before line : PyStr} (hnone : searchStatus text = none)
    (hbody : rstrip text = before ++ line) (hline : line ≠ []) (hstart : LineStart true before)
    (t : PyStr) : line.dropWhile isSpace = STATUS ∨ matchHere (line ++ '\n' :: t) = none := by
  obtain ⟨blank, htext, -, hlast⟩ := rstrip_spec text
  -- the text ends in what is not white, and so does the line
  obtain ⟨line, c, rfl⟩ := (List.eq_nil_or_concat' line).resolve_left hline
  have hc : isSpace c = false := hlast c (by rw [hbody, ← List.append_assoc]; simp)
  have hmem : c ∈ (line ++ [c]).dropWhile isSpace := mem_dropWhile (by simp) hc
  have hfull : ∀ u, (line ++ [c] ++ u).dropWhile isSpace = (line ++ [c]).dropWhile isSpace ++ u := by
    intro u
    rw [List.dropWhile_append, if_neg]
    rw [List.isEmpty_iff]
    exact List.ne_nil_of_mem hmem
  have hold : matchHere (line ++ [c] ++ blank) = none := by
    refine search_eq_none_iff.1 hnone before _ ?_ hstart
    rw [← List.append_assoc, ← hbody]
    exact htext
  by_cases hsome : (matchHere (line ++ [c] ++ '\n' :: t)).isSome = true
  · refine .inl ?_
    rw [matchHere_isSome, hfull] at hsome
    obtain ⟨hliteral, -⟩ := hsome
    rcases List.prefix_or_prefix_of_prefix hliteral (List.prefix_append _ _) with hfits | hshort
    · -- the literal is on the line, with nothing behind it
      obtain ⟨rest, hrest⟩ := hfits
      by_contra hne
      have hold' : ¬ (matchHere (line ++ [c] ++ blank)).isSome = true := by
        rw [hold]
        exact Bool.false_ne_true
      refine hold' (matchHere_isSome.2 ?_)
      rw [hfull, ← hrest, List.append_assoc, List.drop_left]
      refine ⟨List.prefix_append .., c, List.mem_append_left _ ?_, hc⟩
      have hne' : rest ≠ [] := by
        intro hnil
        rw [hnil, List.append_nil] at hrest
        exact hne hrest.symm
      have hlastc : (STATUS ++ rest).getLast? = some c := by
        rw [hrest, List.dropWhile_append]
        split
        next =>
            rw [List.dropWhile_cons_of_neg (Bool.eq_false_iff.1 hc)]
            rfl
        next => simp
      rw [List.getLast?_append_of_ne_nil _ hne'] at hlastc
      exact List.mem_of_getLast? hlastc
    · -- the literal would go on with a line feed
      obtain ⟨rest, hrest⟩ := hshort
      cases rest with
      | nil =>
          rw [List.append_nil] at hrest
          exact hrest
      | cons d rest =>
          rw [← hrest] at hliteral
          have hnext := (List.prefix_append_right_inj _).1 hliteral
          obtain ⟨hd, -⟩ := List.cons_prefix_cons.1 hnext
          have hfeed : '\n' ∈ STATUS := by
            rw [← hrest, ← hd]
            simp
          exact absurd hfeed (by decide)
  · exact .inr (Option.not_isSome_iff_eq_none.1 hsome)

/-- A line start of the text with the section is in the old text or in the
section. -/
theorem split_cases {body p v : PyStr} {t : PyStr} (h : body ++ t = p ++ v) :
    (∃ line, line ≠ [] ∧ body = p ++ line ∧ v = line ++ t) ∨ ∃ q, p = body ++ q ∧ t = q ++ v := by
  rcases List.append_eq_append_iff.1 h with ⟨q, hp, ht⟩ | ⟨line, hbody, hv⟩
  · exact .inr ⟨q, hp, ht⟩
  · cases line with
    | nil =>
        refine .inr ⟨[], ?_, ?_⟩
        · rw [hbody, List.append_nil, List.append_nil]
        · rw [hv]
          rfl
    | cons c line => exact .inl ⟨c :: line, List.cons_ne_nil c line, hbody, hv⟩

theorem lineStart_append {body q : PyStr} (h : LineStart true (body ++ q)) : LineStart true q := by
  cases List.eq_nil_or_concat' q with
  | inl hnil => exact .inl ⟨hnil, rfl⟩
  | inr hlast =>
      obtain ⟨q', c, rfl⟩ := hlast
      rcases h with ⟨hnil, -⟩ | ⟨p, hp⟩
      · exact absurd hnil (by simp)
      · rw [← List.append_assoc] at hp
        have hc : c = '\n' := by simpa using (List.append_inj' hp rfl).2
        exact .inr ⟨q', by rw [hc]⟩

/-- Without an empty status line at the end, the search finds the appended
status. -/
theorem searchStatus_append {text status : PyStr} (hnone : searchStatus text = none)
    (hdangling : ¬ Dangling text) (hstatus : Word status) :
    searchStatus (setStatus text status)
      = some (rstrip text ++ opening, ⟨"\nStatus: ".toList, status, "\n".toList⟩) := by
  have hwhite : ∀ c ∈ "\n".toList, isSpace c = true := by simp [isSpace]
  have hgap : ∀ c ∈ " ".toList, isSpace c = true := by simp [isSpace]
  have hafter : ∀ c ∈ "\n".toList.head?, isSpace c = true := by simp [isSpace]
  have hfound := matchHere_of hwhite hgap hstatus hafter
  rw [setStatus_none hnone, approvalSection_eq]
  refine search_eq_some_iff.2 ⟨.inr ⟨rstrip text ++ "\n\n## Approval".toList, ?_⟩,
    ⟨_, (List.append_assoc ..).symm, hfound⟩, fun p v hs hlt hp => ?_⟩
  · rw [List.append_assoc]
    rfl
  · rcases split_cases hs with ⟨line, hline, hbody, hv⟩ | ⟨q, hq, ht⟩
    · subst hv
      refine (line_cases hnone hbody hline hp _).resolve_left fun h => hdangling ⟨hnone, ?_⟩
      exact ⟨p, line, hbody, hp, h⟩
    · -- a line of the section before its status line
      have hqlt : q.length < opening.length := by
        rw [hq, List.length_append, List.length_append] at hlt
        exact Nat.lt_of_add_lt_add_left hlt
      have hliteral : opening <+: q ++ v := by
        rw [← ht]
        exact List.prefix_append ..
      obtain ⟨r, hr⟩ := List.prefix_of_prefix_length_le (List.prefix_append q v) hliteral
        (Nat.le_of_lt hqlt)
      rw [← hr, List.append_assoc] at ht
      rw [← List.append_cancel_left ht]
      refine opening_none hr.symm (fun hnil => ?_) (lineStart_append (hq ▸ hp)) _
      rw [hnil, List.append_nil] at hr
      exact absurd (hr ▸ hqlt) (Nat.lt_irrefl _)

theorem parseStatus_dangling {text : PyStr} (h : Dangling text) (status : PyStr) :
    parseStatus (setStatus text status) = some "##".toList := by
  obtain ⟨hnone, before, line, hbody, hstart, hline⟩ := h
  have hmark : Word "##".toList := ⟨by simp, by simp [isSpace]⟩
  have hblank : ∀ c ∈ "\n\n".toList, isSpace c = true := by simp [isSpace]
  -- the pattern matches on an empty status line, with that word
  have hfound : ∀ line : PyStr, line.dropWhile isSpace = STATUS →
      ∃ m, matchHere (line ++ approvalSection status) = some m ∧ m.word = "##".toList := by
    intro line hline
    have hsplit : line ++ approvalSection status = line.takeWhile isSpace
        ++ (STATUS ++ ("\n\n".toList ++ ("##".toList
          ++ (" Approval\n\nStatus: ".toList ++ status ++ "\n".toList)))) := by
      have hparts : line = line.takeWhile isSpace ++ STATUS := by
        rw [← hline, List.takeWhile_append_dropWhile]
      calc line ++ approvalSection status
          = line.takeWhile isSpace ++ STATUS ++ approvalSection status :=
            congrArg (· ++ approvalSection status) hparts
        _ = _ := by
            rw [List.append_assoc]
            rfl
    rw [hsplit]
    exact ⟨_, matchHere_of (fun c hc => List.mem_takeWhile_imp hc) hblank hmark (by simp [isSpace]), rfl⟩
  rw [setStatus_none hnone]
  obtain ⟨m₀, hm₀, -⟩ := hfound line hline
  have hhere : rstrip text ++ approvalSection status = before ++ (line ++ approvalSection status) := by
    rw [hbody, List.append_assoc]
  cases hsearch : searchStatus (rstrip text ++ approvalSection status) with
  | none =>
      rw [search_eq_none_iff.1 hsearch before _ hhere hstart] at hm₀
      cases hm₀
  | some found =>
      obtain ⟨p, m⟩ := found
      obtain ⟨hp, ⟨v, hv, hm⟩, hearlier⟩ := search_eq_some_iff.1 hsearch
      have hword : m.word = "##".toList := by
        rcases split_cases hv with ⟨line', hne, hbody', hv'⟩ | ⟨q, hq, -⟩
        · subst hv'
          rcases line_cases hnone hbody' hne hp _ with hdangling | hnone'
          · obtain ⟨m', hm', hword⟩ := hfound line' hdangling
            rw [hm] at hm'
            exact Option.some.inj hm' ▸ hword
          · have hnothing : matchHere (line' ++ approvalSection status) = none := hnone'
            rw [hnothing] at hm
            cases hm
        · have hne : line ≠ [] := by
            intro hnil
            rw [hnil] at hline
            cases hline
          have hlt : before.length < p.length := by
            rw [hq, hbody, List.length_append, List.length_append]
            have := List.length_pos_of_ne_nil hne
            omega
          rw [hearlier before _ hhere hlt hstart] at hm₀
          cases hm₀
      rw [parseStatus_of hsearch (hword ▸ hmark), hword]

/-- The statuses set in turn read back, and nothing else changes, exactly
if the text does not end in an empty status line as its only one (or the
first status is the very word that is then taken for it). -/
theorem faithful_iff {text status : PyStr} {rest : List PyStr}
    (hwords : ∀ s ∈ status :: rest, Word s) :
    Faithful text (status :: rest) ↔ ¬ Dangling text ∨ status = "##".toList := by
  have hstatus := hwords status (List.mem_cons_self ..)
  have hrest := fun s hs => hwords s (List.mem_cons_of_mem status hs)
  cases hsearch : searchStatus text with
  | some found =>
      refine iff_of_true (faithful_of_found hwords hsearch) (.inl fun h => ?_)
      rw [h.1] at hsearch
      cases hsearch
  | none =>
      have hkept : Kept text status (setStatus text status) := .inr (setStatus_none hsearch)
      by_cases hdangling : Dangling text
      · have hparse := parseStatus_dangling hdangling status
        constructor
        · intro h
          exact .inr (Option.some.inj (h.1.symm.trans hparse))
        · intro h
          have hmark := h.resolve_left fun hno => hno hdangling
          refine ⟨hmark ▸ hparse, hkept, ?_⟩
          obtain ⟨found, hfound, -⟩ := Option.map_eq_some_iff.1 hparse
          exact faithful_of_found hrest hfound
      · have hnew := searchStatus_append hsearch hdangling hstatus
        exact iff_of_true ⟨parseStatus_of hnew hstatus, hkept, faithful_of_found hrest hnew⟩
          (.inl hdangling)

theorem faithful_iff_plan :
    Faithful "# Plan".toList [EXECUTING] ↔ ¬ Dangling "# Plan".toList ∨ EXECUTING = "##".toList :=
  faithful_iff (List.forall_mem_singleton.2 (word_of (List.cons_ne_nil _ _) (by decide)))

/-- An empty status line as the last: the plan is approved, and its status
reads as the heading mark of the appended section. -/
theorem not_faithful_empty :
    Word EXECUTING ∧ ¬ Faithful "# Plan\nStatus:\n".toList [EXECUTING] := by
  have hparse : parseStatus (setStatus "# Plan\nStatus:\n".toList EXECUTING) = some "##".toList := by
    decide
  refine ⟨word_of (List.cons_ne_nil _ _) (by decide), fun h => ?_⟩
  have hmark : "##".toList = EXECUTING := Option.some.inj (hparse.symm.trans h.1)
  exact absurd hmark (by decide)

end Velune.Permissions.Plans
