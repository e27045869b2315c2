/-
Reading in pieces against reading whole.

A stream that does not raise gives the lines of the text one after the
other (`nextLine_line`), a long one by its head, which is all a row shows
of it (`row_shown`). So a range is the page that the budget makes of the
rows in it (`rangeLoop_shows`), as the whole file's loop makes it
(`wholeRows_eq`), and the pages one follows show every row once.

What can go wrong is the choice of the encoding: a range looks at the first
64 KiB only. Where these are UTF-8 and the rest is not (`LateByte`), the
whole file is read as Windows-1252, but no range ever reaches the end.
-/
import Mathlib.Algebra.GroupWithZero.Nat
import Velune.Lib.Paging
import Velune.Tools.Read

namespace Velune.Tools

open Lib
open Lib.Codec

-- ===== lines

def Breaks (tail rest : PyStr) : Prop := tail = [] ∧ rest = [] ∨ tail = '\n' :: rest

theorem exists_line (text : PyStr) :
    ∃ line tail rest, text = line ++ tail ∧ '\n' ∉ line ∧ Breaks tail rest := by
  induction text with
  | nil => exact ⟨[], [], [], rfl, List.not_mem_nil, .inl ⟨rfl, rfl⟩⟩
  | cons c text ih =>
      by_cases hc : c = '\n'
      · exact ⟨[], c :: text, text, rfl, List.not_mem_nil, .inr (by rw [hc])⟩
      · obtain ⟨line, tail, rest, htext, hline, hbreaks⟩ := ih
        refine ⟨c :: line, tail, rest, by rw [htext]; rfl, ?_, hbreaks⟩
        intro hmem
        rcases List.mem_cons.1 hmem with heq | hmem
        · exact hc heq.symm
        · exact hline hmem

@[simp] theorem linesOf_nil : linesOf [] = [] := rfl

theorem linesOf_line {line tail rest : PyStr} (h : '\n' ∉ line) (hbreaks : Breaks tail rest)
    (hne : line ++ tail ≠ []) : linesOf (line ++ tail) = line :: linesOf rest := by
  unfold linesOf
  rcases hbreaks with ⟨htail, hrest⟩ | htail
  · subst htail hrest
    rw [List.append_nil] at hne ⊢
    rw [splitText_of_not_mem h]
    have hlast : ([line] : List PyStr).getLast? ≠ some [] := by
      intro heq
      exact hne (Option.some.inj heq)
    simp only [if_neg hlast]
    rfl
  · subst htail
    obtain ⟨first, more, hsplit⟩ := List.exists_cons_of_ne_nil (splitFrom_ne_nil ['\n'] rest 0)
    have hsplit : splitText ['\n'] rest = first :: more := hsplit
    rw [splitText_singleton h, hsplit]
    simp only [List.getLast?_cons_cons]
    split
    · rfl
    · rfl

-- ===== the stream

theorem lineHead_append {line : PyStr} (h : '\n' ∉ line) (tail : PyStr) (limit : Nat) :
    lineHead limit (line ++ tail)
      = if limit ≤ line.length then line.take limit
        else line ++ lineHead (limit - line.length) tail := by
  induction line generalizing limit with
  | nil =>
      cases limit with
      | zero => rfl
      | succ limit => rfl
  | cons c line ih =>
      have hc : c ≠ '\n' := fun heq => h (heq ▸ List.mem_cons_self)
      cases limit with
      | zero => rfl
      | succ limit =>
          rw [List.cons_append, lineHead, if_neg hc, ih fun hmem => h (List.mem_cons_of_mem c hmem)]
          simp only [List.length_cons, Nat.add_le_add_iff_right, Nat.add_sub_add_right]
          split
          · rfl
          · rfl

theorem endsLine_false {chunk : PyStr} (h : '\n' ∉ chunk) : endsLine chunk = false := by
  unfold endsLine
  rw [beq_eq_false_iff_ne]
  intro hlast
  exact h (List.mem_of_getLast? hlast)

theorem endsLine_break (line : PyStr) : endsLine (line ++ ['\n']) = true := by
  simp [endsLine]

theorem readline_line {line tail rest : PyStr} (h : '\n' ∉ line) (hbreaks : Breaks tail rest)
    (limit : Nat) :
    (limit ≤ line.length ∧ Stream.readline limit ⟨line ++ tail, false⟩
      = some (line.take limit, ⟨line.drop limit ++ tail, false⟩)) ∨
    (line.length < limit ∧ tail = '\n' :: rest ∧ Stream.readline limit ⟨line ++ tail, false⟩
      = some (line ++ ['\n'], ⟨rest, false⟩)) ∨
    (line.length < limit ∧ tail = [] ∧ rest = [] ∧ Stream.readline limit ⟨line ++ tail, false⟩
      = some (line, ⟨[], false⟩)) := by
  have hread : Stream.readline limit ⟨line ++ tail, false⟩
      = some (lineHead limit (line ++ tail),
          ⟨(line ++ tail).drop (lineHead limit (line ++ tail)).length, false⟩) := rfl
  rw [hread, lineHead_append h]
  by_cases hle : limit ≤ line.length
  · refine .inl ⟨hle, ?_⟩
    rw [if_pos hle, List.length_take, Nat.min_eq_left hle, List.drop_append_of_le_length hle]
  · rw [if_neg hle]
    have hlt := Nat.not_le.1 hle
    obtain ⟨more, hmore⟩ : ∃ more, limit - line.length = more + 1 :=
      ⟨limit - line.length - 1, by omega⟩
    rcases hbreaks with ⟨htail, hrest⟩ | htail
    · refine .inr (.inr ⟨hlt, htail, hrest, ?_⟩)
      rw [htail, lineHead_nil, List.append_nil, List.drop_length]
    · refine .inr (.inl ⟨hlt, htail, ?_⟩)
      rw [htail, hmore, lineHead, if_pos rfl]
      simp

theorem skipRest_line : ∀ {line tail rest : PyStr} (skipped : Nat), '\n' ∉ line →
    Breaks tail rest → skipRest ⟨line ++ tail, false⟩ skipped
      = some (skipped + line.length, ⟨rest, false⟩) := by
  intro line
  induction hn : line.length using Nat.strong_induction_on generalizing line with
  | _ n ih =>
      intro tail rest skipped h hbreaks
      rcases readline_line h hbreaks 65536 with ⟨hle, hread⟩ | ⟨hlt, htail, hread⟩ |
        ⟨hlt, htail, hrest, hread⟩
      · rw [skipRest_some skipped hread]
        have hfree : '\n' ∉ line.take 65536 := fun hmem => h (List.mem_of_mem_take hmem)
        have hgo : ¬(line.take 65536 = [] ∨ endsLine (line.take 65536) = true) := by
          intro hstop
          rcases hstop with hnil | hends
          · have hlength := congrArg List.length hnil
            rw [List.length_take, List.length_nil] at hlength
            omega
          · rw [endsLine_false hfree] at hends
            cases hends
        have hdrop : (line.drop 65536).length = n - 65536 := by
          rw [List.length_drop, hn]
        rw [if_neg hgo, ih _ (by omega) hdrop _ (fun hmem => h (List.mem_of_mem_drop hmem)) hbreaks]
        simp only [skippedWith, endsLine_false hfree, List.length_take]
        simp
        omega
      · rw [skipRest_some skipped hread, if_pos (.inr (endsLine_break line))]
        simp [skippedWith, endsLine_break, hn]
      · rw [skipRest_some skipped hread]
        by_cases hnil : line = []
        · subst hnil
          rw [if_pos (.inl rfl), hrest]
          simp [skippedWith, endsLine, ← hn]
        · have hpos := List.length_pos_iff.2 hnil
          have hgo : ¬(line = [] ∨ endsLine line = true) := by
            rw [endsLine_false h]
            simp [hnil]
          have ih := ih 0 (by omega) (rfl : ([] : PyStr).length = 0) (skippedWith skipped line)
            List.not_mem_nil (.inl ⟨rfl, hrest⟩ : Breaks [] rest)
          rw [if_neg hgo]
          simp only [List.append_nil] at ih
          rw [ih]
          simp [skippedWith, endsLine_false h, hn]

def shownOf (line : PyStr) : PyStr :=
  if READ_MAX_CHARS < line.length then line.take (READ_MAX_CHARS + 1) else line

@[simp] theorem nextLine_nil : nextLine ⟨[], false⟩ = .ended := rfl

theorem nextLine_line {line tail rest : PyStr} (h : '\n' ∉ line) (hbreaks : Breaks tail rest)
    (hne : line ++ tail ≠ []) :
    nextLine ⟨line ++ tail, false⟩ = .line (shownOf line) line.length ⟨rest, false⟩ := by
  unfold nextLine shownOf
  rcases readline_line h hbreaks (READ_MAX_CHARS + 1) with
    ⟨hle, hread⟩ | ⟨hlt, htail, hread⟩ | ⟨hlt, htail, hrest, hread⟩
  · have hfree : '\n' ∉ line.take (READ_MAX_CHARS + 1) := fun hmem => h (List.mem_of_mem_take hmem)
    have hlength : (line.take (READ_MAX_CHARS + 1)).length = READ_MAX_CHARS + 1 := by
      rw [List.length_take, Nat.min_eq_left hle]
    have hnil : line.take (READ_MAX_CHARS + 1) ≠ [] := by
      rw [← List.length_pos_iff, hlength]
      exact Nat.succ_pos _
    have hrest := skipRest_line 0 (fun hmem => h (List.mem_of_mem_drop hmem) :
      '\n' ∉ line.drop (READ_MAX_CHARS + 1)) hbreaks
    rw [hread]
    simp only [if_neg hnil]
    rw [if_pos ⟨endsLine_false hfree, by rw [hlength]; exact Nat.lt_succ_self _⟩, hrest]
    simp only [hlength, List.length_drop]
    rw [if_pos (Nat.lt_of_succ_le hle), Nat.zero_add, Nat.add_sub_cancel' hle]
  · have hends := endsLine_break line
    rw [hread]
    simp [hends, Nat.not_lt.2 (Nat.le_of_lt_succ hlt)]
  · have hshort := Nat.not_lt.2 (Nat.le_of_lt_succ hlt)
    have hnil : line ≠ [] := by
      intro hnil
      rw [hnil, htail] at hne
      exact hne rfl
    rw [hread]
    simp only [if_neg hnil, endsLine_false h]
    rw [if_neg fun hlong => hshort hlong.2, if_neg hshort, hrest]
    rfl

-- ===== rows

theorem decimal_length {n k : Nat} (hk : 0 < k) (h : n < 10 ^ k) : (decimal n).length ≤ k :=
  (Nat.length_toDigits_le_iff (by decide) hk).2 h

theorem row_short {number : Nat} {text : PyStr} {length : Option Nat}
    (h : (numbered number ++ '\t' :: text).length ≤ READ_MAX_CHARS) :
    row number text length = numbered number ++ '\t' :: text := if_pos h

theorem row_long {number : Nat} {text : PyStr} {length : Option Nat}
    (h : READ_MAX_CHARS < (numbered number ++ '\t' :: text).length) :
    row number text length = (numbered number ++ '\t' :: text).take KEEP ++ " … [line ".toList
      ++ decimal number ++ " clipped: ".toList ++ decimal (length.getD text.length)
      ++ " characters, showing ".toList ++ decimal KEEP ++ "]".toList :=
  if_neg (Nat.not_le.2 h)

theorem row_shown (number : Nat) (line : PyStr) :
    row number (shownOf line) (some line.length) = row number line none := by
  unfold shownOf
  split
  next hlong =>
    have htake : (line.take (READ_MAX_CHARS + 1)).length = READ_MAX_CHARS + 1 := by
      rw [List.length_take, Nat.min_eq_left hlong]
    have hhead : READ_MAX_CHARS
        < (numbered number ++ '\t' :: line.take (READ_MAX_CHARS + 1)).length := by
      rw [List.length_append, List.length_cons, htake]
      omega
    have hwhole : READ_MAX_CHARS < (numbered number ++ '\t' :: line).length := by
      rw [List.length_append, List.length_cons]
      omega
    have hkept : (numbered number ++ '\t' :: line.take (READ_MAX_CHARS + 1)).take KEEP
        = (numbered number ++ '\t' :: line).take KEEP := by
      have hle : KEEP ≤ READ_MAX_CHARS + 1 := (by decide : 14000 - 120 ≤ 14000 + 1)
      rw [List.take_append, List.take_append]
      congr 1
      cases hleft : KEEP - (numbered number).length with
      | zero => rfl
      | succ left =>
          rw [List.take_succ_cons, List.take_succ_cons, List.take_take, Nat.min_eq_left (by omega)]
    rw [row_long hhead, row_long hwhole, hkept]
    rfl
  next => rfl

theorem row_length {number : Nat} {line : PyStr} (hnumber : number < 10 ^ 7)
    (hline : line.length < 10 ^ 7) : (row number line none).length ≤ READ_MAX_CHARS := by
  by_cases hshort : (numbered number ++ '\t' :: line).length ≤ READ_MAX_CHARS
  · rw [row_short hshort]
    exact hshort
  · have hn := decimal_length (by decide) hnumber
    have hl := decimal_length (by decide) hline
    have hkeep : (decimal KEEP).length = 5 := by decide
    have hclip : KEEP = 13880 := rfl
    have hmax : READ_MAX_CHARS = 14000 := rfl
    rw [row_long (Nat.not_le.1 hshort)]
    simp only [List.length_append, List.length_take, Option.getD_none, String.length_toList]
    have h1 : " … [line ".length = 9 := by decide
    have h2 : " clipped: ".length = 10 := by decide
    have h3 : " characters, showing ".length = 21 := by decide
    have h4 : "]".length = 1 := by decide
    omega

/-- The rows of a file's lines, the first being number `n + 1`. -/
def rowsFrom : Nat → List PyStr → List PyStr
  | _, [] => []
  | n, line :: lines => row (n + 1) line none :: rowsFrom (n + 1) lines

/-- Every line of a file as the whole-file read numbers and shows it. -/
def allRows (text : PyStr) : List PyStr := rowsFrom 0 (linesOf text)

def rowSize (row : PyStr) : Nat := row.length + 1

theorem rowsFrom_length (n : Nat) (lines : List PyStr) :
    (rowsFrom n lines).length = lines.length := by
  induction lines generalizing n with
  | nil => rfl
  | cons line lines ih => rw [rowsFrom, List.length_cons, ih, List.length_cons]

-- ===== the loops

theorem wholeRows_eq (lines : List PyStr) : ∀ (n used : Nat) (out : List PyStr),
    wholeRows (n + 1) used out lines
      = out ++ Paging.fill rowSize READ_MAX_CHARS (!out.isEmpty) used (rowsFrom n lines) := by
  induction lines with
  | nil =>
      intro n used out
      rw [wholeRows, rowsFrom, Paging.fill, List.append_nil]
  | cons line lines ih =>
      intro n used out
      have hiff : (out ≠ [] ∧ used + (row (n + 1) line none).length + 1 > READ_MAX_CHARS)
          ↔ ((!out.isEmpty) = true ∧ READ_MAX_CHARS < used + rowSize (row (n + 1) line none)) := by
        unfold rowSize
        simp [Nat.add_assoc]
      rw [wholeRows, rowsFrom, Paging.fill]
      simp only [hiff]
      split
      next => rw [List.append_nil]
      next =>
        have hstarted : (!(out ++ [row (n + 1) line none]).isEmpty) = true := by simp
        rw [ih, hstarted, List.append_assoc]
        rfl

/-- The rows from line `start` to line `stop`, of those behind line `n`. -/
def window (start : Nat) (stop : Option Nat) : Nat → List PyStr → List PyStr
  | _, [] => []
  | n, row :: rows =>
      if n + 1 < start then window start stop (n + 1) rows
      else if stop.any (· < n + 1) then []
      else row :: window start stop (n + 1) rows

theorem rangeLoop_ended {r : Range} {s : Stream} (st : Loop) (h : nextLine s = .ended) :
    rangeLoop r s st = .ok (st, none) := by
  rw [rangeLoop]
  split
  next hnext =>
    rw [h] at hnext
    cases hnext
  next => rfl
  next hnext =>
    rw [h] at hnext
    cases hnext

theorem rangeLoop_raised {r : Range} {s : Stream} (st : Loop) (h : nextLine s = .raised) :
    rangeLoop r s st = .error (.value (invalidData r.name r.encoding st.number)) := by
  rw [rangeLoop]
  split
  next => rfl
  next hnext =>
    rw [h] at hnext
    cases hnext
  next hnext =>
    rw [h] at hnext
    cases hnext

theorem rangeLoop_line {r : Range} {s rest : Stream} {line : PyStr} {fullLength : Nat} (st : Loop)
    (h : nextLine s = .line line fullLength rest) :
    rangeLoop r s st =
      if st.number + 1 < r.start then
        if (st.count fullLength).scanned > READ_MAX_SCAN_CHARS then
          .error (.value (tooFar r.name r.start))
        else rangeLoop r rest (st.count fullLength)
      else if r.stop.any (· < st.number + 1) then .ok (st.count fullLength, none)
      else if st.out ≠ []
          ∧ st.used + (row (st.number + 1) line (some fullLength)).length + 1 > READ_MAX_CHARS then
        .ok (st.count fullLength, some (st.number + 1))
      else rangeLoop r rest
        ((st.count fullLength).add (row (st.number + 1) line (some fullLength))) := by
  rw [rangeLoop]
  split
  next hnext =>
    rw [h] at hnext
    cases hnext
  next hnext =>
    rw [h] at hnext
    cases hnext
  next hnext =>
    rw [h] at hnext
    cases hnext
    rfl

section

variable (r : Range) (st : Loop)

def due (rows : List PyStr) : List PyStr := window r.start r.stop st.number rows

def shownFrom (rows : List PyStr) : List PyStr :=
  Paging.fill rowSize READ_MAX_CHARS (!st.out.isEmpty) st.used (due r st rows)

def cutFrom (rows : List PyStr) : Option Nat :=
  if (shownFrom r st rows).length < (due r st rows).length then
    some (max r.start (st.number + 1) + (shownFrom r st rows).length) else none

variable {r st} {first : PyStr} {rows : List PyStr}

theorem due_skip (h : st.number + 1 < r.start) (fullLength : Nat) :
    due r st (first :: rows) = due r (st.count fullLength) rows := if_pos h

theorem due_stop (h : ¬st.number + 1 < r.start) (hstop : r.stop.any (· < st.number + 1) = true) :
    due r st (first :: rows) = [] := by
  unfold due
  rw [window, if_neg h, if_pos hstop]

theorem due_row (h : ¬st.number + 1 < r.start) (hstop : ¬r.stop.any (· < st.number + 1) = true)
    (fullLength : Nat) :
    due r st (first :: rows) = first :: due r ((st.count fullLength).add first) rows := by
  unfold due
  rw [window, if_neg h, if_neg hstop]
  rfl

theorem cutFrom_skip (h : st.number + 1 < r.start) (fullLength : Nat) :
    shownFrom r st (first :: rows) = shownFrom r (st.count fullLength) rows ∧
      cutFrom r st (first :: rows) = cutFrom r (st.count fullLength) rows := by
  have hdue : due r st (first :: rows) = _ := due_skip h fullLength
  have hshown : shownFrom r st (first :: rows) = shownFrom r (st.count fullLength) rows := by
    unfold shownFrom
    rw [hdue]
    rfl
  have hmax : max r.start (st.number + 1) = max r.start ((st.count fullLength).number + 1) := by
    have hnumber : (st.count fullLength).number = st.number + 1 := rfl
    omega
  refine ⟨hshown, ?_⟩
  unfold cutFrom
  rw [hshown, hdue, hmax]

theorem cutFrom_stop (h : ¬st.number + 1 < r.start)
    (hstop : r.stop.any (· < st.number + 1) = true) :
    shownFrom r st (first :: rows) = [] ∧ cutFrom r st (first :: rows) = none := by
  have hdue : due r st (first :: rows) = _ := due_stop h hstop
  have hshown : shownFrom r st (first :: rows) = [] := by
    unfold shownFrom
    rw [hdue, Paging.fill]
  refine ⟨hshown, ?_⟩
  unfold cutFrom
  rw [hshown, hdue]
  rfl

theorem cutFrom_full (h : ¬st.number + 1 < r.start)
    (hstop : ¬r.stop.any (· < st.number + 1) = true)
    (hfull : st.out ≠ [] ∧ st.used + first.length + 1 > READ_MAX_CHARS) :
    shownFrom r st (first :: rows) = [] ∧ cutFrom r st (first :: rows) = some (st.number + 1) := by
  have hdue : due r st (first :: rows) = _ := due_row h hstop 0
  have hstarted : (!st.out.isEmpty) = true := by simpa using hfull.1
  have hshown : shownFrom r st (first :: rows) = [] := by
    unfold shownFrom
    rw [hdue, Paging.fill, if_pos ⟨hstarted, by unfold rowSize; omega⟩]
  refine ⟨hshown, ?_⟩
  unfold cutFrom
  rw [hshown, hdue, List.length_nil, List.length_cons, if_pos (Nat.succ_pos _), Nat.add_zero,
    Nat.max_eq_right (Nat.not_lt.1 h)]

theorem cutFrom_add (h : ¬st.number + 1 < r.start)
    (hstop : ¬r.stop.any (· < st.number + 1) = true)
    (hfits : ¬(st.out ≠ [] ∧ st.used + first.length + 1 > READ_MAX_CHARS)) (fullLength : Nat) :
    shownFrom r st (first :: rows)
        = first :: shownFrom r ((st.count fullLength).add first) rows ∧
      cutFrom r st (first :: rows) = cutFrom r ((st.count fullLength).add first) rows := by
  have hdue : due r st (first :: rows) = _ := due_row h hstop fullLength
  have hroom : ¬((!st.out.isEmpty) = true ∧ READ_MAX_CHARS < st.used + rowSize first) := by
    intro hover
    exact hfits ⟨by simpa using hover.1, by have := hover.2; unfold rowSize at this; omega⟩
  have hstarted : (!((st.count fullLength).add first).out.isEmpty) = true := by simp [Loop.add]
  have hshown : shownFrom r st (first :: rows)
      = first :: shownFrom r ((st.count fullLength).add first) rows := by
    unfold shownFrom
    rw [hdue, Paging.fill, if_neg hroom, hstarted]
    rfl
  refine ⟨hshown, ?_⟩
  have hnumber : ((st.count fullLength).add first).number = st.number + 1 := rfl
  have hle := Nat.not_lt.1 h
  unfold cutFrom
  rw [hshown, hdue, hnumber]
  simp only [List.length_cons, Nat.add_lt_add_iff_right]
  split
  · congr 1
    omega
  · rfl

end

/-- A stream that does not raise is shown to the end of the range or of the
page, unless the scan goes too far. -/
theorem rangeLoop_shows (r : Range) : ∀ (text : PyStr) (st : Loop),
    (text ≠ [] → st.scanned + text.length < READ_MAX_SCAN_CHARS) →
      ∃ st', rangeLoop r ⟨text, false⟩ st
          = .ok (st', cutFrom r st (rowsFrom st.number (linesOf text))) ∧
        st'.out = st.out ++ shownFrom r st (rowsFrom st.number (linesOf text)) := by
  intro text
  induction hn : text.length using Nat.strong_induction_on generalizing text with
  | _ n ih =>
      intro st hscan
      by_cases hnil : text = []
      · subst hnil
        exact ⟨st, rangeLoop_ended st nextLine_nil, (List.append_nil _).symm⟩
      · obtain ⟨line, tail, rest, htext, hline, hbreaks⟩ := exists_line text
        subst htext
        have hnext := nextLine_line hline hbreaks hnil
        have hscan := hscan hnil
        rw [List.length_append] at hn
        have hrest : rest ≠ [] → line.length + 1 + rest.length = n := by
          intro hne
          rcases hbreaks with ⟨-, hrest⟩ | htail
          · exact absurd hrest hne
          · rw [htail, List.length_cons] at hn
            omega
        have hshorter : rest.length < n := by
          have hpos := List.length_pos_iff.2 hnil
          rw [List.length_append] at hpos
          by_cases hne : rest = []
          · rw [hne, List.length_nil]
            omega
          · have := hrest hne
            omega
        have hcount : rest ≠ [] →
            (st.count line.length).scanned + rest.length < READ_MAX_SCAN_CHARS := by
          intro hne
          have := hrest hne
          have hscanned : (st.count line.length).scanned = st.scanned + (line.length + 1) := rfl
          omega
        rw [linesOf_line hline hbreaks hnil, rowsFrom, rangeLoop_line st hnext, row_shown]
        by_cases hskip : st.number + 1 < r.start
        · have hnear : ¬(st.count line.length).scanned > READ_MAX_SCAN_CHARS := by
            have hscanned : (st.count line.length).scanned = st.scanned + (line.length + 1) := rfl
            omega
          obtain ⟨hshown, hcut⟩ := cutFrom_skip hskip line.length
          rw [if_pos hskip, if_neg hnear, hshown, hcut]
          exact ih _ hshorter rest rfl (st.count line.length) hcount
        · rw [if_neg hskip]
          by_cases hstop : r.stop.any (· < st.number + 1) = true
          · obtain ⟨hshown, hcut⟩ := cutFrom_stop hskip hstop
            refine ⟨st.count line.length, (if_pos hstop).trans ?_, ?_⟩
            · rw [hcut]
            · rw [hshown, List.append_nil]
              rfl
          · rw [if_neg hstop]
            by_cases hfull : st.out ≠ []
                ∧ st.used + (row (st.number + 1) line none).length + 1 > READ_MAX_CHARS
            · obtain ⟨hshown, hcut⟩ := cutFrom_full hskip hstop hfull
              refine ⟨st.count line.length, (if_pos hfull).trans ?_, ?_⟩
              · rw [hcut]
              · rw [hshown, List.append_nil]
                rfl
            · obtain ⟨hshown, hcut⟩ := cutFrom_add hskip hstop hfull line.length
              obtain ⟨st', hloop, hout⟩ := ih _ hshorter rest rfl
                ((st.count line.length).add (row (st.number + 1) line none)) hcount
              refine ⟨st', (if_neg hfull).trans ?_, ?_⟩
              · rw [hcut]
                exact hloop
              · rw [hout, hshown]
                exact List.append_assoc ..

-- ===== the encoding

/-- The text that a file's bytes are, as the whole-file read decodes them. -/
def TextOf (name : PyStr) (data : List UInt8) (text : PyStr) : Prop :=
  ∃ encoding raw, chooseEncoding data name data.length true = .ok encoding ∧
    encoding.decode data = some raw ∧ text = normalized raw

def hasMark (data : List UInt8) : Bool :=
  bomUtf8.isPrefixOf data || (bomUtf16Le.isPrefixOf data || bomUtf16Be.isPrefixOf data)

/-- The bytes that a range looks at could be UTF-8; all of them are not. -/
structure LateByte (data : List UInt8) : Prop where
  unmarked : hasMark data = false
  long : ENCODING_SAMPLE_BYTES ≤ data.length
  notUtf8 : Codec.utf8.decode data = none
  begins : Codec.utf8.accepts (data.take ENCODING_SAMPLE_BYTES) = true

theorem isPrefixOf_take (mark data : List UInt8) {n : Nat} (h : mark.length ≤ n) :
    mark.isPrefixOf (data.take n) = mark.isPrefixOf data := by
  induction mark generalizing data n with
  | nil => rfl
  | cons b mark ih =>
      cases n with
      | zero => exact absurd h (Nat.not_succ_le_zero _)
      | succ n =>
          cases data with
          | nil => rfl
          | cons d data =>
              rw [List.take_succ_cons, List.isPrefixOf_cons_cons, List.isPrefixOf_cons_cons,
                ih data (Nat.le_of_succ_le_succ h)]

theorem chooseEncoding_take (name : PyStr) (data : List UInt8) (size : Nat) :
    chooseEncoding (data.take ENCODING_SAMPLE_BYTES) name size false =
      if bomUtf8.isPrefixOf data then .ok .utf8Sig
      else if bomUtf16Le.isPrefixOf data || bomUtf16Be.isPrefixOf data then .ok .utf16
      else if isBinary (data.take SNIFF_BYTES) then chooseEncoding data name size true
      else if Codec.utf8.accepts (data.take ENCODING_SAMPLE_BYTES) then .ok .utf8
      else if (Codec.cp1252.decode (data.take ENCODING_SAMPLE_BYTES)).isSome then .ok .cp1252
      else .error (.value (name ++ ": could not decode as UTF-8 or Windows-1252; ".toList
        ++ "the file is in another encoding or is corrupt.".toList)) := by
  have hmark (mark : List UInt8) (h : mark.length ≤ 3) :
      mark.isPrefixOf (data.take ENCODING_SAMPLE_BYTES) = mark.isPrefixOf data :=
    isPrefixOf_take mark data (h.trans (by decide))
  have hwindow : (data.take ENCODING_SAMPLE_BYTES).take SNIFF_BYTES = data.take SNIFF_BYTES := by
    rw [List.take_take, Nat.min_eq_left (by decide)]
  unfold chooseEncoding
  rw [hmark _ (by decide), hmark _ (by decide), hmark _ (by decide), hwindow]
  split
  · rfl
  · split
    · rfl
    · split
      · rfl
      · rfl

variable {data : List UInt8} {stop : Option Nat}

theorem chooseEncoding_short (h : data.length < ENCODING_SAMPLE_BYTES) (name : PyStr) :
    chooseEncoding (data.take ENCODING_SAMPLE_BYTES) name data.length
      ((data.take ENCODING_SAMPLE_BYTES).length < ENCODING_SAMPLE_BYTES)
        = chooseEncoding data name data.length true := by
  rw [List.take_of_length_le (Nat.le_of_lt h), decide_eq_true h]

theorem sample_flag (h : ENCODING_SAMPLE_BYTES ≤ data.length) :
    decide ((data.take ENCODING_SAMPLE_BYTES).length < ENCODING_SAMPLE_BYTES) = false := by
  rw [List.length_take, Nat.min_eq_left h]
  exact decide_eq_false (Nat.lt_irrefl _)

theorem chooseEncoding_sample {name : PyStr} {encoding : Encoding}
    (hlate : ¬LateByte data) (h : chooseEncoding data name data.length true = .ok encoding) :
    chooseEncoding (data.take ENCODING_SAMPLE_BYTES) name data.length
      ((data.take ENCODING_SAMPLE_BYTES).length < ENCODING_SAMPLE_BYTES) = .ok encoding := by
  by_cases hlong : ENCODING_SAMPLE_BYTES ≤ data.length
  · rw [sample_flag hlong, chooseEncoding_take]
    have hchosen := h
    unfold chooseEncoding at h
    split
    next hmark =>
      rw [if_pos hmark] at h
      exact h
    next hmark =>
      rw [if_neg hmark] at h
      split
      next hmark' =>
        rw [if_pos hmark'] at h
        exact h
      next hmark' =>
        rw [if_neg hmark'] at h
        split
        next => exact hchosen
        next hbinary =>
          rw [if_neg hbinary] at h
          by_cases hutf8 : isUtf8 true data = true
          · rw [if_pos hutf8] at h
            rw [if_pos (Machine.accepts_take _ hutf8)]
            exact h
          · have hnone : Codec.utf8.decode data = none := by
              simpa [isUtf8] using hutf8
            have hrefused : ¬Codec.utf8.accepts (data.take ENCODING_SAMPLE_BYTES) = true := by
              intro hbegins
              exact hlate ⟨by simp [hasMark, hmark, hmark'], hlong, hnone, hbegins⟩
            rw [if_neg hutf8] at h
            rw [if_neg hrefused]
            split at h
            next hcp =>
              rw [if_pos (Machine.decode_take (fun _ => rfl) _ hcp)]
              exact h
            next => cases h
  · rw [chooseEncoding_short (Nat.not_le.1 hlong)]
    exact h

theorem chooseEncoding_late {name : PyStr} {encoding : Encoding}
    (hlate : LateByte data) (h : chooseEncoding data name data.length true = .ok encoding) :
    chooseEncoding (data.take ENCODING_SAMPLE_BYTES) name data.length
      ((data.take ENCODING_SAMPLE_BYTES).length < ENCODING_SAMPLE_BYTES) = .ok .utf8 := by
  obtain ⟨hmark, hmark'⟩ := Bool.or_eq_false_iff.1 hlate.unmarked
  rw [sample_flag hlate.long, chooseEncoding_take, hmark, hmark']
  unfold chooseEncoding at h
  rw [hmark, hmark'] at h
  by_cases hbinary : isBinary (data.take SNIFF_BYTES) = true
  · rw [if_pos hbinary] at h
    cases h
  · rw [if_neg hbinary, if_pos hlate.begins]
    rfl

-- ===== the lengths

theorem normalized_eq (text : PyStr) : normalized text = Text.universalNewlines text := by
  have hskip (prev prev' : Option Char) (s : PyStr) :
      Replace.replaceFrom (Replace.literal ['\r']) ['\n'] 0 prev
        (Replace.replaceFrom (Replace.literal ['\r', '\n']) ['\n'] 0 prev' s)
        = Text.universalNewlines s := by
    induction s using Text.universalNewlines.induct generalizing prev prev' with
    | case1 => rfl
    | case2 rest ih =>
        rw [Text.universalNewlines, ← ih (some '\n') (some '\n')]
        rfl
    | case3 c rest hne ih =>
        have hother : ¬['\r', '\n'] <+: c :: rest := by
          intro hpre
          obtain ⟨z, hz⟩ := hpre
          obtain ⟨hc, hrest⟩ := List.cons.inj hz
          exact hne z hc.symm hrest.symm
        have hinner : Replace.replaceFrom (Replace.literal ['\r', '\n']) ['\n'] 0 prev' (c :: rest)
            = c :: Replace.replaceFrom (Replace.literal ['\r', '\n']) ['\n'] 0 (some c) rest := by
          rw [Replace.replaceFrom, Replace.literal, if_neg hother]
        rw [Text.universalNewlines, hinner, Replace.replaceFrom, Replace.literal]
        by_cases hc : c = '\r'
        · subst hc
          rw [if_pos ⟨_, rfl⟩, if_pos rfl, ← ih (some '\r') (some '\r')]
          rfl
        · have hnot : ¬['\r'] <+: c :: Replace.replaceFrom (Replace.literal ['\r', '\n']) ['\n'] 0
              (some c) rest := by
            intro hpre
            obtain ⟨z, hz⟩ := hpre
            exact hc (List.cons.inj hz).1.symm
          rw [if_neg hnot, if_neg hc, ih]
        exact hne
  exact hskip none none text

theorem universalNewlines_length (s : PyStr) : (Text.universalNewlines s).length ≤ s.length := by
  induction s using Text.universalNewlines.induct with
  | case1 => exact Nat.le_refl 0
  | case2 rest ih =>
      rw [Text.universalNewlines, List.length_cons, List.length_cons, List.length_cons]
      omega
  | case3 c rest hne ih =>
      rw [Text.universalNewlines, List.length_cons, List.length_cons]
      · exact Nat.succ_le_succ ih
      · exact hne

theorem Encoding.decode_length {encoding : Encoding} {text : PyStr}
    (h : encoding.decode data = some text) : text.length ≤ data.length := by
  cases encoding with
  | utf8Sig =>
      have hle := Machine.decode_length utf8_single h
      rw [List.length_drop] at hle
      omega
  | utf16 =>
      have hle := Machine.decode_length (utf16_single _) h
      rw [List.length_drop] at hle
      omega
  | utf8 => exact Machine.decode_length utf8_single h
  | cp1252 => exact Machine.decode_length cp1252_single h

theorem TextOf.length_le {name : PyStr} {text : PyStr}
    (h : TextOf name data text) : text.length ≤ data.length := by
  obtain ⟨encoding, raw, -, hdecode, htext⟩ := h
  have hraw := Encoding.decode_length hdecode
  have htext' := universalNewlines_length raw
  rw [htext, normalized_eq]
  omega

theorem linesOf_length (text : PyStr) :
    (linesOf text).length ≤ text.length ∧ ∀ line ∈ linesOf text, line.length ≤ text.length := by
  induction hn : text.length using Nat.strong_induction_on generalizing text with
  | _ n ih =>
      by_cases hnil : text = []
      · subst hnil
        exact ⟨Nat.zero_le _, List.forall_mem_nil _⟩
      · obtain ⟨line, tail, rest, htext, hline, hbreaks⟩ := exists_line text
        subst htext
        have hpos := List.length_pos_iff.2 hnil
        rw [List.length_append] at hn hpos
        have hrest : rest.length < n := by
          rcases hbreaks with ⟨-, hrest⟩ | htail
          · rw [hrest, List.length_nil]
            omega
          · rw [htail, List.length_cons] at hn
            omega
        obtain ⟨hcount, hlines⟩ := ih _ hrest rest rfl
        rw [linesOf_line hline hbreaks hnil]
        refine ⟨by rw [List.length_cons]; omega, List.forall_mem_cons.2 ⟨by omega, ?_⟩⟩
        intro other hmem
        have hle := hlines other hmem
        omega

theorem rowsFrom_size {lines : List PyStr} (hlines : ∀ line ∈ lines, line.length < 10 ^ 7) :
    ∀ {n : Nat}, n + lines.length < 10 ^ 7 →
      ∀ row ∈ rowsFrom n lines, rowSize row ≤ READ_MAX_CHARS + 1 := by
  induction lines with
  | nil => exact fun _ => List.forall_mem_nil _
  | cons line lines ih =>
      intro n hn
      rw [List.length_cons] at hn
      obtain ⟨hline, hlines⟩ := List.forall_mem_cons.1 hlines
      refine List.forall_mem_cons.2 ⟨?_, ih hlines (by omega)⟩
      exact Nat.succ_le_succ (row_length (by omega) hline)

theorem join_length (parts : List PyStr) :
    (Text.join "\n".toList parts).length ≤ FirstFit.total rowSize parts := by
  induction parts with
  | nil => exact Nat.le_refl 0
  | cons part parts ih =>
      cases parts with
      | nil =>
          have hone : Text.join "\n".toList [part] = part := by simp [Text.join]
          rw [hone, FirstFit.total_cons]
          unfold rowSize
          omega
      | cons next parts =>
          have hmore : Text.join "\n".toList (part :: next :: parts)
              = part ++ '\n' :: Text.join "\n".toList (next :: parts) := by
            simp [Text.join]
          rw [hmore, FirstFit.total_cons, List.length_append, List.length_cons]
          unfold rowSize at ih ⊢
          omega

theorem Notice.str_length {n : Notice} (hfirst : n.first < 10 ^ 7) (hlast : n.last < 10 ^ 7)
    (htotal : ∀ total, n.total = some total → total < 10 ^ 7) (hagain : n.again < 10 ^ 7) :
    n.str.length ≤ 100 := by
  have h1 := decimal_length (by decide) hfirst
  have h2 := decimal_length (by decide) hlast
  have h3 := decimal_length (by decide) hagain
  have h4 : (n.total.elim [] fun total => " of ".toList ++ decimal total).length ≤ 11 := by
    cases heq : n.total with
    | none => exact Nat.zero_le _
    | some total =>
        have hle := decimal_length (by decide) (htotal total heq)
        have hof : " of ".length = 4 := by decide
        simp only [Option.elim_some, List.length_append, String.length_toList]
        omega
  unfold Notice.str
  simp only [List.length_append, String.length_toList]
  have c1 : "[showing lines ".length = 15 := by decide
  have c2 : "-".length = 1 := by decide
  have c3 : "; call read_file again with start_line=".length = 39 := by decide
  have c4 : " to continue]".length = 13 := by decide
  omega

/-- A page of rows within the budget, and its notice, fit in a result. -/
theorem page_length {rows : List PyStr} {notice : Option Notice}
    (hrows : FirstFit.total rowSize rows ≤ READ_MAX_CHARS + 1)
    (hnotice : ∀ n, notice = some n → n.str.length ≤ 100) :
    (Result.page rows notice).str.length ≤ 16000 := by
  have hsum : FirstFit.total rowSize (rows ++ notice.toList.map Notice.str)
      ≤ READ_MAX_CHARS + 102 := by
    rw [FirstFit.total_append]
    cases notice with
    | none =>
        have hzero : FirstFit.total rowSize ((none : Option Notice).toList.map Notice.str) = 0 := rfl
        omega
    | some n =>
        have hn := hnotice n rfl
        have htotal : FirstFit.total rowSize ((some n).toList.map Notice.str) = n.str.length + 1 := rfl
        omega
  have hmax : READ_MAX_CHARS = 14000 := rfl
  exact (join_length (rows ++ notice.toList.map Notice.str)).trans (by omega)

-- ===== the range

theorem window_initial (start : Nat) (stop : Option Nat) : ∀ (rows : List PyStr) (n : Nat),
    window start stop n rows <+: rows.drop (start - 1 - n) := by
  intro rows
  induction rows with
  | nil => exact fun _ => List.nil_prefix
  | cons row rows ih =>
      intro n
      have ih := ih (n + 1)
      rw [window]
      split
      next hskip =>
        have hsucc : start - 1 - n = start - 1 - (n + 1) + 1 := by omega
        rw [hsucc, List.drop_succ_cons]
        exact ih
      next hskip =>
        have hzero : start - 1 - n = 0 := by omega
        have hnext : start - 1 - (n + 1) = 0 := by omega
        rw [hnext, List.drop_zero] at ih
        rw [hzero, List.drop_zero]
        split
        · exact List.nil_prefix
        · exact (List.prefix_cons_inj row).2 ih

theorem window_none (start : Nat) : ∀ (rows : List PyStr) (n : Nat),
    window start none n rows = rows.drop (start - 1 - n) := by
  intro rows
  induction rows with
  | nil => exact fun _ => List.drop_nil.symm
  | cons row rows ih =>
      intro n
      have ih := ih (n + 1)
      rw [window]
      split
      next hskip =>
        have hsucc : start - 1 - n = start - 1 - (n + 1) + 1 := by omega
        rw [hsucc, List.drop_succ_cons]
        exact ih
      next hskip =>
        have hzero : start - 1 - n = 0 := by omega
        have hnext : start - 1 - (n + 1) = 0 := by omega
        rw [hnext, List.drop_zero] at ih
        rw [hzero, List.drop_zero, if_neg (by simp), ih]

theorem window_length_le (start last : Nat) : ∀ (rows : List PyStr) (n : Nat),
    (window start (some last) n rows).length ≤ last + 1 - max start (n + 1) := by
  intro rows
  induction rows with
  | nil => exact fun _ => Nat.zero_le _
  | cons row rows ih =>
      intro n
      have ih := ih (n + 1)
      rw [window]
      split
      next hskip => omega
      next hskip =>
        split
        next => exact Nat.zero_le _
        next hstop =>
          have hle : n + 1 ≤ last := by simpa using hstop
          rw [List.length_cons]
          omega

theorem window_ne_nil {start : Nat}
    (hstop : ∀ last, stop = some last → start ≤ last) : ∀ {rows : List PyStr} {n : Nat},
    n < start → start ≤ n + rows.length → window start stop n rows ≠ [] := by
  intro rows
  induction rows with
  | nil =>
      intro n hn hle
      rw [List.length_nil] at hle
      omega
  | cons row rows ih =>
      intro n hn hle
      rw [List.length_cons] at hle
      rw [window]
      split
      next hskip => exact ih hskip (by omega)
      next hskip =>
        have hgo : ¬stop.any (· < n + 1) = true := by
          cases hlast : stop with
          | none => simp
          | some last =>
              have hle := hstop last hlast
              simp
              omega
        rw [if_neg hgo]
        exact List.cons_ne_nil _ _

section

variable {env : Env} {name text : PyStr} {data : List UInt8}

theorem TextOf.lines_lt (hsize : data.length ≤ READ_MAX_FILE_BYTES) (htext : TextOf name data text) :
    (linesOf text).length + 1 < 10 ^ 7 ∧ ∀ line ∈ linesOf text, line.length < 10 ^ 7 := by
  have hle := htext.length_le
  have hmax : READ_MAX_FILE_BYTES = 5242880 := rfl
  obtain ⟨hcount, hlines⟩ := linesOf_length text
  refine ⟨by omega, fun line hmem => ?_⟩
  have := hlines line hmem
  omega

theorem TextOf.rows_size (hsize : data.length ≤ READ_MAX_FILE_BYTES) (htext : TextOf name data text) :
    ∀ row ∈ allRows text, rowSize row ≤ READ_MAX_CHARS + 1 := by
  obtain ⟨hcount, hlines⟩ := htext.lines_lt hsize
  exact rowsFrom_size hlines (by omega)

theorem TextOf.fill_total (hsize : data.length ≤ READ_MAX_FILE_BYTES) (htext : TextOf name data text)
    {rows : List PyStr} (hrows : ∀ row ∈ rows, row ∈ allRows text) :
    FirstFit.total rowSize (Paging.fill rowSize READ_MAX_CHARS false 0 rows) ≤ READ_MAX_CHARS + 1 := by
  have hle : 0 + FirstFit.total rowSize (Paging.fill rowSize READ_MAX_CHARS false 0 rows)
      ≤ READ_MAX_CHARS + 1 := Paging.total_fill (Nat.le_succ READ_MAX_CHARS)
    (fun row hmem => htext.rows_size hsize row (hrows row hmem)) (Nat.zero_le _) fun _ => rfl
  rwa [Nat.zero_add] at hle

theorem TextOf.opened (htext : TextOf name data text) (hlate : ¬LateByte data) :
    ∃ encoding, chooseEncoding (data.take ENCODING_SAMPLE_BYTES) name data.length
        ((data.take ENCODING_SAMPLE_BYTES).length < ENCODING_SAMPLE_BYTES) = .ok encoding ∧
      env.opened encoding data = ⟨text, false⟩ := by
  obtain ⟨encoding, raw, hchoice, hdecode, heq⟩ := htext
  refine ⟨encoding, chooseEncoding_sample hlate hchoice, ?_⟩
  unfold Env.opened
  rw [hdecode, heq, normalized_eq]

theorem execute_some (first : Nat) (hstop : ∀ last, stop = some last → first ≤ last) :
    execute env name data (some first) stop
      = ReadError.caught (readRange env name data first stop) := by
  cases stop with
  | none => rfl
  | some last =>
      have hle : ¬last < first := Nat.not_lt.2 (hstop last rfl)
      unfold execute
      simp [hle]

/-- What a range gives: a page of its rows, or a remark where there are
none. -/
theorem execute_range (hsize : data.length ≤ READ_MAX_FILE_BYTES) (htext : TextOf name data text)
    (hlate : ¬LateByte data) {first : Nat} (hfirst : 0 < first)
    (hstop : ∀ last, stop = some last → first ≤ last) (hle : first ≤ (linesOf text).length) :
    ∃ shown, shown = Paging.fill rowSize READ_MAX_CHARS false 0
        (window first stop 0 (allRows text)) ∧
      execute env name data (some first) stop = .ok (.page shown
        (if shown.length < (window first stop 0 (allRows text)).length then
          some ⟨first, first + shown.length - 1, none, first + shown.length⟩ else none)) := by
  obtain ⟨encoding, hchoice, hopened⟩ := @TextOf.opened env _ _ _ htext hlate
  have hscan : text ≠ [] → 0 + text.length < READ_MAX_SCAN_CHARS := by
    intro _
    have hlength := htext.length_le
    have hmax : READ_MAX_FILE_BYTES = 5242880 := rfl
    have hscan : READ_MAX_SCAN_CHARS = 67108864 := rfl
    omega
  obtain ⟨st, hloop, hout⟩ :=
    rangeLoop_shows ⟨name, encoding, first, stop⟩ text ⟨[], 0, 0, 0⟩ hscan
  have hlines : 0 < first → first ≤ 0 + (allRows text).length := by
    intro _
    unfold allRows
    rw [rowsFrom_length]
    omega
  have hdue := window_ne_nil hstop hfirst (hlines hfirst)
  have hne : st.out ≠ [] := by
    rw [hout]
    exact List.length_pos_iff.1 (Paging.fill_pos rowSize READ_MAX_CHARS 0 hdue)
  have hmax : max first (0 + 1) = first := by omega
  refine ⟨st.out, hout, ?_⟩
  have hcut : cutFrom ⟨name, encoding, first, stop⟩ ⟨[], 0, 0, 0⟩ (rowsFrom 0 (linesOf text))
      = if st.out.length < (window first stop 0 (allRows text)).length then
          some (first + st.out.length) else none := by
    rw [hout, List.nil_append]
    unfold cutFrom
    rw [hmax]
    rfl
  rw [execute_some first hstop]
  unfold readRange
  simp only [hchoice, bind, Except.bind, hopened, hloop, if_neg hne]
  rw [hcut]
  split
  · rfl
  · rfl

end

-- ===== a late byte

theorem readline_fails {limit : Nat} {s rest : Stream} {chunk : PyStr} (hlimit : 0 < limit)
    (hfails : s.fails = true) (h : s.readline limit = some (chunk, rest)) :
    rest.fails = true ∧ chunk ≠ [] := by
  simp only [Stream.readline] at h
  split at h
  next => cases h
  next hread =>
    cases h
    refine ⟨hfails, fun hnil => hread ⟨hfails, ?_, ?_⟩⟩
    · rw [hnil]
      exact hlimit
    · rw [hnil]
      rfl

theorem skipRest_fails {s rest : Stream} {skipped n : Nat} (hfails : s.fails = true)
    (h : skipRest s skipped = some (n, rest)) : rest.fails = true := by
  cases hread : s.readline 65536 with
  | none =>
      rw [skipRest_none skipped hread] at h
      cases h
  | some r =>
      obtain ⟨chunk, next⟩ := r
      obtain ⟨hnext, hne⟩ := readline_fails (by decide) hfails hread
      rw [skipRest_some skipped hread] at h
      split at h
      next =>
        cases h
        exact hnext
      next =>
        have hlt := Stream.readline_shrinks hread hne
        exact skipRest_fails hnext h
termination_by s.text.length

theorem nextLine_fails {s : Stream} (hfails : s.fails = true) :
    nextLine s ≠ .ended ∧
      ∀ line fullLength rest, nextLine s = .line line fullLength rest → rest.fails = true := by
  unfold nextLine
  cases hread : s.readline (READ_MAX_CHARS + 1) with
  | none => exact ⟨fun h => (by cases h), fun _ _ _ h => (by cases h)⟩
  | some r =>
      obtain ⟨chunk, after⟩ := r
      obtain ⟨hafter, hne⟩ := readline_fails (Nat.succ_pos _) hfails hread
      simp only [if_neg hne]
      split
      next =>
        cases hskip : skipRest after 0 with
        | none => exact ⟨fun h => (by cases h), fun _ _ _ h => (by cases h)⟩
        | some skip =>
            refine ⟨fun h => (by cases h), fun _ _ _ h => ?_⟩
            cases h
            exact skipRest_fails hafter hskip
      next =>
        refine ⟨fun h => (by cases h), fun _ _ _ h => ?_⟩
        cases h
        exact hafter

theorem rangeLoop_notText {r : Range} {s : Stream} {st : Loop} {message : PyStr} :
    rangeLoop r s st ≠ .error (.notText message) := by
  cases hnext : nextLine s with
  | ended => exact fun h => (by rw [rangeLoop_ended st hnext] at h; cases h)
  | raised => exact fun h => (by rw [rangeLoop_raised st hnext] at h; cases h)
  | line line fullLength rest =>
      have hlt := nextLine_shrinks hnext
      rw [rangeLoop_line st hnext]
      split
      · split
        · exact fun h => (by cases h)
        · exact rangeLoop_notText
      · split
        · exact fun h => (by cases h)
        · split
          · exact fun h => (by cases h)
          · exact rangeLoop_notText
termination_by s.text.length

theorem rangeLoop_fails {r : Range} (hstop : r.stop = none) {s : Stream} {st st' : Loop}
    {cut : Option Nat} (hfails : s.fails = true) (h : rangeLoop r s st = .ok (st', cut)) :
    cut ≠ none ∧ st'.out ≠ [] := by
  obtain ⟨hends, hrests⟩ := nextLine_fails hfails
  cases hnext : nextLine s with
  | ended => exact absurd hnext hends
  | raised =>
      rw [rangeLoop_raised st hnext] at h
      cases h
  | line line fullLength rest =>
      have hrest := hrests line fullLength rest hnext
      have hlt := nextLine_shrinks hnext
      rw [rangeLoop_line st hnext] at h
      split at h
      next =>
        split at h
        next => cases h
        next => exact rangeLoop_fails hstop hrest h
      next =>
        rw [hstop, if_neg (by simp)] at h
        split at h
        next hfull =>
          cases h
          exact ⟨fun hnone => (by cases hnone), hfull.1⟩
        next => exact rangeLoop_fails hstop hrest h
termination_by s.text.length

theorem execute_late {env : Env} {name text : PyStr}
    (htext : TextOf name data text) (hlate : LateByte data) {first : Nat} {result : Result}
    (h : execute env name data (some first) none = .ok result) : result.next ≠ none := by
  obtain ⟨encoding, raw, hchoice, -, -⟩ := htext
  have hutf8 := chooseEncoding_late hlate hchoice
  have hdecode : Encoding.utf8.decode data = none := hlate.notUtf8
  have hopened : env.opened .utf8 data = ⟨env.before .utf8 data, true⟩ := by
    unfold Env.opened
    rw [hdecode]
  rw [execute_some first fun last hlast => (by cases hlast)] at h
  unfold readRange at h
  simp only [hutf8, bind, Except.bind, hopened] at h
  cases hloop : rangeLoop ⟨name, .utf8, first, none⟩ ⟨env.before .utf8 data, true⟩
      ⟨[], 0, 0, 0⟩ with
  | error e =>
      rw [hloop] at h
      cases e with
      | notText message => exact absurd hloop rangeLoop_notText
      | value message => cases h
  | ok r =>
      obtain ⟨st, cut⟩ := r
      obtain ⟨hcut, hout⟩ := rangeLoop_fails rfl rfl hloop
      rw [hloop] at h
      simp only [if_neg hout] at h
      cases h
      obtain ⟨n, rfl⟩ := Option.ne_none_iff_exists'.1 hcut
      exact fun hnone => (by cases hnone)

-- ===== the claim

structure ReadsAlike (env : Env) (name : PyStr) (data : List UInt8) (text : PyStr) : Prop where
  /-- from line 1 on, going on where each page says -/
  pieces : ∃ pages, Paging.Follows (fun k => execute env name data (some k) none) Result.next 1 pages ∧
    pages.flatMap Result.rows = allRows text ∧ ∀ page ∈ pages, page.str.length ≤ 16000
  /-- the whole file, and going on where it is cut -/
  whole : ∃ result, execute env name data none none = .ok result ∧ result.str.length ≤ 16000 ∧
    (result = .plain text ∨ (result.next = none ∧ result.rows = allRows text) ∨
      ∃ k pages, result.next = some k ∧
        Paging.Follows (fun k => execute env name data (some k) none) Result.next k pages ∧
        result.rows ++ pages.flatMap Result.rows = allRows text ∧
        ∀ page ∈ pages, page.str.length ≤ 16000)
  /-- any range of lines that exist -/
  ranges : ∀ first stop, 0 < first → first ≤ (linesOf text).length →
    (∀ last, stop = some last → first ≤ last) →
      ∃ result, execute env name data (some first) stop = .ok result ∧ result.rows ≠ [] ∧
        result.rows <+: (allRows text).drop (first - 1) ∧
        (∀ last, stop = some last → result.rows.length ≤ last + 1 - first) ∧
        result.str.length ≤ 16000

section

variable {env : Env} {name text : PyStr} {data : List UInt8}

theorem TextOf.window_mem {first : Nat} :
    ∀ row ∈ window first stop 0 (allRows text), row ∈ allRows text := fun _ hmem =>
  List.mem_of_mem_drop ((window_initial first stop (allRows text) 0).subset hmem)

theorem execute_range_length (hsize : data.length ≤ READ_MAX_FILE_BYTES)
    (htext : TextOf name data text) {first : Nat} (hfirst : 0 < first)
    (hle : first ≤ (linesOf text).length) {shown : List PyStr}
    (hshown : shown = Paging.fill rowSize READ_MAX_CHARS false 0 (window first stop 0 (allRows text))) :
    (Result.page shown (if shown.length < (window first stop 0 (allRows text)).length then
      some ⟨first, first + shown.length - 1, none, first + shown.length⟩ else none)).str.length
        ≤ 16000 := by
  obtain ⟨hcount, -⟩ := htext.lines_lt hsize
  have hwindow := (window_initial first stop (allRows text) 0).length_le
  rw [List.length_drop] at hwindow
  have hall : (allRows text).length = (linesOf text).length := rowsFrom_length _ _
  refine page_length ?_ ?_
  · rw [hshown]
    exact htext.fill_total hsize TextOf.window_mem
  · intro n hn
    split at hn
    next hlt =>
      cases hn
      refine Notice.str_length ?_ ?_ (fun _ h => (by cases h)) ?_
      · show first < 10 ^ 7
        omega
      · show first + shown.length - 1 < 10 ^ 7
        omega
      · show first + shown.length < 10 ^ 7
        omega
    next => cases hn

theorem execute_paged (hsize : data.length ≤ READ_MAX_FILE_BYTES) (htext : TextOf name data text)
    (hlate : ¬LateByte data) :
    Paging.Paged rowSize READ_MAX_CHARS (allRows text)
      (fun k => execute env name data (some k) none) Result.rows Result.next
      fun result => result.str.length ≤ 16000 where
  page k hk hle := by
    have hall : (allRows text).length = (linesOf text).length := rowsFrom_length _ _
    rw [hall] at hle
    obtain ⟨shown, hshown, hexecute⟩ :=
      @execute_range none env _ _ _ hsize htext hlate _ hk (fun _ h => (by cases h)) hle
    have hlength := execute_range_length hsize htext hk hle hshown
    have hwindow : window k none 0 (allRows text) = (allRows text).drop (k - 1) := window_none k _ 0
    rw [hwindow] at hshown hexecute hlength
    rw [List.length_drop] at hexecute hlength
    refine ⟨_, hexecute, hlength, hshown, ?_⟩
    show Option.map Notice.again _ = _
    split
    next hlt => exact (if_pos hlt).symm
    next hlt => exact (if_neg hlt).symm

theorem execute_plain (hsize : data.length ≤ READ_MAX_FILE_BYTES) (htext : TextOf name data text)
    (hshort : text.length ≤ READ_MAX_CHARS) :
    execute env name data none none = .ok (.plain text) := by
  have hlength := htext.length_le
  obtain ⟨encoding, raw, hchoice, hdecode, heq⟩ := htext
  have hwhole : readWhole name data = .ok (.plain text) := by
    unfold readWhole
    rw [if_neg (Nat.not_lt.2 hsize)]
    split
    next hnil =>
      subst hnil
      rw [List.eq_nil_of_length_eq_zero (Nat.le_zero.1 hlength)]
    next =>
      simp only [hchoice, bind, Except.bind, hdecode, ← heq]
      exact if_pos hshort
  exact congrArg ReadError.caught hwhole

theorem execute_whole (hsize : data.length ≤ READ_MAX_FILE_BYTES) (htext : TextOf name data text)
    (hlong : ¬text.length ≤ READ_MAX_CHARS) {shown : List PyStr}
    (hshown : shown = Paging.fill rowSize READ_MAX_CHARS false 0 (allRows text)) :
    execute env name data none none = .ok (.page shown
      (if shown.length < (linesOf text).length then
        some ⟨1, shown.length, some (linesOf text).length, shown.length + 1⟩ else none)) := by
  have hlength := htext.length_le
  obtain ⟨encoding, raw, hchoice, hdecode, heq⟩ := htext
  have hout : wholeRows 1 0 [] (linesOf text) = shown := by
    rw [wholeRows_eq (linesOf text) 0 0 [], hshown]
    rfl
  have hwhole : readWhole name data = .ok (.page shown
      (if shown.length < (linesOf text).length then
        some ⟨1, shown.length, some (linesOf text).length, shown.length + 1⟩ else none)) := by
    unfold readWhole
    rw [if_neg (Nat.not_lt.2 hsize)]
    split
    next hnil =>
      subst hnil
      exact absurd (Nat.le_trans hlength (Nat.zero_le _)) hlong
    next =>
      simp only [hchoice, bind, Except.bind, hdecode, ← heq]
      rw [if_neg hlong, hout]
  exact congrArg ReadError.caught hwhole

theorem execute_whole_length (hsize : data.length ≤ READ_MAX_FILE_BYTES)
    (htext : TextOf name data text) {shown : List PyStr}
    (hshown : shown = Paging.fill rowSize READ_MAX_CHARS false 0 (allRows text)) :
    (Result.page shown (if shown.length < (linesOf text).length then
      some ⟨1, shown.length, some (linesOf text).length, shown.length + 1⟩ else none)).str.length
        ≤ 16000 := by
  obtain ⟨hcount, -⟩ := htext.lines_lt hsize
  refine page_length ?_ ?_
  · rw [hshown]
    exact htext.fill_total hsize fun _ hmem => hmem
  · intro n hn
    split at hn
    next hlt =>
      cases hn
      refine Notice.str_length (by decide : 1 < 10 ^ 7) ?_ ?_ ?_
      · show shown.length < 10 ^ 7
        omega
      · intro total htotal
        cases htotal
        omega
      · show shown.length + 1 < 10 ^ 7
        omega
    next => cases hn

theorem execute_empty (htext : TextOf name data []) (hlate : ¬LateByte data) :
    execute env name data (some 1) none = .ok (.plain (pastEnd name 0 1)) := by
  obtain ⟨encoding, hchoice, hopened⟩ := @TextOf.opened env _ _ _ htext hlate
  have hloop : rangeLoop ⟨name, encoding, 1, none⟩ ⟨[], false⟩ ⟨[], 0, 0, 0⟩
      = .ok (⟨[], 0, 0, 0⟩, none) := rangeLoop_ended _ nextLine_nil
  rw [execute_some 1 fun last hlast => (by cases hlast)]
  unfold readRange
  simp only [hchoice, bind, Except.bind, hopened, hloop]
  rfl

theorem pastEnd_length (name : PyStr) : (pastEnd name 0 1).length = name.length + 45 := by
  have h0 : (plural 0 "line".toList).length = 7 := by decide
  have h1 : (decimal 1).length = 1 := by decide
  unfold pastEnd
  simp only [List.length_append, String.length_toList, h0, h1]
  have c1 : "[".length = 1 := by decide
  have c2 : " has ".length = 5 := by decide
  have c3 : "; start_line=".length = 13 := by decide
  have c4 : " is past the end.]".length = 18 := by decide
  omega

/-- Without a late byte, and with a name that fits in the remark on a file
without lines, pieces and whole agree. -/
theorem readsAlike_of (hsize : data.length ≤ READ_MAX_FILE_BYTES) (htext : TextOf name data text)
    (hlate : ¬LateByte data) (hname : text = [] → name.length ≤ 15955) :
    ReadsAlike env name data text where
  pieces := by
    by_cases hnil : linesOf text = []
    · have hempty : text = [] := by
        obtain ⟨line, tail, rest, hline, hfree, hbreaks⟩ := exists_line text
        by_contra hne
        rw [hline] at hnil hne
        rw [linesOf_line hfree hbreaks hne] at hnil
        cases hnil
      subst hempty
      have hlength := pastEnd_length name
      have hname := hname rfl
      refine ⟨[.plain (pastEnd name 0 1)], .last (execute_empty htext hlate) rfl, rfl,
        List.forall_mem_cons.2 ⟨?_, List.forall_mem_nil _⟩⟩
      show (pastEnd name 0 1).length ≤ 16000
      omega
    · have hlines := List.length_pos_iff.2 hnil
      have hall : (allRows text).length = (linesOf text).length := rowsFrom_length _ _
      obtain ⟨pages, hfollows, hrows, hgood⟩ :=
        (@execute_paged env _ _ _ hsize htext hlate).follows_all (allRows text).length 1 (by omega)
          Nat.one_pos (by omega)
      exact ⟨pages, hfollows, hrows, hgood⟩
  whole := by
    by_cases hshort : text.length ≤ READ_MAX_CHARS
    · have hmax : READ_MAX_CHARS = 14000 := rfl
      refine ⟨.plain text, execute_plain hsize htext hshort, ?_, .inl rfl⟩
      show text.length ≤ 16000
      omega
    · have hall : (allRows text).length = (linesOf text).length := rowsFrom_length _ _
      have hle := Paging.fill_length_le rowSize READ_MAX_CHARS false 0 (allRows text)
      have happend := Paging.fill_append rowSize READ_MAX_CHARS false 0 (allRows text)
      obtain ⟨shown, hshown⟩ : ∃ shown, shown = Paging.fill rowSize READ_MAX_CHARS false 0 (allRows text) :=
        ⟨_, rfl⟩
      rw [← hshown] at hle happend
      refine ⟨_, execute_whole hsize htext hshort hshown, execute_whole_length hsize htext hshown, .inr ?_⟩
      by_cases hcut : shown.length < (linesOf text).length
      · obtain ⟨pages, hfollows, hrows, hgood⟩ :=
          (@execute_paged env _ _ _ hsize htext hlate).follows_all (allRows text).length
            (shown.length + 1) (by omega) (Nat.succ_pos _) (by omega)
        rw [if_pos hcut]
        refine .inr ⟨shown.length + 1, pages, rfl, hfollows, ?_, hgood⟩
        rw [hrows]
        exact happend
      · rw [if_neg hcut]
        have hrest : (allRows text).drop shown.length = [] := List.drop_eq_nil_of_le (by omega)
        rw [hrest, List.append_nil] at happend
        exact .inl ⟨rfl, happend⟩
  ranges first stop hfirst hle hstop := by
    obtain ⟨shown, hshown, hexecute⟩ :=
      @execute_range _ env _ _ _ hsize htext hlate _ hfirst hstop hle
    have hall : (allRows text).length = (linesOf text).length := rowsFrom_length _ _
    have hlength := execute_range_length hsize htext hfirst hle hshown
    have hne := window_ne_nil (n := 0) hstop hfirst
      (by rw [hall]; omega : first ≤ 0 + (allRows text).length)
    have hpos := Paging.fill_pos rowSize READ_MAX_CHARS 0 hne
    have hinitial : shown <+: window first stop 0 (allRows text) := by
      rw [hshown]
      exact ⟨_, Paging.fill_append rowSize READ_MAX_CHARS false 0 _⟩
    rw [← hshown] at hpos
    refine ⟨_, hexecute, List.length_pos_iff.1 hpos,
      hinitial.trans (window_initial first stop (allRows text) 0), ?_, hlength⟩
    intro last hlast
    have hwindow := window_length_le first last (allRows text) 0
    have hshorter := hinitial.length_le
    rw [hlast] at hshorter
    show shown.length ≤ _
    omega

/-- Pieces and whole agree exactly where the file has no late byte, and a
name that is not too long, should it have no lines. -/
theorem readsAlike_iff (hsize : data.length ≤ READ_MAX_FILE_BYTES) (htext : TextOf name data text) :
    ReadsAlike env name data text ↔ ¬LateByte data ∧ (text = [] → name.length ≤ 15955) := by
  constructor
  · intro h
    obtain ⟨pages, hfollows, -, hgood⟩ := h.pieces
    have hlate : ¬LateByte data := fun hlate =>
      Paging.not_follows (fun k result => execute_late htext hlate) hfollows
    refine ⟨hlate, fun hnil => ?_⟩
    subst hnil
    have hempty := @execute_empty env _ _ htext hlate
    have hlength := pastEnd_length name
    have hbound (result : Result) (hread : execute env name data (some 1) none = .ok result)
        (hle : result.str.length ≤ 16000) : name.length ≤ 15955 := by
      rw [hempty] at hread
      cases hread
      have hle : (pastEnd name 0 1).length ≤ 16000 := hle
      omega
    cases hfollows with
    | last hread _ => exact hbound _ hread (hgood _ List.mem_cons_self)
    | more hread _ _ => exact hbound _ hread (hgood _ List.mem_cons_self)
  · intro h
    exact readsAlike_of hsize htext h.1 h.2

/-- A file of one line, read both ways. -/
theorem readsAlike_iff_line :
    ReadsAlike ⟨fun _ _ => []⟩ "f".toList [0x61, 0x0A] "a\n".toList
      ↔ ¬LateByte [0x61, 0x0A] ∧ ("a\n".toList = [] → "f".toList.length ≤ 15955) :=
  readsAlike_iff (by decide) ⟨.utf8, "a\n".toList, by decide, by decide, by decide⟩

end

def lettersThenEuro (n : Nat) : List UInt8 := List.replicate (n + 1) 0x61 ++ [0x80]

theorem utf8_letters (n : Nat) :
    Codec.utf8.run .start (List.replicate n 0x61) = some (List.replicate n 'a', .start) := by
  induction n with
  | zero => rfl
  | succ n ih =>
      have hstep : Codec.utf8.step .start 0x61 = some (['a'], .start) := rfl
      rw [List.replicate_succ, Machine.run, hstep]
      simp [ih, List.replicate_succ]

theorem isBinary_false {window : List UInt8} (h : ∀ b ∈ window, b ≠ 0 ∧ isTextByte b = true) :
    isBinary window = false := by
  have hzero : window.contains 0 = false := by
    rw [List.contains_eq_mem, decide_eq_false_iff_not]
    exact fun hmem => (h 0 hmem).1 rfl
  have hcontrol : (window.filter fun b => !isTextByte b) = [] := by
    rw [List.filter_eq_nil_iff]
    intro b hb
    simp [(h b hb).2]
  unfold isBinary
  rw [hzero, hcontrol]
  simp

theorem cp1252_decodes : ∀ {data : List UInt8}, (∀ b ∈ data, (cp1252Char b).isSome) →
    ∃ raw, Codec.cp1252.decode data = some raw := by
  intro data
  suffices hrun : (∀ b ∈ data, (cp1252Char b).isSome) → ∃ r, Codec.cp1252.run () data = some r by
    intro h
    obtain ⟨r, hr⟩ := hrun h
    exact ⟨r.1, by unfold Machine.decode; rw [show Codec.cp1252.start = () from rfl, hr]; rfl⟩
  induction data with
  | nil => exact fun _ => ⟨_, rfl⟩
  | cons b data ih =>
      intro h
      obtain ⟨hb, hdata⟩ := List.forall_mem_cons.1 h
      obtain ⟨c, hc⟩ := Option.isSome_iff_exists.1 hb
      obtain ⟨r, hr⟩ := ih hdata
      have hstep : Codec.cp1252.step () b = some ([c], ()) := by
        show (cp1252Char b).map _ = _
        rw [hc]
        rfl
      exact ⟨([c] ++ r.1, r.2), by rw [Machine.run, hstep]; simp [hr]⟩

theorem mem_lettersThenEuro {n : Nat} {b : UInt8} (h : b ∈ lettersThenEuro n) :
    b = 0x61 ∨ b = 0x80 := by
  rcases List.mem_append.1 h with hmem | hmem
  · exact .inl (List.eq_of_mem_replicate hmem)
  · exact .inr (List.mem_singleton.1 hmem)

theorem utf8_lettersThenEuro (n : Nat) : Codec.utf8.decode (lettersThenEuro n) = none := by
  have hlast : Codec.utf8.run .start [0x80] = none := rfl
  unfold Machine.decode lettersThenEuro
  rw [Machine.run_append, show Codec.utf8.start = .start from rfl, utf8_letters]
  simp [hlast]

theorem textOf_lettersThenEuro (name : PyStr) (n : Nat) :
    ∃ text, TextOf name (lettersThenEuro n) text := by
  obtain ⟨raw, hraw⟩ := @cp1252_decodes (lettersThenEuro n) fun b hb => by
    rcases mem_lettersThenEuro hb with rfl | rfl <;> decide
  have hbinary : isBinary ((lettersThenEuro n).take SNIFF_BYTES) = false := isBinary_false fun b hb => by
    rcases mem_lettersThenEuro (List.mem_of_mem_take hb) with rfl | rfl <;> decide
  refine ⟨normalized raw, .cp1252, raw, ?_, hraw, rfl⟩
  unfold chooseEncoding
  rw [hbinary, show isUtf8 true (lettersThenEuro n) = false by simp [isUtf8, utf8_lettersThenEuro], hraw]
  rfl

/-- 65536 letters and a byte 0x80: the whole file is read as Windows-1252,
and following the pages from line 1 ends in an error. -/
theorem not_readsAlike_late : ∃ env name text,
    (lettersThenEuro 65535).length ≤ READ_MAX_FILE_BYTES ∧ TextOf name (lettersThenEuro 65535) text ∧
      ¬ReadsAlike env name (lettersThenEuro 65535) text := by
  obtain ⟨text, htext⟩ := textOf_lettersThenEuro "f".toList 65535
  have hlength (n : Nat) : (lettersThenEuro n).length = n + 2 := by simp [lettersThenEuro]
  have hlate : LateByte (lettersThenEuro 65535) := by
    refine ⟨rfl, ?_, utf8_lettersThenEuro _, ?_⟩
    · rw [hlength]
      decide
    · have htake (n : Nat) : (lettersThenEuro n).take (n + 1) = List.replicate (n + 1) 0x61 := by
        simp [lettersThenEuro]
      have hsample : ENCODING_SAMPLE_BYTES = 65535 + 1 := rfl
      unfold Machine.accepts
      rw [hsample, htake, show Codec.utf8.start = .start from rfl, utf8_letters]
      rfl
  refine ⟨⟨fun _ _ => []⟩, "f".toList, text, ?_, htext, fun h => ?_⟩
  · rw [hlength]
    decide
  · obtain ⟨pages, hfollows, -, -⟩ := h.pieces
    exact Paging.not_follows (fun k result => execute_late htext hlate) hfollows

end Velune.Tools
