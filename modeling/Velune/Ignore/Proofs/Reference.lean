/-
The matcher answers what a verdict from scratch would say.

The reference (`excluded`) knows no tables: a path is excluded when one
of its prefixes is, a prefix is judged by the deepest directory above it
with a rule that applies, and a directory that is itself excluded
contributes nothing. The last of these makes no difference, since
everything below an excluded directory is excluded anyway
(`excluded_eq`), and so the reference is the disjunction of verdicts that
the two tables remember (`Memo.Coherent`). Every query keeps them that
way.
-/
import Mathlib.Data.List.Infix
import Velune.Ignore.Proofs.Lookup

namespace Velune.Ignore

open Lib

variable (v : VeluneIgnore)

-- ===== reference

def verdictIn (directory rel : List PyStr) (isDir : Bool) : Option Bool :=
  lastVerdict v.flags (rulesIn v directory) (rel.drop directory.length) isDir

/-- The verdict about a path by its own name: of the deepest directory
above it with one, among those that contribute; else of the defaults. -/
def judged (contributes : List PyStr → Bool) (rel : List PyStr) (isDir : Bool) : Bool :=
  ((rel.dropLast.inits.reverse.filter contributes).findSome? fun directory =>
      verdictIn v directory rel isDir).getD
    ((lastVerdict v.flags v.defaults rel isDir).getD false)

/-- A directory is excluded: one of its prefixes is, judged as a
directory by directories that are not excluded. `n` is at least the
directory's depth. -/
def dirExcluded : Nat → List PyStr → Bool
  | 0, _ => false
  | n + 1, directory =>
      directory.inits.tail.any fun above => judged v (fun d => !dirExcluded n d) above true

/-- A path is excluded: one of its prefixes is, the proper ones judged
as directories. -/
def excluded (rel : List PyStr) (isDir : Bool) : Bool :=
  let contributes := fun d => !dirExcluded v rel.length d
  rel.dropLast.inits.tail.any (fun above => judged v contributes above true)
    || (rel != [] && judged v contributes rel isDir)

/-- The verdict from scratch about a query: a path outside the workspace
is ignored, the workspace itself is not, and any other is when it is
excluded. -/
def reference (q : Query) : Bool :=
  match relative v q.path with
  | none => true
  | some rel => excluded v rel (judgedAsDir v q (v.root ++ rel))

def NoLinks : Prop := ∀ rel : List PyStr, v.tree.isLinkAt (v.root ++ rel) = false

-- ===== contributions

def all (_ : List PyStr) : Bool := true

theorem judged_of_contributes {contributes : List PyStr → Bool} {rel : List PyStr} {isDir : Bool}
    (h : ∀ d ∈ rel.dropLast.inits, contributes d = true) :
    judged v contributes rel isDir = judged v all rel isDir := by
  have hleft : rel.dropLast.inits.reverse.filter contributes = rel.dropLast.inits.reverse :=
    List.filter_eq_self.2 fun d hd => h d (List.mem_reverse.1 hd)
  have hright : rel.dropLast.inits.reverse.filter all = rel.dropLast.inits.reverse :=
    List.filter_eq_self.2 fun _ _ => rfl
  rw [judged, judged, hleft, hright]

def anyJudged (directory : List PyStr) : Bool :=
  directory.inits.tail.any fun above => judged v all above true

theorem inits_concat {α : Type*} (l : List α) (a : α) : (l ++ [a]).inits = l.inits ++ [l ++ [a]] := by
  rw [List.inits_append]
  rfl

theorem inits_ne_nil {α : Type*} (l : List α) : l.inits ≠ [] :=
  List.ne_nil_of_mem ((List.mem_inits [] l).2 List.nil_prefix)

theorem anyJudged_nil : anyJudged v [] = false := rfl

theorem any_inits_concat (p : List PyStr → Bool) (directory : List PyStr) (name : PyStr) :
    (directory ++ [name]).inits.tail.any p
      = (directory.inits.tail.any p || p (directory ++ [name])) := by
  rw [inits_concat, List.tail_append_of_ne_nil (inits_ne_nil directory), List.any_append,
    List.any_cons, List.any_nil, Bool.or_false]

theorem anyJudged_concat (directory : List PyStr) (name : PyStr) :
    anyJudged v (directory ++ [name])
      = (anyJudged v directory || judged v all (directory ++ [name]) true) :=
  any_inits_concat _ directory name

theorem anyJudged_append {directory : List PyStr} (h : anyJudged v directory = true)
    (more : List PyStr) : anyJudged v (directory ++ more) = true := by
  induction more using List.reverseRecOn with
  | nil => rwa [List.append_nil]
  | append_singleton more name ih => rw [← List.append_assoc, anyJudged_concat, ih, Bool.true_or]

theorem anyJudged_of_prefix {d directory : List PyStr} (hd : d <+: directory)
    (h : anyJudged v directory = false) : anyJudged v d = false := by
  obtain ⟨more, rfl⟩ := hd
  cases hany : anyJudged v d with
  | false => rfl
  | true => rw [← h, anyJudged_append v hany more]

/-- Leaving excluded directories out makes no difference to what is
excluded: at the first excluded prefix nothing is left out yet. -/
theorem any_judged_eq {contributes : List PyStr → Bool} {directory : List PyStr}
    (h : ∀ d, d.length < directory.length → contributes d = !anyJudged v d) :
    directory.inits.tail.any (fun above => judged v contributes above true)
      = anyJudged v directory := by
  induction directory using List.reverseRecOn with
  | nil => rfl
  | append_singleton directory name ih =>
      rw [any_inits_concat, anyJudged_concat, ih fun d hd => h d (by simp; omega)]
      cases hany : anyJudged v directory with
      | true => rfl
      | false =>
          rw [judged_of_contributes]
          intro d hd
          rw [List.dropLast_concat] at hd
          have hd := (List.mem_inits d directory).1 hd
          rw [h d (by simpa using Nat.lt_succ_of_le hd.length_le), anyJudged_of_prefix v hd hany]
          rfl

theorem dirExcluded_eq {n : Nat} : ∀ {directory : List PyStr}, directory.length ≤ n →
    dirExcluded v n directory = anyJudged v directory := by
  induction n with
  | zero =>
      intro directory h
      rw [List.eq_nil_of_length_eq_zero (Nat.le_zero.1 h)]
      rfl
  | succ n ih =>
      intro directory h
      exact any_judged_eq v fun d hd => by rw [ih (by omega)]

/-- The reference without its restriction to directories that are not
excluded. -/
theorem excluded_eq (rel : List PyStr) (isDir : Bool) :
    excluded v rel isDir = (anyJudged v rel.dropLast || (rel != [] && judged v all rel isDir)) := by
  have hcontributes : ∀ d, d.length ≤ rel.length →
      (!dirExcluded v rel.length d) = !anyJudged v d := fun d hd => by rw [dirExcluded_eq v hd]
  have hlength : rel.dropLast.length ≤ rel.length := by
    rw [List.length_dropLast]
    omega
  unfold excluded
  simp only
  rw [any_judged_eq v fun d hd => hcontributes d (by omega)]
  cases hany : anyJudged v rel.dropLast with
  | true => rfl
  | false =>
      rw [judged_of_contributes]
      intro d hd
      have hd := (List.mem_inits d rel.dropLast).1 hd
      have hle := hd.length_le
      rw [hcontributes d (by omega), anyJudged_of_prefix v hd hany]
      rfl

/-- A directory is excluded when one of its prefixes is by its own
name. -/
theorem excluded_dir (directory : List PyStr) :
    excluded v directory true = anyJudged v directory := by
  rw [excluded_eq]
  induction directory using List.reverseRecOn with
  | nil => rfl
  | append_singleton directory name =>
      have hne : (directory ++ [name] != []) = true := by simp
      rw [List.dropLast_concat, anyJudged_concat, hne, Bool.true_and]

-- ===== chains

def chainOf (directory : List PyStr) : Chain :=
  directory.inits.foldl
    (fun above current => extend current (makeRuleset v.flags (rulesIn v current)) above) []

theorem chainOf_concat (directory : List PyStr) (name : PyStr) :
    chainOf v (directory ++ [name]) = extend (directory ++ [name])
      (makeRuleset v.flags (rulesIn v (directory ++ [name]))) (chainOf v directory) := by
  rw [chainOf, inits_concat, List.foldl_append]
  rfl

theorem chainVerdict_extend (directory : List PyStr) (above : Chain) (rel : List PyStr)
    (isDir : Bool) :
    chainVerdict v (extend directory (makeRuleset v.flags (rulesIn v directory)) above) rel isDir
      = (verdictIn v directory rel isDir).or (chainVerdict v above rel isDir) := by
  rw [verdictIn, ← ruleVerdict_eq]
  cases makeRuleset v.flags (rulesIn v directory) with
  | none => rfl
  | some rules =>
      rw [extend, chainVerdict, List.findSome?_cons]
      cases ruleVerdict v.flags (some rules) (rel.drop directory.length) isDir <;> rfl

theorem chainVerdict_chainOf (directory rel : List PyStr) (isDir : Bool) :
    chainVerdict v (chainOf v directory) rel isDir
      = directory.inits.reverse.findSome? fun d => verdictIn v d rel isDir := by
  induction directory using List.reverseRecOn with
  | nil =>
      have hchain : chainOf v [] = extend [] (makeRuleset v.flags (rulesIn v [])) [] := rfl
      rw [hchain, chainVerdict_extend]
      cases hverdict : verdictIn v [] rel isDir with
      | none => simp [chainVerdict, hverdict]
      | some b => simp [hverdict]
  | append_singleton directory name ih =>
      rw [chainOf_concat, chainVerdict_extend, ih, inits_concat, List.reverse_append,
        List.reverse_singleton, List.singleton_append, List.findSome?_cons]
      cases verdictIn v (directory ++ [name]) rel isDir <;> rfl

-- ===== coherence

structure Memo.Coherent (memo : Memo) : Prop where
  chains : Dict.Remembers memo.chains (chainOf v)
  dirState : Dict.Remembers memo.dirState (anyJudged v)

theorem Memo.Coherent.init : Memo.init.Coherent v :=
  ⟨Dict.remembers_empty _, Dict.remembers_empty _⟩

variable {v}

theorem Memo.Coherent.keep {memo : Memo} (h : memo.Coherent v) (directory : List PyStr) :
    ({ memo with dirState := memo.dirState.insert directory (anyJudged v directory) }
      : Memo).Coherent v :=
  ⟨h.chains, h.dirState.insert directory⟩

/-- One round of `_chain`, above which the chain is right. -/
theorem chainStep_spec {acc : Chain × Memo} {current : List PyStr} (hmemo : acc.2.Coherent v)
    (hchain : extend current (makeRuleset v.flags (rulesIn v current)) acc.1
      = chainOf v current) :
    (chainStep v acc current).1 = chainOf v current ∧ (chainStep v acc current).2.Coherent v := by
  unfold chainStep
  cases hknown : acc.2.chains current with
  | some known => exact ⟨hmemo.chains current known hknown, hmemo⟩
  | none =>
      simp only [loadRules]
      rw [hchain]
      exact ⟨rfl, hmemo.chains.insert current, hmemo.dirState⟩

theorem chainLoop_spec {memo : Memo} (hmemo : memo.Coherent v) (directory : List PyStr) :
    (directory.inits.foldl (chainStep v) ([], memo)).1 = chainOf v directory ∧
      (directory.inits.foldl (chainStep v) ([], memo)).2.Coherent v := by
  induction directory using List.reverseRecOn with
  | nil => exact @chainStep_spec v ([], memo) [] hmemo rfl
  | append_singleton directory name ih =>
      rw [inits_concat, List.foldl_append]
      refine chainStep_spec ih.2 ?_
      rw [ih.1, chainOf_concat]

theorem chain_spec {memo : Memo} (hmemo : memo.Coherent v) (directory : List PyStr) :
    (chain v directory memo).1 = chainOf v directory ∧ (chain v directory memo).2.Coherent v := by
  unfold chain
  cases hcached : memo.chains directory with
  | some cached => exact ⟨hmemo.chains directory cached hcached, hmemo⟩
  | none => exact chainLoop_spec hmemo directory

theorem decideRel_spec {memo : Memo} (hmemo : memo.Coherent v) (rel : List PyStr) (isDir : Bool) :
    (decideRel v rel isDir memo).1 = judged v all rel isDir ∧
      (decideRel v rel isDir memo).2.Coherent v := by
  obtain ⟨hchain, hmemo'⟩ := chain_spec hmemo rel.dropLast
  have hall : rel.dropLast.inits.reverse.filter all = rel.dropLast.inits.reverse :=
    List.filter_eq_self.2 fun _ _ => rfl
  refine ⟨?_, hmemo'⟩
  unfold decideRel judged
  simp only
  rw [hchain, chainVerdict_chainOf, hall, defaultVerdict, ruleVerdict_eq]

-- ===== directories

theorem dirVerdict_spec {memo : Memo} (hmemo : memo.Coherent v) {directory : List PyStr}
    {name : PyStr} (habove : anyJudged v directory = false) :
    (dirVerdict v (directory ++ [name]) memo).1 = anyJudged v (directory ++ [name]) ∧
      (dirVerdict v (directory ++ [name]) memo).2.Coherent v := by
  unfold dirVerdict
  cases hknown : memo.dirState (directory ++ [name]) with
  | some state => exact ⟨hmemo.dirState _ state hknown, hmemo⟩
  | none =>
      obtain ⟨hverdict, hmemo'⟩ := decideRel_spec hmemo (directory ++ [name]) true
      have hany : (decideRel v (directory ++ [name]) true memo).1
          = anyJudged v (directory ++ [name]) := by
        rw [hverdict, anyJudged_concat, habove, Bool.false_or]
      simp only
      rw [hany]
      exact ⟨rfl, hmemo'.keep _⟩

/-- The loop over the directories below `above`, down to the parent. -/
theorem excludedLoop_spec (below : List PyStr) : ∀ {above : List PyStr} {memo : Memo},
    memo.Coherent v → anyJudged v above = false →
    (excludedLoop v (above ++ below) (below.inits.tail.map (above ++ ·)) memo).1
        = anyJudged v (above ++ below) ∧
      (excludedLoop v (above ++ below) (below.inits.tail.map (above ++ ·)) memo).2.Coherent v := by
  induction below with
  | nil =>
      intro above memo hmemo habove
      rw [List.append_nil, habove]
      exact ⟨rfl, hmemo⟩
  | cons name below ih =>
      intro above memo hmemo habove
      have hrest : (name :: below).inits.tail.map (above ++ ·)
          = (above ++ [name]) :: below.inits.tail.map ((above ++ [name]) ++ ·) := by
        have hinits : below.inits = [] :: below.inits.tail := by
          cases below with
          | nil => rfl
          | cons b below => rw [List.inits_cons, List.tail_cons]
        rw [List.inits_cons, List.tail_cons, List.map_map, hinits, List.map_cons, List.tail_cons]
        simp [Function.comp_def]
      have hparent : above ++ name :: below = above ++ [name] ++ below := by simp
      obtain ⟨hverdict, hmemo'⟩ := @dirVerdict_spec v memo hmemo above name habove
      rw [hrest, hparent, excludedLoop]
      simp only
      rw [hverdict]
      cases hany : anyJudged v (above ++ [name]) with
      | true =>
          have hparent' := anyJudged_append v hany below
          rw [if_pos rfl, hparent']
          exact ⟨rfl, hparent' ▸ hmemo'.keep (above ++ [name] ++ below)⟩
      | false =>
          rw [if_neg (by simp)]
          exact ih hmemo' hany

theorem parentExcluded_spec {memo : Memo} (hmemo : memo.Coherent v) (parent : List PyStr) :
    (parentExcluded v parent memo).1 = anyJudged v parent ∧
      (parentExcluded v parent memo).2.Coherent v := by
  unfold parentExcluded
  cases hknown : memo.dirState parent with
  | some known => exact ⟨hmemo.dirState parent known hknown, hmemo⟩
  | none =>
      simpa using @excludedLoop_spec v parent [] memo hmemo (anyJudged_nil v)

-- ===== queries

theorem isIgnored_spec (hlinks : NoLinks v) {memo : Memo} (hmemo : memo.Coherent v) (q : Query) :
    (isIgnored v q memo).1 = reference v q ∧ (isIgnored v q memo).2.Coherent v := by
  unfold isIgnored reference
  cases relative v q.path with
  | none => exact ⟨rfl, hmemo⟩
  | some rel =>
      simp only
      rw [excluded_eq]
      by_cases hrel : rel = []
      · subst hrel
        exact ⟨rfl, hmemo⟩
      rw [if_neg hrel]
      -- the parents, from the table or not
      have hparent : ∀ parent : Bool × Memo, parent =
          (if rel.dropLast = [] then (false, memo) else parentExcluded v rel.dropLast memo) →
          parent.1 = anyJudged v rel.dropLast ∧ parent.2.Coherent v := by
        rintro parent rfl
        split
        next hnil =>
          rw [hnil, anyJudged_nil]
          exact ⟨rfl, hmemo⟩
        next => exact parentExcluded_spec hmemo rel.dropLast
      obtain ⟨hany, hmemo'⟩ := hparent _ rfl
      rw [hany]
      have hne : (rel != []) = true := by simpa using hrel
      cases anyJudged v rel.dropLast with
      | true => exact ⟨rfl, hmemo'⟩
      | false =>
          have hlink : linkEscapes v (v.root ++ rel) = false := by
            rw [linkEscapes, hlinks rel, Bool.false_and]
          obtain ⟨hverdict, hmemo''⟩ :=
            decideRel_spec hmemo' rel (judgedAsDir v q (v.root ++ rel))
          rw [if_neg (by simp), hlink, if_neg (by simp), hne, hverdict, Bool.false_or,
            Bool.true_and]
          exact ⟨rfl, hmemo''⟩

theorem runQueries_spec (hlinks : NoLinks v) (qs : List Query) : ∀ {memo : Memo},
    memo.Coherent v → (runQueries v qs memo).1 = qs.map (reference v) ∧
      (runQueries v qs memo).2.Coherent v := by
  induction qs with
  | nil => exact fun hmemo => ⟨rfl, hmemo⟩
  | cons q qs ih =>
      intro memo hmemo
      obtain ⟨hanswer, hmemo'⟩ := isIgnored_spec hlinks hmemo q
      obtain ⟨hanswers, hmemo''⟩ := ih hmemo'
      rw [runQueries]
      simp only
      rw [hanswer, hanswers]
      exact ⟨rfl, hmemo''⟩

/-- A workspace with one ignore file and a directory that it hides. -/
def sampleNode (place : List Name) : Option (Node Stored) :=
  if place = ["ws".toList, ".gitignore".toList] then
    some (.file ⟨22, .ok "*.log\n!keep.log\n/gen/\n".toList⟩)
  else if place = ["ws".toList, "gen".toList] then some .dir
  else none

theorem sampleNode_no_link (p q : List Name) : sampleNode p ≠ some (.link q) := by
  unfold sampleNode
  split
  next => simp
  next =>
    split
    next => simp
    next => simp

def sampleTree : FileTree Stored where
  node := sampleNode
  top := rfl
  link_physical h := absurd h (sampleNode_no_link _ _)

def sample : VeluneIgnore where
  tree := sampleTree
  root := ["ws".toList]
  root_real := physical_singleton (by decide) (by decide) (by decide)
  flags := ⟨⟨id, fun c => [c]⟩, true⟩
  defaults := []
  useFiles := true

example : (runQueries sample [⟨"keep.log".toList, none⟩, ⟨"gen/keep.log".toList, none⟩,
    ⟨"/ws/x/../a.log".toList, none⟩] .init).1 = [false, true, true] := by decide +kernel

end Velune.Ignore
