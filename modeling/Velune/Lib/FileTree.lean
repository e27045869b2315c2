/-
File trees with symbolic links.

A place is a list of names below the root of the tree. What stands at a
place is a `Node`; a link carries the place it leads to in the end, all
links on its way followed, so that following a path is one walk over its
names (`walk`). A name with nothing behind it is kept as it is, as the
non-strict real path of scripting languages does.

A place no link and no `..` occurs on is `Physical`. Walks end in
physical places, and a walk from a physical place along the rest of one
goes nowhere else; `normal` is what is left of a path when `..` is taken
back by its text alone.
-/
import Mathlib.Data.List.Basic
import Mathlib.Data.List.Induction

namespace Lib

abbrev Name := List Char

/-- `..`. -/
def up : Name := ['.', '.']

/-- `.`. -/
def here : Name := ['.']

inductive Node (α : Type*)
  | file (content : α)
  | dir
  | link (place : List Name)
  | other

namespace Node

variable {α : Type*}

def isLink : Node α → Bool
  | link _ => true
  | _ => false

def isDir : Node α → Bool
  | dir => true
  | _ => false

end Node

/-- No step of a place is `.`, `..` or a link. -/
def Physical {α : Type*} (node : List Name → Option (Node α)) (place : List Name) : Prop :=
  ∀ before name after, place = before ++ name :: after →
    name ≠ up ∧ name ≠ here ∧ (node (before ++ [name])).any Node.isLink = false

theorem physical_singleton {α : Type*} {node : List Name → Option (Node α)} {name : Name}
    (hup : name ≠ up) (hhere : name ≠ here) (hlink : (node [name]).any Node.isLink = false) :
    Physical node [name] := by
  intro before name' after h
  cases before with
  | nil =>
      cases h
      exact ⟨hup, hhere, hlink⟩
  | cons b before => simp at h

/-- A tree whose root is no link and whose links lead to physical
places. -/
structure FileTree (α : Type*) where
  node : List Name → Option (Node α)
  top : (node []).any Node.isLink = false
  link_physical : ∀ {p q}, node p = some (.link q) → Physical node q

namespace FileTree

variable {α : Type*} (t : FileTree α)

def step (place : List Name) (name : Name) : List Name :=
  if name = here then place
  else if name = up then place.dropLast
  else
    match t.node (place ++ [name]) with
    | some (.link q) => q
    | _ => place ++ [name]

def walk (place : List Name) (path : List Name) : List Name := path.foldl t.step place

def real (path : List Name) : List Name := t.walk [] path

/-- `lstat`: what stands at the end of a path, a last link not
followed. -/
def lstat (path : List Name) : Option (Node α) :=
  match path.getLast? with
  | none => t.node []
  | some name =>
      if name = up ∨ name = here then t.node (t.real path)
      else t.node (t.real path.dropLast ++ [name])

def isLinkAt (path : List Name) : Bool := (t.lstat path).any Node.isLink

/-- One step of normalising: `..` takes back the name before it. -/
def normalStep (absolute : Bool) (acc : List Name) (name : Name) : List Name :=
  if name = up then
    match acc.getLast? with
    | none => if absolute then [] else [up]
    | some last => if last = up then acc ++ [up] else acc.dropLast
  else acc ++ [name]

/-- A path without `.`, normalised by its text. -/
def normal (absolute : Bool) (path : List Name) : List Name := path.foldl (normalStep absolute) []

-- ===== physical

variable {t}

theorem physical_nil : Physical t.node [] := by
  intro before name after h
  simp at h

theorem physical_of_append {p q : List Name} (h : Physical t.node (p ++ q)) :
    Physical t.node p := by
  rintro before name after rfl
  exact h before name (after ++ q) (by simp)

variable {p : List Name}

theorem physical_concat {name : Name} :
    Physical t.node (p ++ [name]) ↔ Physical t.node p ∧ name ≠ up ∧ name ≠ here ∧
      (t.node (p ++ [name])).any Node.isLink = false := by
  constructor
  · intro h
    exact ⟨physical_of_append h, h p name [] rfl⟩
  · rintro ⟨hp, hname⟩ before name' after h
    rcases List.eq_nil_or_concat' after with rfl | ⟨after, last, rfl⟩
    · obtain ⟨rfl, hnames⟩ := List.append_inj' h rfl
      cases hnames
      exact hname
    · rw [← List.cons_append, ← List.append_assoc] at h
      exact hp before name' after (List.append_inj' h rfl).1

theorem physical_dropLast (h : Physical t.node p) : Physical t.node p.dropLast := by
  rcases List.eq_nil_or_concat' p with rfl | ⟨p, name, rfl⟩
  · exact h
  · rw [List.dropLast_concat]
    exact (physical_concat.1 h).1

theorem step_physical (hp : Physical t.node p) (name : Name) : Physical t.node (t.step p name) := by
  unfold step
  by_cases hhere : name = here
  · rwa [if_pos hhere]
  rw [if_neg hhere]
  by_cases hup : name = up
  · rw [if_pos hup]
    exact physical_dropLast hp
  rw [if_neg hup]
  split
  next q hq => exact t.link_physical hq
  next hno =>
    refine physical_concat.2 ⟨hp, hup, hhere, ?_⟩
    cases hnode : t.node (p ++ [name]) with
    | none => rfl
    | some n =>
        cases n with
        | link q => exact absurd hnode (hno q)
        | file content => rfl
        | dir => rfl
        | other => rfl

theorem step_of_physical {name : Name} (h : Physical t.node (p ++ [name])) :
    t.step p name = p ++ [name] := by
  obtain ⟨-, hup, hhere, hlink⟩ := physical_concat.1 h
  unfold step
  rw [if_neg hhere, if_neg hup]
  split
  next q hq =>
    rw [hq] at hlink
    cases hlink
  next => rfl

theorem walk_append (p path more : List Name) :
    t.walk p (path ++ more) = t.walk (t.walk p path) more := List.foldl_append

theorem walk_concat (p path : List Name) (name : Name) :
    t.walk p (path ++ [name]) = t.step (t.walk p path) name := by
  rw [walk_append]
  rfl

theorem walk_physical (hp : Physical t.node p) (path : List Name) :
    Physical t.node (t.walk p path) := by
  induction path using List.reverseRecOn with
  | nil => exact hp
  | append_singleton path name ih =>
      rw [walk_concat]
      exact step_physical ih name

theorem walk_of_physical {p q : List Name} (h : Physical t.node (p ++ q)) :
    t.walk p q = p ++ q := by
  induction q using List.reverseRecOn with
  | nil => simp [walk]
  | append_singleton q name ih =>
      rw [← List.append_assoc] at h
      rw [walk_concat, ih (physical_concat.1 h).1, step_of_physical h, List.append_assoc]

theorem real_physical (path : List Name) : Physical t.node (t.real path) :=
  walk_physical physical_nil path

theorem real_of_physical (h : Physical t.node p) : t.real p = p :=
  walk_of_physical h

theorem real_append (path more : List Name) : t.real (path ++ more) = t.walk (t.real path) more :=
  walk_append [] path more

theorem real_below (h : Physical t.node p) (path : List Name) :
    t.real (p ++ path) = t.walk p path := by
  rw [real_append, real_of_physical h]

theorem not_link_of_physical (h : Physical t.node p) : (t.node p).any Node.isLink = false := by
  rcases List.eq_nil_or_concat' p with rfl | ⟨p, name, rfl⟩
  · exact t.top
  · exact (physical_concat.1 h).2.2.2

/-- A path that ends in `..` ends in no link. -/
theorem isLinkAt_up (path : List Name) : t.isLinkAt (path ++ [up]) = false := by
  have hlstat : t.lstat (path ++ [up]) = t.node (t.real (path ++ [up])) := by
    unfold lstat
    rw [List.getLast?_concat]
    exact if_pos (.inl rfl)
  rw [isLinkAt, hlstat]
  exact not_link_of_physical (real_physical _)

theorem isLinkAt_of_none (h : ∀ p q, t.node p ≠ some (.link q)) (path : List Name) :
    t.isLinkAt path = false := by
  have hnode : ∀ p, (t.node p).any Node.isLink = false := by
    intro p
    cases hp : t.node p with
    | none => rfl
    | some n =>
        cases n with
        | link q => exact absurd hp (h p q)
        | file content => rfl
        | dir => rfl
        | other => rfl
  unfold isLinkAt lstat
  split
  next => exact hnode _
  next =>
    split
    next => exact hnode _
    next => exact hnode _

/-- The real place of what is not a link lies where its directory
does. -/
theorem real_concat {path : List Name} {name : Name} (hup : name ≠ up) (hhere : name ≠ here)
    (hlink : t.isLinkAt (path ++ [name]) = false) :
    t.real (path ++ [name]) = t.real path ++ [name] := by
  have hlstat : t.lstat (path ++ [name]) = t.node (t.real path ++ [name]) := by
    unfold lstat
    simp [hup, hhere]
  rw [isLinkAt, hlstat] at hlink
  rw [real, walk_concat]
  exact step_of_physical (physical_concat.2 ⟨real_physical path, hup, hhere, hlink⟩)

-- ===== normalised paths

/-- What is left after normalising: some `..`, in a relative path only,
and names of the path. -/
theorem normal_form (absolute : Bool) (path : List Name) :
    ∃ k names, normal absolute path = List.replicate k up ++ names ∧ up ∉ names ∧
      (∀ name ∈ names, name ∈ path) ∧ (absolute = true → k = 0) := by
  induction path using List.reverseRecOn with
  | nil => exact ⟨0, [], rfl, by simp, by simp, fun _ => rfl⟩
  | append_singleton path last ih =>
      obtain ⟨k, names, hnormal, hup, hnames, habsolute⟩ := ih
      have hstep : normal absolute (path ++ [last])
          = normalStep absolute (List.replicate k up ++ names) last := by
        rw [normal, List.foldl_append, ← normal, hnormal]
        rfl
      have hmore : ∀ name ∈ names, name ∈ path ++ [last] := fun name h =>
        List.mem_append_left _ (hnames name h)
      rw [hstep, normalStep]
      by_cases hlast : last = up
      · rw [if_pos hlast]
        rcases List.eq_nil_or_concat' names with rfl | ⟨names, name, rfl⟩
        · rw [List.append_nil]
          cases k with
          | zero =>
              cases absolute with
              | true => exact ⟨0, [], rfl, by simp, by simp, fun _ => rfl⟩
              | false => exact ⟨1, [], rfl, by simp, by simp, by simp⟩
          | succ k =>
              have hfirst : (List.replicate (k + 1) up).getLast? = some up := by
                rw [List.replicate_succ', List.getLast?_concat]
              refine ⟨k + 2, [], ?_, by simp, by simp, fun h => absurd (habsolute h) (by omega)⟩
              rw [hfirst, List.append_nil, List.replicate_succ' (n := k + 1)]
              exact if_pos rfl
        · have hne : name ≠ up := fun h => hup (by simp [h])
          refine ⟨k, names, ?_, fun h => hup (by simp [h]), fun n hn => hmore n (by simp [hn]),
            habsolute⟩
          rw [← List.append_assoc, List.getLast?_concat, List.dropLast_concat]
          exact if_neg hne
      · rw [if_neg hlast]
        refine ⟨k, names ++ [last], by rw [List.append_assoc], ?_, ?_, habsolute⟩
        · intro h
          rcases List.mem_append.1 h with h | h
          · exact hup h
          · exact hlast (List.mem_singleton.1 h).symm
        · intro name h
          rcases List.mem_append.1 h with h | h
          · exact hmore name h
          · exact List.mem_append_right _ h

theorem walk_up (place : List Name) (k : Nat) :
    (t.walk place (List.replicate k up)).length = place.length - k := by
  induction k with
  | zero => simp [walk]
  | succ k ih =>
      have hstep : ∀ q : List Name, t.step q up = q.dropLast := fun q => by
        unfold step
        rw [if_neg (by decide), if_pos rfl]
      rw [List.replicate_succ', walk_concat, hstep, List.length_dropLast, ih]
      omega

end FileTree

end Lib
