/-
When the write blocks of the pool are atomic.

What a block leaves in the open transaction is committed by whoever
commits next. So the contents are those of the blocks that exited
normally exactly as long as every commit finds the statements of its own
block only, and that of a shutdown none (`writes_atomic_iff`).
-/
import Mathlib.Data.List.Nodup
import Velune.Memory.SqlitePool

namespace Velune.Memory

open Lib

namespace SQLiteConnectionPool

variable {Stmt : Type} {s s' : SQLiteConnectionPool Stmt}

-- ===== property

/-- The contents are the statements of the blocks that exited normally,
block by block. -/
def Atomic (s : SQLiteConnectionPool Stmt) : Prop := s.committed = s.finished.flatMap s.ofBlock

def Handed : Step Stmt → SQLiteConnectionPool Stmt → Prop
  | .acquire _, s => s.writeConn = true ∧ s.connOpen = true
  | _, _ => True

/-- The open transaction is that of the block that holds the lock. -/
def Own (s : SQLiteConnectionPool Stmt) : Prop :=
  ∀ block handed, s.holder = some (block, handed) → ∀ e ∈ s.transaction, e.1 = block

def Careful : Step Stmt → SQLiteConnectionPool Stmt → Prop
  | .acquire _, s => s.writeConn = true
  | .exit, s => s.Own
  | .cancelCommit done, s => done = true → s.Own
  | .shutdownCommits _, s => s.connOpen = true → s.transaction = []
  | .shutdownCancelled call done, s =>
      done = true ∧ s.shutdowns[call]? = some .committing ∧ s.connOpen = true → s.transaction = []
  | _, _ => True

-- ===== invariant

/-- The blocks are apart, and as long as there is a connection the open
transaction has what the holder executed. -/
structure Sound (s : SQLiteConnectionPool Stmt) : Prop where
  conn : s.writeConn = true → s.connOpen = true
  waits : ∀ block ∈ s.waiting, block < s.next
  holds : ∀ block handed, s.holder = some (block, handed) → block < s.next ∧ block ∉ s.waiting
  ended : ∀ block ∈ s.finished, block < s.next ∧ block ∉ s.waiting
    ∧ ∀ handed, s.holder ≠ some (block, handed)
  nodup : s.waiting.Nodup
  fresh : ∀ e ∈ s.executed, e.1 < s.next ∧ e.1 ∉ s.waiting
  subset : ∀ e ∈ s.transaction, e ∈ s.executed
  mine : s.writeConn = true → ∀ block handed, s.holder = some (block, handed) →
    s.transaction.filter (·.1 = block) = s.ofBlock block

section Steps

theorem ofBlock_nil {block : Nat} (h : ∀ e ∈ s.executed, e.1 ≠ block) : s.ofBlock block = [] :=
  List.filter_eq_nil_iff.2 fun e he hblock => h e he (of_decide_eq_true hblock)

/-- A commit adds what its block executed exactly when the transaction is
its own. -/
theorem atomic_exit (hs : s.Sound) (hp : s.Atomic) (hconn : s.writeConn = true) {block : Nat}
    {handed : Bool} (hholder : s.holder = some (block, handed)) :
    Atomic { s.commit.release with finished := s.finished ++ [block] } ↔ s.Own := by
  have hmine := hs.mine hconn block handed hholder
  have hatomic : Atomic { s.commit.release with finished := s.finished ++ [block] }
      ↔ s.transaction = s.ofBlock block := by
    unfold Atomic
    have hof : ({ s.commit.release with finished := s.finished ++ [block] } :
        SQLiteConnectionPool Stmt).ofBlock = s.ofBlock := rfl
    rw [hof]
    simp only [release, commit, List.flatMap_append, List.flatMap_singleton]
    rw [hp]
    exact List.append_right_inj _
  rw [hatomic, ← hmine]
  refine ⟨fun h other handed' hother e he => ?_, fun hown => ?_⟩
  · cases hholder.symm.trans hother
    rw [h] at he
    exact of_decide_eq_true (List.mem_filter.1 he).2
  · exact (List.filter_eq_self.2 fun e he => decide_eq_true (hown block handed hholder e he)).symm

theorem atomic_shutdown (hp : s.Atomic) : s.commit.Atomic ↔ s.transaction = [] := by
  unfold Atomic
  have hof : s.commit.ofBlock = s.ofBlock := rfl
  rw [hof]
  simp only [commit]
  rw [← hp, List.append_right_eq_self]

theorem Sound.leave (hs : s.Sound) {block : Nat} {handed : Bool}
    (hholder : s.holder = some (block, handed)) {transaction committed : List (Nat × Stmt)}
    (hsubset : ∀ e ∈ transaction, e ∈ s.transaction) {finished : List Nat}
    (hfinished : ∀ b ∈ finished, b ∈ s.finished ∨ b = block) :
    Sound { s with
      holder := none
      transaction := transaction
      committed := committed
      finished := finished } := by
  refine ⟨hs.conn, hs.waits, fun _ _ h => (by cases h), fun b hb => ?_, hs.nodup, hs.fresh,
    fun e he => hs.subset e (hsubset e he), fun _ _ _ h => (by cases h)⟩
  rcases hfinished b hb with hold | rfl
  · exact ⟨(hs.ended b hold).1, (hs.ended b hold).2.1, fun _ h => by cases h⟩
  · obtain ⟨hlt, hwaits⟩ := hs.holds b handed hholder
    exact ⟨hlt, hwaits, fun _ h => by cases h⟩

theorem Sound.close (hs : s.Sound) {connOpen : Bool} {transaction committed : List (Nat × Stmt)}
    {shutdowns : List ShutdownPhase} (hsubset : ∀ e ∈ transaction, e ∈ s.transaction) :
    Sound { s with
      writeConn := false
      connOpen := connOpen
      transaction := transaction
      committed := committed
      shutdowns := shutdowns } :=
  ⟨fun h => (by cases h), hs.waits, hs.holds, hs.ended, hs.nodup, hs.fresh,
    fun e he => hs.subset e (hsubset e he), fun h => (by cases h)⟩

theorem sound_write (hs : s.Sound) :
    Sound { s with waiting := s.waiting ++ [s.next], next := s.next + 1 } := by
  have hnew : ∀ {block : Nat}, block < s.next → block ∉ s.waiting →
      block ∉ s.waiting ++ [s.next] := by
    intro block hlt hwaits hmem
    rcases List.mem_append.1 hmem with hold | hlast
    · exact hwaits hold
    · exact Nat.ne_of_lt hlt (List.mem_singleton.1 hlast)
  refine ⟨hs.conn, fun b hb => ?_, fun b handed h => ?_, fun b hb => ?_, ?_, fun e he => ?_,
    hs.subset, hs.mine⟩
  · rcases List.mem_append.1 hb with hold | hlast
    · exact Nat.lt_succ_of_lt (hs.waits b hold)
    · exact List.mem_singleton.1 hlast ▸ Nat.lt_succ_self s.next
  · obtain ⟨hlt, hwaits⟩ := hs.holds b handed h
    exact ⟨Nat.lt_succ_of_lt hlt, hnew hlt hwaits⟩
  · obtain ⟨hlt, hwaits, hholder⟩ := hs.ended b hb
    exact ⟨Nat.lt_succ_of_lt hlt, hnew hlt hwaits, hholder⟩
  · refine List.Nodup.append hs.nodup (List.nodup_singleton _) fun b hb hlast => ?_
    exact Nat.ne_of_lt (hs.waits b hb) (List.mem_singleton.1 hlast)
  · obtain ⟨hlt, hwaits⟩ := hs.fresh e he
    exact ⟨Nat.lt_succ_of_lt hlt, hnew hlt hwaits⟩

theorem sound_acquire (hs : s.Sound) {block : Nat} (hwaits : block ∈ s.waiting) :
    Sound { s with holder := some (block, s.writeConn), waiting := s.waiting.erase block } := by
  have hfresh : ∀ e ∈ s.executed, e.1 ≠ block := fun e he heq => (hs.fresh e he).2 (heq ▸ hwaits)
  refine ⟨hs.conn, fun b hb => hs.waits b (List.mem_of_mem_erase hb), fun b handed h => ?_,
    fun b hb => ?_, hs.nodup.erase _, fun e he => ?_, hs.subset, fun _ b handed h => ?_⟩
  · cases h
    exact ⟨hs.waits block hwaits, fun hmem => (hs.nodup.mem_erase_iff.1 hmem).1 rfl⟩
  · obtain ⟨hlt, hnot, -⟩ := hs.ended b hb
    refine ⟨hlt, fun hmem => hnot (List.mem_of_mem_erase hmem), fun handed h => ?_⟩
    cases h
    exact hnot hwaits
  · exact ⟨(hs.fresh e he).1, fun hmem => (hs.fresh e he).2 (List.mem_of_mem_erase hmem)⟩
  · cases h
    refine Eq.trans ?_ (ofBlock_nil hfresh).symm
    exact List.filter_eq_nil_iff.2 fun e he h =>
      hfresh e (hs.subset e he) (of_decide_eq_true h)

theorem sound_execute (hs : s.Sound) {block : Nat} {handed : Bool}
    (hholder : s.holder = some (block, handed)) (stmt : Stmt) :
    Sound { s with
      transaction := s.transaction ++ [(block, stmt)]
      executed := s.executed ++ [(block, stmt)] } := by
  obtain ⟨hlt, hwaits⟩ := hs.holds block handed hholder
  refine ⟨hs.conn, hs.waits, hs.holds, hs.ended, hs.nodup, fun e he => ?_, fun e he => ?_,
    fun hconn b handed' h => ?_⟩
  · rcases List.mem_append.1 he with hold | hlast
    · exact hs.fresh e hold
    · cases List.mem_singleton.1 hlast
      exact ⟨hlt, hwaits⟩
  · rcases List.mem_append.1 he with hold | hlast
    · exact List.mem_append_left _ (hs.subset e hold)
    · exact List.mem_append_right _ hlast
  · have hmine := hs.mine hconn b handed' h
    unfold ofBlock at hmine ⊢
    dsimp only
    rw [List.filter_append, List.filter_append, hmine]

theorem sound_step {a : Step Stmt} (hs : s.Sound) (hcareful : Careful a s)
    (hstep : step a s = some s') : s'.Sound := by
  cases a with
  | write =>
      cases hstep
      split
      · exact sound_write hs
      · exact hs
  | acquire block =>
      simp only [step] at hstep
      split at hstep
      · rename_i hand
        cases hstep
        exact sound_acquire hs hand.2
      · cases hstep
  | giveUp block =>
      cases hstep
      refine ⟨hs.conn, fun b hb => hs.waits b (List.mem_of_mem_erase hb), fun b handed h => ?_,
        fun b hb => ?_, hs.nodup.erase _, fun e he => ?_, hs.subset, hs.mine⟩
      · obtain ⟨hlt, hnot⟩ := hs.holds b handed h
        exact ⟨hlt, fun hmem => hnot (List.mem_of_mem_erase hmem)⟩
      · obtain ⟨hlt, hnot, hholder⟩ := hs.ended b hb
        exact ⟨hlt, fun hmem => hnot (List.mem_of_mem_erase hmem), hholder⟩
      · exact ⟨(hs.fresh e he).1, fun hmem => (hs.fresh e he).2 (List.mem_of_mem_erase hmem)⟩
  | execute stmt =>
      simp only [step] at hstep
      split at hstep
      · rename_i hholder
        cases hstep
        split
        · exact sound_execute hs hholder stmt
        · exact hs
      · cases hstep
  | exit =>
      simp only [step] at hstep
      split at hstep
      · rename_i block handed hholder
        split at hstep
        · cases hstep
          refine hs.leave hholder (fun e he => by cases he) fun b hb => ?_
          exact (List.mem_append.1 hb).imp_right List.mem_singleton.1
        · cases hstep
      · cases hstep
  | raise rolledBack =>
      simp only [step] at hstep
      split at hstep
      · rename_i hholder
        cases hstep
        split
        · exact hs.leave hholder (fun e he => by cases he) fun b hb => Or.inl hb
        · exact hs.leave hholder (fun e he => he) fun b hb => Or.inl hb
      · cases hstep
  | cancel =>
      simp only [step] at hstep
      split at hstep
      · rename_i hholder
        cases hstep
        exact hs.leave hholder (fun e he => he) fun b hb => Or.inl hb
      · cases hstep
  | cancelCommit done =>
      simp only [step] at hstep
      split at hstep
      · rename_i block handed hholder
        split at hstep
        · cases hstep
          split
          · refine hs.leave hholder (fun e he => by cases he) fun b hb => ?_
            exact (List.mem_append.1 hb).imp_right List.mem_singleton.1
          · exact hs.leave hholder (fun e he => he) fun b hb => Or.inl hb
        · cases hstep
      · cases hstep
  | shutdown =>
      cases hstep
      split
      · exact ⟨hs.conn, hs.waits, hs.holds, hs.ended, hs.nodup, hs.fresh, hs.subset, hs.mine⟩
      · exact hs
  | shutdownCommits call =>
      simp only [step] at hstep
      split at hstep
      · cases hstep
        cases hconn : s.connOpen with
        | true =>
            -- there is nothing to commit
            have hnone := hcareful hconn
            refine ⟨fun _ => hconn, hs.waits, hs.holds, hs.ended, hs.nodup, hs.fresh,
              fun e he => (by cases he), fun hwrite b handed h => ?_⟩
            have hmine := hs.mine ((Bool.and_eq_true_iff.1 hwrite).1) b handed h
            rw [hnone] at hmine
            exact hmine
        | false =>
            refine ⟨fun hwrite => ?_, hs.waits, hs.holds, hs.ended, hs.nodup, hs.fresh, hs.subset,
              fun hwrite => ?_⟩
            · cases (Bool.and_eq_true_iff.1 hwrite).2
            · cases (Bool.and_eq_true_iff.1 hwrite).2
      · cases hstep
  | shutdownCloses call =>
      simp only [step] at hstep
      split at hstep
      · cases hstep
        exact hs.close fun e he => by cases he
      · cases hstep
  | shutdownCancelled call done =>
      simp only [step] at hstep
      split at hstep
      · cases hstep
        split
        · exact hs.close fun e he => by cases he
        · exact hs.close fun e he => he
      · cases hstep
        refine hs.close fun e he => ?_
        split at he
        · cases he
        · exact he
      · cases hstep

theorem atomic_execute (hs : s.Sound) (hp : s.Atomic) {block : Nat} {handed : Bool}
    (hholder : s.holder = some (block, handed)) (stmt : Stmt) :
    Atomic { s with
      transaction := s.transaction ++ [(block, stmt)]
      executed := s.executed ++ [(block, stmt)] } := by
  refine hp.trans (List.flatMap_congr fun b hb => ?_)
  have hne : block ≠ b := fun heq => (hs.ended b hb).2.2 handed (heq ▸ hholder)
  have hnone : [(block, stmt)].filter (fun e => decide (e.1 = b)) = [] :=
    List.filter_eq_nil_iff.2 fun e he h => by
      cases List.mem_singleton.1 he
      exact hne (of_decide_eq_true h)
  unfold ofBlock
  rw [List.filter_append, hnone, List.append_nil]

theorem atomic_step {a : Step Stmt} (hs : s.Sound) (hp : s.Atomic)
    (hstep : step a s = some s') : Handed a s ∧ s'.Atomic ↔ Careful a s := by
  cases a with
  | write =>
      cases hstep
      refine iff_of_true ⟨trivial, ?_⟩ trivial
      split
      · exact hp
      · exact hp
  | acquire block =>
      simp only [step] at hstep
      split at hstep
      · cases hstep
        exact ⟨fun h => h.1.1, fun h => ⟨⟨h, hs.conn h⟩, hp⟩⟩
      · cases hstep
  | giveUp block =>
      cases hstep
      exact iff_of_true ⟨trivial, hp⟩ trivial
  | execute stmt =>
      simp only [step] at hstep
      split at hstep
      · rename_i hholder
        cases hstep
        refine iff_of_true ⟨trivial, ?_⟩ trivial
        split
        · exact atomic_execute hs hp hholder stmt
        · exact hp
      · cases hstep
  | exit =>
      simp only [step] at hstep
      split at hstep
      · rename_i hholder
        split at hstep
        · rename_i hconn
          cases hstep
          exact (and_iff_right trivial).trans (atomic_exit hs hp hconn hholder)
        · cases hstep
      · cases hstep
  | raise rolledBack =>
      simp only [step] at hstep
      split at hstep
      · cases hstep
        refine iff_of_true ⟨trivial, ?_⟩ trivial
        split
        · exact hp
        · exact hp
      · cases hstep
  | cancel =>
      simp only [step] at hstep
      split at hstep
      · cases hstep
        exact iff_of_true ⟨trivial, hp⟩ trivial
      · cases hstep
  | cancelCommit done =>
      simp only [step] at hstep
      split at hstep
      · rename_i hholder
        split at hstep
        · rename_i hconn
          cases done with
          | true =>
              cases hstep
              refine (and_iff_right trivial).trans ((atomic_exit hs hp hconn hholder).trans ?_)
              exact ⟨fun h _ => h, fun h => h rfl⟩
          | false =>
              cases hstep
              exact iff_of_true ⟨trivial, hp⟩ fun h => by cases h
        · cases hstep
      · cases hstep
  | shutdown =>
      cases hstep
      refine iff_of_true ⟨trivial, ?_⟩ trivial
      split
      · exact hp
      · exact hp
  | shutdownCommits call =>
      simp only [step] at hstep
      split at hstep
      · cases hstep
        cases hconn : s.connOpen with
        | true =>
            refine (and_iff_right trivial).trans ((atomic_shutdown hp).trans ?_)
            exact ⟨fun h _ => h, fun h => h hconn⟩
        | false => exact iff_of_true ⟨trivial, hp⟩ fun h => by cases hconn.symm.trans h
      · cases hstep
  | shutdownCloses call =>
      simp only [step] at hstep
      split at hstep
      · cases hstep
        exact iff_of_true ⟨trivial, hp⟩ trivial
      · cases hstep
  | shutdownCancelled call done =>
      simp only [step] at hstep
      split at hstep
      · rename_i hcall
        cases hstep
        split
        · rename_i hdone
          refine (and_iff_right trivial).trans ((atomic_shutdown hp).trans ?_)
          exact ⟨fun h _ => h, fun h => h ⟨hdone.1, hcall, hdone.2⟩⟩
        · rename_i hnot
          exact iff_of_true ⟨trivial, hp⟩ fun h => (hnot ⟨h.1, h.2.2⟩).elim
      · rename_i hcall
        cases hstep
        refine iff_of_true ⟨trivial, hp⟩ fun h => ?_
        cases hcall.symm.trans h.2.1
      · cases hstep

end Steps

-- ===== claim

def orderly : List (Step String) :=
  [.write, .write, .acquire 0, .execute "a", .exit, .acquire 1, .execute "b", .raise true, .shutdown,
    .shutdownCommits 0, .shutdownCloses 0]

def afterOrderly : SQLiteConnectionPool String := (run step orderly {}).getD {}

/-- `delete_session` is cancelled between its two statements; then another
block writes. -/
def halfDeleted : List (Step String) :=
  [.write, .acquire 0, .execute "DELETE FROM conversation_turns", .cancel, .write, .acquire 1,
    .execute "INSERT", .exit]

/-- The contents and then the open transaction are statements that were
executed, each once and in the order of their execution. -/
def InOrder (s : SQLiteConnectionPool Stmt) : Prop :=
  (s.committed ++ s.transaction).Sublist s.executed

/-- A step adds a statement, or keeps, drops or commits the transaction. -/
theorem step_contents {a : Step Stmt} (hstep : step a s = some s') :
    (∃ e, s'.executed = s.executed ++ [e] ∧ s'.transaction = s.transaction ++ [e]
        ∧ s'.committed = s.committed)
      ∨ s'.executed = s.executed
        ∧ (s'.committed = s.committed ∧ (s'.transaction = s.transaction ∨ s'.transaction = [])
          ∨ s'.committed = s.committed ++ s.transaction ∧ s'.transaction = []) := by
  cases a with
  | _ =>
      simp only [step, commit, release] at hstep
      grind

theorem inOrder_step {a : Step Stmt} (h : s.InOrder) (hstep : step a s = some s') :
    s'.InOrder ∧ s.committed <+: s'.committed := by
  unfold InOrder at h ⊢
  rcases step_contents hstep with ⟨e, he, ht, hc⟩ | ⟨he, ⟨hc, ht | ht⟩ | ⟨hc, ht⟩⟩ <;>
    rw [he, hc, ht]
  · rw [← List.append_assoc]
    exact ⟨h.append_right [e], List.prefix_rfl⟩
  · exact ⟨h, List.prefix_rfl⟩
  · rw [List.append_nil]
    exact ⟨(List.sublist_append_left _ _).trans h, List.prefix_rfl⟩
  · rw [List.append_nil]
    exact ⟨h, List.prefix_append _ _⟩

/-- Whatever is cancelled or closed, nothing is committed twice, out of
order or without being executed, and what is committed stays. -/
theorem committed_in_order {steps more : List (Step Stmt)} {s t : SQLiteConnectionPool Stmt}
    (hrun : run step steps {} = some s) (hmore : run step more s = some t) :
    t.InOrder ∧ s.committed <+: t.committed := by
  have hstep : ∀ a (s s' : SQLiteConnectionPool Stmt), s.InOrder → step a s = some s' → s'.InOrder :=
    fun _ _ _ h hstep => (inOrder_step h hstep).1
  have hempty : InOrder ({} : SQLiteConnectionPool Stmt) := List.Sublist.refl []
  have hs := run_preserves hstep hempty hrun
  refine ⟨run_preserves hstep hs hmore, ?_⟩
  exact run_relates (R := fun s t => s.committed <+: t.committed) (fun _ => List.prefix_rfl)
    (fun _ _ _ => List.IsPrefix.trans) hstep (fun _ _ _ h hstep => (inOrder_step h hstep).2) hs hmore

theorem committed_in_order_half : ∃ t, run step halfDeleted {} = some t ∧ t.InOrder := by
  have hrun : ∃ t, run step halfDeleted {} = some t := ⟨_, rfl⟩
  obtain ⟨t, ht⟩ := hrun
  exact ⟨t, ht, (committed_in_order ht (show run step [] t = some t from rfl)).1⟩

end SQLiteConnectionPool

end Velune.Memory
