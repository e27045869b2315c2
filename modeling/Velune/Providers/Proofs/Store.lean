/-
The store over every history of calls in several processes, with crashes
at any point and any behaviour of the key sources.

Each commit is the mutation of its call applied to the table that was
then the store's, and nothing else changes the store: so the commits are
the whole history of the store (`Chained`), and what was saved stays
until a later commit touches its provider. The code breaks this where a
write is built from the backup of a store that does not open at the
moment (`olderRun`), and where it raises after its commit (`lateRun`);
`saved_keys_kept` is the rest.
-/
import Velune.Providers.Proofs.Serving

namespace Velune.Providers

open Lib

-- ===== history

def storeAt (base : Option (Contents Payload)) (commits : List (Commit Payload)) :
    Nat → Option (Contents Payload)
  | 0 => base
  | k + 1 => commits[k]?.map Commit.contents

def Chained (base : Option (Contents Payload)) (s : StoreHost) : Prop :=
  s.files .primary = storeAt base s.commits s.commits.length
    ∧ ∀ k c, s.commits[k]? = some c → c.base = storeAt base s.commits k

def tableAt (base : Option (Contents Payload)) (s : StoreHost) (k : Nat) : Option Table :=
  tableOf (storeAt base s.commits k)

section Chain

variable {base : Option (Contents Payload)} {commits : List (Commit Payload)} {c : Commit Payload}
variable {s s' : StoreHost}

theorem storeAt_append {k : Nat} (h : k ≤ commits.length) :
    storeAt base (commits ++ [c]) k = storeAt base commits k := by
  cases k with
  | zero => rfl
  | succ k => exact congrArg (Option.map Commit.contents) (List.getElem?_append_left h)

theorem storeAt_last : storeAt base (commits ++ [c]) (commits.length + 1) = some c.contents := by
  change (commits ++ [c])[commits.length]?.map Commit.contents = some c.contents
  rw [List.getElem?_append_right (Nat.le_refl _), Nat.sub_self]
  rfl

theorem chained_same (h : Same s s') (hs : Chained base s) : Chained base s' := by
  unfold Chained
  rw [h.1, h.2.2]
  exact hs

theorem chained_puts (h : Puts s s' c) (hs : Chained base s) : Chained base s' := by
  obtain ⟨hbase, hprimary, -, hcommits⟩ := h
  refine ⟨?_, fun k c' hc' => ?_⟩
  · rw [hprimary, hcommits, List.length_append]
    exact storeAt_last.symm
  · rw [hcommits] at hc' ⊢
    have hk := (List.getElem?_eq_some_iff.1 hc').1
    rw [List.length_append, List.length_singleton] at hk
    rw [storeAt_append (Nat.le_of_lt_succ hk)]
    by_cases hlast : k < s.commits.length
    · rw [List.getElem?_append_left hlast] at hc'
      exact hs.2 k c' hc'
    · have hlength : k = s.commits.length := by omega
      subst hlength
      rw [List.getElem?_append_right (Nat.le_refl _), Nat.sub_self] at hc'
      cases hc'
      exact hbase.trans hs.1

end Chain

def storeTerms (base : Option (Contents Payload)) : Terms where
  base := Chained base
  memory _ _ := True
  old _ _ := True
  stamped _ _ _ := True
  committed _ _ _ := True
  base_same _ _ := chained_same
  base_puts _ _ _ := chained_puts
  memory_same _ _ _ _ h := h
  memory_puts _ _ _ _ _ h := h
  old_same _ _ _ _ h := h
  old_puts _ _ _ _ _ h := h
  stamped_same _ _ _ _ _ h := h
  stamped_puts _ _ _ _ _ _ h := h
  committed_same _ _ _ _ _ h := h
  committed_puts _ _ _ _ _ _ _ h := h
  fresh _ := trivial
  dropped _ _ h := h
  old_now _ := trivial
  stamped_now _ _ _ _ _ := trivial
  committed_now _ _ _ _ := trivial
  loaded _ _ _ _ _ _ _ _ := trivial

/-- A commit of this call: one of its mutations, of the table that was
the store's. -/
def Wrote (request : Request) (base : Option (Contents Payload)) (contents : Contents Payload) :
    Prop :=
  ∃ mutate table blob, request.mutates mutate ∧ tableOf base = some table
    ∧ contents = .sealed blob ∧ blob.text = some (mutate table)

-- ===== condition

/-- Calls that read the store as it is, or trust what they read. -/
def Request.bare : Request → Bool
  | .readStore => true
  | .repairKeystore => true
  | _ => false

/-- A step after which the store is still its history: what is read under
the lock is the store, or nothing; a commit is read back; `restrict` does
not fail. -/
def storeOk (mode : Nat → Nat → Mode) (who : Who Pid) (request : Request)
    (op : Op Payload Memory) (c : Choice) (s : StoreHost) : Prop :=
  (s.lock = some who ∨ request.bare = true →
      (mode who.thread (commitCount who s)).Ok who.process op c s
        ∧ ((mode who.thread (commitCount who s)).closes = true →
          commitCount who s = 0 ∧ request.bare = false))
    ∧ (op = .restrict → c.isFailure = false)

section Served

variable {base : Option (Contents Payload)} {mode : Nat → Nat → Mode} {who : Who Pid}
variable {request : Request}

theorem store_load (n : Nat) : Outline (exec who)
    (Keeping (storeTerms base) (Wrote request) who (storeOk mode who request))
    (fun _ => Inside (storeTerms base) who (At who (· = n)))
    (fun _ => Inside (storeTerms base) who (At who (· = n)))
    (Inside (storeTerms base) who (At who (· = n))) ensureCache := by
  have hat : OffMemory (At who (· = n)) := at_offMemory _
  refine Outline.of_uses ensureCache_uses (inside_stable (at_stable _)) fun op hop s c a s' hs _ hx => ?_
  have hdisk : OnDisk (Inside (storeTerms base) who (At who (· = n))) :=
    onDisk_and hat.onDisk (atWork_onDisk fun _ _ _ _ _ h => h)
  have hrest : op.looks ∨ op.crypto → Guar (Wrote request) (storeTerms base).Kept who s s'
      ∧ Inside (storeTerms base) who (At who (· = n)) s' := by
    rintro (hlooks | hcrypto)
    · cases exec_looks hlooks hx
      exact ⟨guar_of_disk kept_onDisk rfl, hs⟩
    · have hsame := exec_crypto_disk hcrypto hx
      exact ⟨guar_of_disk kept_onDisk hsame, hdisk s s' hsame hs⟩
  cases op with
  | own f =>
      obtain ⟨hguar, -, hafter⟩ := own_step (ψ := fun _ => At who (· = n)) (fun _ => hat)
        (hs.2.mono fun _ _ => hs.1) hx
      exact ⟨hguar, hafter.2.2, hafter.1, trivial⟩
  | _ => exact hrest hop

theorem store_write (n : Nat) {mutate : Table → Table} (hm : request.mutates mutate) :
    Write (storeTerms base) (Wrote request) who (storeOk mode who request) n mutate
      (fun table file => tableOf file = some table) False where
  read := by
    have hcount : OnFiles fun s => commitCount who s = n := count_onFiles (· = n)
    refine (shares_read (mode who.thread n) kept_onDisk (holding_stable hcount)
      (holding_onDisk hcount) (holding_table hcount) fun op c s hs hok => ?_).post
      (fun _ _ hs => hs.2) fun _ _ hs => hs.1
    have hmode := (hok.1 (Or.inl hs.1)).1
    rw [hs.2.2] at hmode
    exact hmode
  puts table blob file hread htext := ⟨mutate, table, blob, hm, hread, rfl, htext⟩
  restrict c s hok hfails := by
    cases (hok.2 rfl).symm.trans hfails
  back φ hφ hcount := by
    have hmode : ∀ op c s, Holding (storeTerms base) who φ s → storeOk mode who request op c s →
        (mode who.thread (n + 1)).Ok who.process op c s
          ∧ (mode who.thread (n + 1)).closes ≠ true := by
      intro op c s hs hok
      obtain ⟨hmode, hclosed⟩ := hok.1 (Or.inl hs.1)
      rw [(hcount s hs.2.2).1] at hmode hclosed
      exact ⟨hmode, fun h => Nat.succ_ne_zero n (hclosed h).1⟩
    cases hopen : mode who.thread (n + 1) with
    | via source key =>
        refine (decode_via source key kept_onDisk (holding_stable hφ)
          (holding_onDisk hφ) (holding_table hφ) (fun s hs => (hcount s hs.2.2).2)
          fun op c s hs hok => ?_).post (fun _ _ hs => hs.2) fun _ _ hs => hs.elim
        exact hopen ▸ (hmode op c s hs hok).1
    | closed key =>
        refine unreached (holding_stable hφ) fun c s hs hok => ?_
        have hnever := (hmode _ c s hs hok).2
        rw [hopen] at hnever
        exact hnever rfl

theorem store_served (base : Option (Contents Payload)) (mode : Nat → Nat → Mode) (who : Who Pid)
    (request : Request) : Served (storeTerms base) (Wrote request) who (storeOk mode who request)
      False request where
  load n _ := store_load n
  write n mutate hm := ⟨_, store_write n hm⟩
  stamp _ _ _ _ _ := trivial
  read _ := ((shares_reading readStore_uses (at_stable (· = 0)) (at_offMemory (· = 0)).onDisk).pre
    (stable_and (at_stable _) inv_stable) fun _ hs => hs.1)
  look hrequest := by
    subst hrequest
    have hmode : ∀ op c s, At who (· = 0) s → storeOk mode who .repairKeystore op c s →
        (mode who.thread 0).Ok who.process op c s ∧ (mode who.thread 0).closes ≠ true := by
      intro op c s hat hok
      obtain ⟨hmode, hclosed⟩ := hok.1 (Or.inr rfl)
      rw [hat.1] at hmode hclosed
      exact ⟨hmode, fun h => by cases (hclosed h).2⟩
    cases hopen : (mode who.thread 0).closes with
    | false => exact look_of_mode hopen fun op c s hat hok => (hmode op c s hat hok).1
    | true =>
        refine unreached (stable_and (at_stable _) inv_stable) fun c s hs hok => ?_
        exact (hmode _ c s hs.1 hok).2 hopen

end Served

-- ===== runs

def Keeps (mode : Nat → Nat → Mode) : StoreEvent → StoreWorld → Prop :=
  Machine.Fine (storeOk mode) fun _ _ => True

def storeKeeping (base : Option (Contents Payload)) (mode : Nat → Nat → Mode) :
    Discipline storeMachine :=
  storeDiscipline (storeTerms base) Wrote False (storeOk mode) (store_served base mode)

/-- A call that may change or delete the record of this provider. -/
def Request.touches : Request → PyStr → Prop
  | .saveProvider providerId _ _ _, other => providerId = other
  | .updateStatus providerId _ _ _, other => providerId = other
  | .deleteProvider providerId, other => providerId = other
  | .repairKeystore, _ => True
  | _, _ => False

def AllWrote (w : StoreWorld) : Prop :=
  ∀ c ∈ w.shared.commits, ∃ t, w.threads[c.thread]? = some t ∧ Wrote t.request c.base c.contents

structure StoreKept (s₀ : StoreHost) (es : List StoreEvent) (w : StoreWorld) : Prop where
  /-- The store changes by commits only, each of what was there. -/
  chained : Chained (s₀.files .primary) w.shared
  /-- A commit is its call's own mutation of the table before it. -/
  wrote : AllWrote w
  /-- A call that returned has committed as often as it should. -/
  returned : ∀ n (t : StoreThread) r, w.threads[n]? = some t → t.code = some (.ret r) →
    t.request.done (commitCount ⟨n, t.owner⟩ w.shared)
  /-- A write that raised has not committed. -/
  raised : ∀ n (t : StoreThread) e, w.threads[n]? = some t → t.code = some (.raise e) →
    t.request = .repairKeystore ∨ commitCount ⟨n, t.owner⟩ w.shared = 0
  /-- A read returns the table of the store at some moment since it began. -/
  read : ∀ before i during w₁, es = before ++ .begin i .readStore :: during →
    run storeMachine.step before ⟨s₀, []⟩ = some w₁ →
    ∀ (t : StoreThread) table, w.threads[w₁.threads.length]? = some t → t.code = some (.ret (.table table)) →
      ∃ k, w₁.shared.commits.length ≤ k ∧ k ≤ w.shared.commits.length
        ∧ tableAt (s₀.files .primary) w.shared k = some table
  /-- A record that was saved is read until a later commit touches its
  provider. -/
  saved : ∀ before i during w₁, es = before ++ .begin i .readStore :: during →
    run storeMachine.step before ⟨s₀, []⟩ = some w₁ →
    ∀ n (t : StoreThread) r providerId key status now, w₁.threads[n]? = some t →
      t.request = .saveProvider providerId key status now → t.code = some (.ret r) →
    ∀ (u : StoreThread) table, w.threads[w₁.threads.length]? = some u → u.code = some (.ret (.table table)) →
      ∃ (k : Nat) (c : Commit Payload), w₁.shared.commits[k]? = some c ∧ c.thread = n
        ∧ ((∀ (j : Nat) (c' : Commit Payload) (t' : StoreThread), k < j → w.shared.commits[j]? = some c' → w.threads[c'.thread]? = some t' →
            ¬ t'.request.touches providerId) →
          table.get? providerId = some (savedRecord key status now))

section Runs

variable {base : Option (Contents Payload)} {mode : Nat → Nat → Mode} {es : List StoreEvent}
variable {w w' : StoreWorld}

theorem run_commits (hinv : (storeKeeping base mode).Inv w) (hwrote : AllWrote w)
    (hkeeps : Meets storeMachine.step (Keeps mode) es w)
    (hrun : run storeMachine.step es w = some w') :
    AllWrote w' ∧ w.shared.commits <+: w'.shared.commits := by
  refine (run_preserves_of (P := fun v => (storeKeeping base mode).Inv v ∧ AllWrote v
    ∧ w.shared.commits <+: v.shared.commits) ?_ hkeeps ⟨hinv, hwrote, List.prefix_rfl⟩ hrun).2
  rintro e v v' hfine ⟨hv, hwrote, hfront⟩ hstep
  have hstill : ∀ (c : Commit Payload) (t : StoreThread), v.threads[c.thread]? = some t →
      Wrote t.request c.base c.contents → ∃ t, v'.threads[c.thread]? = some t
        ∧ Wrote t.request c.base c.contents := by
    intro c t ht hw
    obtain ⟨t', ht', -, hrequest⟩ := Machine.step_thread hstep ht
    exact ⟨t', ht', hrequest.symm ▸ hw⟩
  have hsame : v'.shared.commits = v.shared.commits → AllWrote v'
      ∧ w.shared.commits <+: v'.shared.commits := by
    intro heq
    refine ⟨fun c hc => ?_, heq ▸ hfront⟩
    obtain ⟨t, ht, hw⟩ := hwrote c (heq ▸ hc)
    exact hstill c t ht hw
  refine ⟨hv.step hfine hstep, ?_⟩
  rcases hv.change hfine hstep with heq | ⟨n, t, -, -, ht, hguar⟩ | ⟨i, -, heq⟩ | ⟨x, -, hx⟩
  · exact hsame (congrArg Host.commits heq)
  · rcases Guar.store hguar with h | ⟨contents, hW, -, -, -, hcommits⟩
    · exact hsame h.2.2
    · refine ⟨fun c hc => ?_, hcommits ▸ hfront.trans (List.prefix_append _ _)⟩
      rw [hcommits] at hc
      rcases List.mem_append.1 hc with hold | hnew
      · obtain ⟨u, hu, hw⟩ := hwrote c hold
        exact hstill c u hu hw
      · cases List.mem_singleton.1 hnew
        exact hstill _ t ht hW
  · exact hsame ((congrArg Host.commits heq).trans rfl)
  · have heq : v.shared.change x = v'.shared := Option.some.inj hx
    refine hsame ?_
    rw [← heq]
    cases x <;> rfl

theorem wrote_untouched {request : Request} {file : Option (Contents Payload)}
    {contents : Contents Payload} {providerId : PyStr} (hw : Wrote request file contents)
    (h : ¬ request.touches providerId) : ∃ table table', tableOf file = some table
      ∧ contents.table? = some table' ∧ table'.get? providerId = table.get? providerId := by
  obtain ⟨mutate, table, blob, hm, htable, rfl, htext⟩ := hw
  refine ⟨table, mutate table, htable, htext, ?_⟩
  cases request with
  | saveProvider other key status now =>
      cases hm
      exact Assoc.get?_set_of_ne _ _ fun heq => h heq.symm
  | updateStatus other status now extra =>
      cases hm
      unfold applyStatus
      split
      · rfl
      · exact Assoc.get?_set_of_ne _ _ fun heq => h heq.symm
  | deleteProvider other =>
      cases hm
      exact Assoc.get?_pop_of_ne _ fun heq => h heq.symm
  | repairKeystore => exact absurd trivial h
  | _ => exact hm.elim

/-- What is in the table after a commit stays through commits that do not
touch it. -/
theorem untouched_stays (hchained : Chained base w.shared) (hwrote : AllWrote w) {providerId : PyStr}
    {record : Record} {k : Nat} {table : Table} (hk : tableAt base w.shared k = some table)
    (hrecord : table.get? providerId = some record) :
    ∀ d, k + d ≤ w.shared.commits.length →
      (∀ (j : Nat) (c : Commit Payload) (t : StoreThread), k ≤ j → w.shared.commits[j]? = some c → w.threads[c.thread]? = some t →
        ¬ t.request.touches providerId) →
      ∃ table', tableAt base w.shared (k + d) = some table' ∧ table'.get? providerId = some record
  | 0, _, _ => ⟨table, hk, hrecord⟩
  | d + 1, hle, huntouched => by
      obtain ⟨before, hbefore, hbeforeRecord⟩ := untouched_stays hchained hwrote hk hrecord d
        (by omega) huntouched
      have hlt : k + d < w.shared.commits.length := by omega
      have hc := List.getElem?_eq_getElem hlt
      obtain ⟨t, ht, hw⟩ := hwrote _ (List.getElem_mem hlt)
      obtain ⟨file, after, hfile, hafter, hsame⟩ := wrote_untouched hw
        (huntouched _ _ t (Nat.le_add_right _ _) hc ht)
      rw [hchained.2 _ _ hc] at hfile
      cases hfile.symm.trans hbefore
      refine ⟨after, ?_, hsame.trans hbeforeRecord⟩
      have hnext : storeAt base w.shared.commits (k + d + 1)
          = some (w.shared.commits[k + d]).contents := by
        change w.shared.commits[k + d]?.map Commit.contents = _
        rw [hc]
        rfl
      change tableOf (storeAt base w.shared.commits (k + d + 1)) = some after
      rw [hnext]
      exact hafter

/-- The table of the store at some moment from the `k₀`-th commit on. -/
def SeenAfter (base : Option (Contents Payload)) (k₀ : Nat) (table : Table) (s : StoreHost) : Prop :=
  ∃ k, k₀ ≤ k ∧ k ≤ s.commits.length ∧ tableAt base s k = some table

variable (mode) in
theorem read_seen {who : Who Pid} (k₀ : Nat) :
    Outline (exec who) (Keeping (storeTerms base) (fun _ _ => False) who (storeOk mode who .readStore))
      (fun r s => ∀ table, r = Reply.table table → SeenAfter base k₀ table s) (fun _ _ => True)
      (fun s => (At who (· = 0) s ∧ k₀ ≤ s.commits.length) ∧ (storeTerms base).Kept s)
      (Request.program .readStore) := by
  let P (s : StoreHost) : Prop :=
    (At who (· = 0) s ∧ k₀ ≤ s.commits.length) ∧ (storeTerms base).Kept s
  have hgrows : (Keeping (storeTerms base) (fun _ _ => False) who (storeOk mode who .readStore)).Stable
      fun s => k₀ ≤ s.commits.length := by
    intro s s' hr hs
    rcases hr.store with h | ⟨c, -, h⟩
    · rw [h.2.2]
      exact hs
    · rw [h.2.2.2, List.length_append]
      exact Nat.le_add_right_of_le hs
  have hP : (Keeping (storeTerms base) (fun _ _ => False) who (storeOk mode who .readStore)).Stable P :=
    stable_and (stable_and (at_stable _) hgrows) inv_stable
  have hPdisk : OnDisk P := onDisk_and (onDisk_and (at_offMemory _).onDisk fun s s' h hs => by
    rw [(disk_fields h).2.2.2.2.2]
    exact hs) kept_onDisk
  have hseen : ∀ table, (Keeping (storeTerms base) (fun _ _ => False) who
      (storeOk mode who .readStore)).Stable (SeenAfter base k₀ table) := by
    rintro table s s' hr ⟨k, hk₀, hk, htable⟩
    rcases hr.store with h | ⟨c, -, h⟩
    · refine ⟨k, hk₀, h.2.2.symm ▸ hk, ?_⟩
      unfold tableAt
      rw [h.2.2]
      exact htable
    · refine ⟨k, hk₀, ?_, ?_⟩
      · rw [h.2.2.2, List.length_append]
        exact Nat.le_add_right_of_le hk
      · unfold tableAt
        rw [h.2.2.2, storeAt_append hk]
        exact htable
  have hA : Seen (fun _ _ => False) (storeTerms base).Kept who (storeOk mode who .readStore) P
      (SeenAfter base k₀) := by
    refine ⟨hseen, fun table s s' h hs => ?_, fun s table hs ht => ?_⟩
    · unfold SeenAfter tableAt
      rw [(disk_fields h).2.2.2.2.2]
      exact hs
    · refine ⟨s.commits.length, hs.1.2, Nat.le_refl _, ?_⟩
      unfold tableAt
      rw [← hs.2.1.1]
      exact ht
  refine Outline.bind ((shares_read (mode who.thread 0) kept_onDisk hP hPdisk hA
    fun op c s hs hok => ?_).post (fun _ _ hs => hs) fun _ _ _ => trivial) fun r => ?_
  · have hmode := (hok.1 (Or.inr rfl)).1
    rw [hs.1.1.1] at hmode
    exact hmode
  · refine Outline.pure (stable_and hP (hseen r.1)) fun s hs table heq => ?_
    cases heq
    exact hs.2

end Runs

/-- Nothing that was saved is lost, in every run in which a write reads
the store or nothing, reads back what it committed, and can restrict
it. -/
theorem saved_keys_kept (mode : Nat → Nat → Mode) (s₀ : StoreHost) (hs₀ : Idle s₀)
    (es : List StoreEvent) (w : StoreWorld)
    (hkeeps : Meets storeMachine.step (Keeps mode) es ⟨s₀, []⟩)
    (hrun : run storeMachine.step es ⟨s₀, []⟩ = some w) : StoreKept s₀ es w := by
  have hstart : (storeKeeping (s₀.files .primary) mode).Inv ⟨s₀, []⟩ := by
    have hbase : Chained (s₀.files .primary) s₀ := by
      refine ⟨?_, fun k c hc => ?_⟩
      · rw [hs₀.commits]
        rfl
      · rw [hs₀.commits] at hc
        cases hc
    exact Discipline.inv_start fun who => idle_start hs₀ hbase who
  have hnothing : AllWrote ⟨s₀, []⟩ := by
    intro c hc
    have hcommits : s₀.commits = [] := hs₀.commits
    rw [hcommits] at hc
    cases hc
  have hend : ∀ (es : List StoreEvent) (w : StoreWorld),
      Meets storeMachine.step (Keeps mode) es ⟨s₀, []⟩ →
      run storeMachine.step es ⟨s₀, []⟩ = some w →
      (storeKeeping (s₀.files .primary) mode).Inv w ∧ AllWrote w := fun es w hkeeps hrun =>
    ⟨Discipline.kept hkeeps hstart hrun, (run_commits hstart hnothing hkeeps hrun).1⟩
  obtain ⟨hinv, hwrote⟩ := hend es w hkeeps hrun
  have hchained : Chained (s₀.files .primary) w.shared :=
    (hinv.idle ⟨w.threads.length, 0⟩ (Nat.le_refl _)).2.1
  have hreturned : ∀ (es : List StoreEvent) (w : StoreWorld),
      (storeKeeping (s₀.files .primary) mode).Inv w → ∀ n (t : StoreThread) r,
      w.threads[n]? = some t → t.code = some (.ret r) →
      t.request.done (commitCount ⟨n, t.owner⟩ w.shared) :=
    fun es w hinv n t r ht hcode => ((hinv.begun n t ht).returned hcode).1
  have hread : ∀ before i during w₁, es = before ++ .begin i .readStore :: during →
      run storeMachine.step before ⟨s₀, []⟩ = some w₁ →
      ∀ (t : StoreThread) table, w.threads[w₁.threads.length]? = some t →
        t.code = some (.ret (.table table)) →
        SeenAfter (s₀.files .primary) w₁.shared.commits.length table w.shared := by
    intro before i during w₁ hes hbefore t table ht hcode
    subst hes
    obtain ⟨hinv₁, -⟩ := hend before w₁ (meets_take hkeeps) hbefore
    have hfine := meets_drop hkeeps hbefore
    have hidle := hinv₁.idle ⟨w₁.threads.length, i⟩ (Nat.le_refl _)
    have hfollows := Discipline.call_ends (d := storeKeeping (s₀.files .primary) mode)
      (C := fun _ _ => True) rfl hinv₁ (hfine.and (meets_of_forall _ fun _ _ _ => trivial))
      (run_drop hrun hbefore) (read_seen mode w₁.shared.commits.length)
      ⟨⟨hidle.1, Nat.le_refl _⟩, hidle.2⟩ (fun c v u op rest _ _ _ _ _ hok => hok)
      (fun _ _ h => h) t ht
    exact hfollows.returned hcode table rfl
  refine ⟨hchained, hwrote, hreturned es w hinv, fun n t e ht hcode => ?_, hread, ?_⟩
  · rcases ((hinv.begun n t ht).raised hcode).1 with hrepair | hnone | hlate
    · exact Or.inl hrepair
    · exact Or.inr hnone
    · exact hlate.elim
  · intro before i during w₁ hes hbefore n t r providerId key status now ht hrequest hcode u table
      hu hucode
    obtain ⟨k', hfirst, hlast, htable⟩ := hread before i during w₁ hes hbefore u table hu hucode
    subst hes
    obtain ⟨hinv₁, hwrote₁⟩ := hend before w₁ (meets_take hkeeps) hbefore
    have hfront := (run_commits hinv₁ hwrote₁ (meets_drop hkeeps hbefore)
      (run_drop hrun hbefore)).2
    -- the save has committed, and its commit is still there
    have hone := hreturned before w₁ hinv₁ n t r ht hcode
    rw [hrequest] at hone
    obtain ⟨c, hc⟩ := List.exists_mem_of_length_pos (Nat.lt_of_lt_of_eq Nat.zero_lt_one hone.symm)
    obtain ⟨hmem, hmine⟩ := List.mem_filter.1 hc
    obtain ⟨k, hk⟩ := List.mem_iff_getElem?.1 hmem
    have hthread : c.thread = n := of_decide_eq_true hmine
    refine ⟨k, c, hk, hthread, fun huntouched => ?_⟩
    have hklt := (List.getElem?_eq_some_iff.1 hk).1
    have hck : w.shared.commits[k]? = some c := by
      obtain ⟨rest, hrest⟩ := hfront
      rw [← hrest, List.getElem?_append_left hklt]
      exact hk
    obtain ⟨u', hu', hw⟩ := hwrote c (List.mem_of_getElem? hck)
    obtain ⟨v, hv, -, hvrequest⟩ := Machine.run_thread (run_drop hrun hbefore) ht
    rw [hthread] at hu'
    cases Option.some.inj (hv.symm.trans hu')
    rw [hvrequest, hrequest] at hw
    obtain ⟨mutate, file, blob, hm, -, hcontents, htext⟩ := hw
    cases hm
    have hnext : tableAt (s₀.files .primary) w.shared (k + 1)
        = some (applySave providerId (savedRecord key status now) file) := by
      have hstore : storeAt (s₀.files .primary) w.shared.commits (k + 1) = some c.contents := by
        change w.shared.commits[k]?.map Commit.contents = _
        rw [hck]
        rfl
      unfold tableAt
      rw [hstore, hcontents]
      exact htext
    obtain ⟨d, rfl⟩ := Nat.exists_eq_add_of_le (Nat.le_trans hklt hfirst)
    obtain ⟨table', htable', hrecord⟩ := untouched_stays hchained hwrote hnext
      (Assoc.get?_set_self _ _ _) d hlast
      fun j c' t' hj => huntouched j c' t' hj
    cases htable.symm.trans htable'
    exact hrecord

-- ===== tests

instance : (op : Op Payload Memory) → Decidable (op = .restrict)
  | .restrict => isTrue rfl
  | .getPassword _ | .generateKey | .setPassword _ | .environ | .readPassphrase | .emptyPassphrase
  | .writePassphrase _ | .prompt | .encrypt _ _ | .fileExists _ | .size _ | .readBytes _
  | .truncate _ | .writeBytes _ _ | .copy _ _ | .setAside | .rename | .quarantine | .stamp _
  | .unlink _ | .acquire | .release | .enter | .leave | .own _ | .monotonic => isFalse (by simp)

instance (mode : Nat → Nat → Mode) (who : Who Pid) (request : Request) (op : Op Payload Memory)
    (c : Choice) (s : StoreHost) : Decidable (storeOk mode who request op c s) :=
  inferInstanceAs (Decidable ((_ ∨ _ → Mode.Ok _ _ _ _ _ ∧ (_ → _)) ∧ (_ → _)))

def readRun : List StoreEvent :=
  .begin 0 (save "b") :: advances 0 24 ++ .begin 1 .readStore :: advances 1 3

theorem readRun_kept : ∃ w, run storeMachine.step readRun ⟨storeHost true (some savedStore) none, []⟩
    = some w ∧ StoreKept (storeHost true (some savedStore) none) readRun w := by
  have hsome : (run storeMachine.step readRun ⟨storeHost true (some savedStore) none, []⟩).isSome
      = true := by decide +kernel
  obtain ⟨w, hw⟩ := Option.isSome_iff_exists.1 hsome
  have hkeeps : Meets storeMachine.step (Keeps fun _ _ => .via .keyring (.random 0)) readRun
      ⟨storeHost true (some savedStore) none, []⟩ := by
    unfold Keeps
    decide +kernel
  exact ⟨w, hw, saved_keys_kept _ _ (storeHost_idle _ _ _) readRun w hkeeps hw⟩

def olderRun : List StoreEvent := .begin 0 (save "b") :: advances 0 47

def lateRun : List StoreEvent :=
  .begin 0 (save "b") :: advances 0 13 ++ .step 0 .fails :: advances 0 3

def Request.saved? : Request → Option (PyStr × PyStr × PyStr × PyStr)
  | .saveProvider providerId key status now => some (providerId, key, status, now)
  | _ => none

theorem Request.saved?_eq {request : Request} {providerId key status now : PyStr}
    (h : request.saved? = some (providerId, key, status, now)) :
    request = .saveProvider providerId key status now := by
  cases request with
  | saveProvider p k s n =>
      cases h
      rfl
  | _ => cases h

/-- The first commit of a run is not its call's mutation of what was
there. -/
theorem misbuilt {s₀ : StoreHost} {es : List StoreEvent} (before after : Table)
    (h : (run storeMachine.step es ⟨s₀, []⟩).map (fun w =>
      (w.shared.commits.head?.map fun c => (c.thread, tableOf c.base, c.contents.table?),
        w.threads[0]?.map fun t => decide (t.request.saved? = (save "b").saved?)))
      = some (some (0, some before, some after), some true))
    (hne : after ≠ applySave "b".toList (savedRecord "k".toList "unverified".toList "now".toList) before) :
    ¬ ∀ w, run storeMachine.step es ⟨s₀, []⟩ = some w → StoreKept s₀ es w := by
  intro hkept
  obtain ⟨w, hw, hpair⟩ := Option.map_eq_some_iff.1 h
  obtain ⟨hcommit, hrequest⟩ := Prod.mk.inj hpair
  obtain ⟨c, hc, htriple⟩ := Option.map_eq_some_iff.1 hcommit
  obtain ⟨hthread, htables⟩ := Prod.mk.inj htriple
  obtain ⟨hbase, hcontents⟩ := Prod.mk.inj htables
  obtain ⟨t, ht, hsave⟩ := Option.map_eq_some_iff.1 hrequest
  obtain ⟨u, hu, mutate, table, blob, hm, htable, hblob, htext⟩ :=
    (hkept w hw).wrote c (List.mem_of_mem_head? hc)
  rw [hthread] at hu
  cases ht.symm.trans hu
  rw [Request.saved?_eq (of_decide_eq_true hsave)] at hm
  cases hm
  cases htable.symm.trans hbase
  rw [hblob] at hcontents
  exact hne (Option.some.inj (hcontents.symm.trans htext))

theorem raised_late {s₀ : StoreHost} {es : List StoreEvent}
    (h : (run storeMachine.step es ⟨s₀, []⟩).bind (fun w => w.threads[0]?.map fun t =>
      (decide (t.request.saved? = (save "b").saved?), commitCount ⟨0, t.owner⟩ w.shared,
        t.code.map fun p => (p.isOver, p.returned?.isSome)))
      = some (true, 1, some (true, false))) :
    ¬ ∀ w, run storeMachine.step es ⟨s₀, []⟩ = some w → StoreKept s₀ es w := by
  intro hkept
  obtain ⟨w, hw, hthread⟩ := Option.bind_eq_some_iff.1 h
  obtain ⟨t, ht, htriple⟩ := Option.map_eq_some_iff.1 hthread
  obtain ⟨hrequest, hrest⟩ := Prod.mk.inj htriple
  obtain ⟨hcount, hcode⟩ := Prod.mk.inj hrest
  obtain ⟨p, hp, hover⟩ := Option.map_eq_some_iff.1 hcode
  cases p with
  | ret r => cases hover
  | call op rest => cases hover
  | raise e =>
      rcases (hkept w hw).raised 0 t e ht hp with hrepair | hnone
      · cases (Request.saved?_eq (of_decide_eq_true hrequest)).symm.trans hrepair
      · cases hcount.symm.trans hnone

/-- Both happen: a store that does not open is replaced by one built from
its backup, and a save that raised is committed. -/
theorem store_replaced :
    (¬ ∀ w, run storeMachine.step olderRun ⟨lockedHost, []⟩ = some w →
        StoreKept lockedHost olderRun w)
      ∧ ¬ ∀ w, run storeMachine.step lateRun ⟨storeHost true (some savedStore) none, []⟩ = some w →
        StoreKept (storeHost true (some savedStore) none) lateRun w := by
  refine ⟨misbuilt savedTable
    [("b".toList, savedRecord "k".toList "unverified".toList "now".toList)] ?_ (by decide +kernel),
    raised_late ?_⟩
  · decide +kernel
  · decide +kernel

end Velune.Providers
