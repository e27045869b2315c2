/-
When the wrapper keeps what it promises: each call yields the chunks of
one inner call, retries only what it may and as often as it may, no more
inner calls run than may, and a call that is over has none left running.

The first two hold of every call in every run (`Call.Good`). The semaphore
counts the calls inside the gate (`Booked`), so the third follows while an
inner call runs only inside its call's stay there. One step breaks that:
a generator closed between two chunks gives its permit back and leaves
its inner generator running (`Call.Sound`, `promised_iff_sound`). The
bounds themselves have to admit an attempt, since one is made anyway.
-/
import Velune.Providers.Retrying

namespace Velune.Providers.Retrying

open Lib

variable {χ ρ ε : Type} {cfg : Settings ε}

-- ===== the promises

def Settings.worthRetrying (cfg : Settings ε) (kind : Kind) : Status ρ ε → Bool
  | .timedOut => kind = .stream
  | .raised e => !cfg.isCancelled e && (cfg.isRetryable e || (kind = .stream && cfg.isTimeout e))
  | _ => false

def Attempt.Spent (cfg : Settings ε) (kind : Kind) (a : Attempt χ ρ ε) : Prop :=
  a.chunks = [] ∧ cfg.worthRetrying kind a.status = true

def Call.isOver (c : Call χ ρ ε) : Bool :=
  match c.phase with
  | .done _ => true
  | _ => false

def Call.Closed (c : Call χ ρ ε) : Prop :=
  c.isOver = true → ∀ a ∈ c.attempts, a.isRunning = false

structure Call.Faithful (cfg : Settings ε) (c : Call χ ρ ε) : Prop where
  single : c.yielded = (c.attempts.head?.map Attempt.chunks).getD []
  retried : ∀ a ∈ c.attempts.tail, a.Spent cfg c.kind
  bounded : c.attempts.length ≤ cfg.maxAttempts.toNat
  closed : c.Closed

structure Sys.Promised (cfg : Settings ε) (s : Sys χ ρ ε) : Prop where
  faithful : ∀ c ∈ s.calls, c.Faithful cfg
  limited : s.running ≤ cfg.maxConcurrent.toNat

/-- A call is let in only where an attempt is allowed at all, and closed
only where it has no inner generator open. -/
def Call.Sound (cfg : Settings ε) (c : Call χ ρ ε) : Move χ ρ ε → Prop
  | .acquire => cfg.admits c.kind = true → 1 ≤ cfg.maxAttempts ∧ 1 ≤ cfg.maxConcurrent
  | .close => c.phase ≠ .suspended
  | _ => True

def Sys.Sound (cfg : Settings ε) : Action χ ρ ε → Sys χ ρ ε → Prop
  | .spawn _, _ => True
  | .move i move, s => ∀ c, s.calls[i]? = some c → c.Sound cfg move

theorem Attempt.Spent.not_running {a : Attempt χ ρ ε} {kind : Kind} (h : a.Spent cfg kind) :
    a.isRunning = false := by
  obtain ⟨-, hworth⟩ := h
  unfold Attempt.isRunning
  split
  next hstatus =>
      rw [hstatus] at hworth
      cases hworth
  next => rfl

-- ===== what a step does

inductive Call.Stepped (cfg : Settings ε) (c : Call χ ρ ε) :
    Move χ ρ ε → Gate → Call χ ρ ε → Prop
  | started (h : c.phase = .created) : Stepped cfg c .start .keep (c.enter .waiting)
  | admitted (h : c.phase = .waiting) (hadmits : cfg.admits c.kind = true) :
      Stepped cfg c .acquire .take (c.begin 1)
  | asserted (h : c.phase = .waiting) (hadmits : cfg.admits c.kind = false) :
      Stepped cfg c .acquire .pass (c.enter (.done .asserted))
  | delivered (outcome : Outcome χ ρ ε) (chunk : χ)
      (h : (∃ n, c.phase = .trying n) ∨ c.phase = .pulling) :
      Stepped cfg c (.outcome outcome) .keep (c.deliver chunk)
  | finished (outcome : Outcome χ ρ ε) (status : Status ρ ε) (result : Result ρ ε)
      (h : (∃ n, c.phase = .trying n) ∨ c.phase = .pulling)
      (hstatus : ∀ chunks : List χ, Attempt.isRunning { chunks := chunks, status := status } = false) :
      Stepped cfg c (.outcome outcome) .give ((c.settle status).enter (.done result))
  | failed (outcome : Outcome χ ρ ε) (status : Status ρ ε) (n : Nat) (h : c.phase = .trying n)
      (hmore : n < cfg.maxAttempts) (hworth : cfg.worthRetrying c.kind status = true) :
      Stepped cfg c (.outcome outcome) .keep ((c.settle status).enter (.backoff n))
  | woken (n : Nat) (h : c.phase = .backoff n) : Stepped cfg c .wake .keep (c.begin (n + 1))
  | pulled (h : c.phase = .suspended) : Stepped cfg c .next .keep (c.enter .pulling)
  | unused (h : c.phase = .created) : Stepped cfg c .close .keep (c.enter (.done .closed))
  | abandoned (h : c.phase = .suspended) : Stepped cfg c .close .give (c.enter (.done .closed))
  | cancelled (h : c.phase = .created ∨ c.phase = .waiting) :
      Stepped cfg c .cancel .keep (c.enter (.done .cancelled))
  | awoken (n : Nat) (h : c.phase = .backoff n) :
      Stepped cfg c .cancel .give (c.enter (.done .cancelled))
  | collected (result : Result ρ ε) (h : c.phase = .done result) :
      Stepped cfg c .collect .keep (c.settle .closed)

namespace Call

variable {c c' : Call χ ρ ε} {move : Move χ ρ ε} {gate : Gate}
variable {outcome : Outcome χ ρ ε}

theorem stepped_again {n : Nat} {status : Status ρ ε} {result : Result ρ ε}
    (h : c.phase = .trying n) (hworth : cfg.worthRetrying c.kind status = true)
    (hstatus : ∀ chunks : List χ, Attempt.isRunning { chunks := chunks, status := status } = false)
    (hstep : (c.settle status).again cfg n result = (gate, c')) :
    c.Stepped cfg (.outcome outcome) gate c' := by
  unfold again at hstep
  split at hstep
  next =>
      cases hstep
      exact .finished outcome status result (.inl ⟨n, h⟩) hstatus
  next hmore =>
      cases hstep
      exact .failed outcome status n h (by omega) hworth

theorem stepped_first {n : Nat} (h : c.phase = .trying n)
    (hkind : c.kind = .stream) (hstep : c.first cfg n outcome = some (gate, c')) :
    c.Stepped cfg (.outcome outcome) gate c' := by
  cases outcome with
  | chunk chunk =>
      cases hstep
      exact .delivered _ chunk (.inl ⟨n, h⟩)
  | ended =>
      cases hstep
      exact .finished _ .ended .returned (.inl ⟨n, h⟩) fun _ => rfl
  | answered reply => cases hstep
  | raised e =>
      have hstep := Option.some.inj hstep
      split at hstep
      next =>
          cases hstep
          exact .finished _ (.raised e) (.raised e) (.inl ⟨n, h⟩) fun _ => rfl
      next hcancel =>
          split at hstep
          next htime =>
              refine stepped_again h ?_ (fun _ => rfl) hstep
              simp [Settings.worthRetrying, hcancel, htime, hkind]
          next =>
              split at hstep
              next hretry =>
                  refine stepped_again h ?_ (fun _ => rfl) hstep
                  simp [Settings.worthRetrying, hcancel, hretry]
              next =>
                  cases hstep
                  exact .finished _ (.raised e) (.raised e) (.inl ⟨n, h⟩) fun _ => rfl
  | timedOut =>
      refine stepped_again h ?_ (fun _ => rfl) (Option.some.inj hstep)
      simp [Settings.worthRetrying, hkind]

theorem stepped_reply {n : Nat} (h : c.phase = .trying n)
    (hstep : c.reply cfg n outcome = some (gate, c')) :
    c.Stepped cfg (.outcome outcome) gate c' := by
  cases outcome with
  | answered reply =>
      cases hstep
      exact .finished _ (.answered reply) (.answered reply) (.inl ⟨n, h⟩) fun _ => rfl
  | raised e =>
      have hstep := Option.some.inj hstep
      split at hstep
      next =>
          cases hstep
          exact .finished _ (.raised e) (.raised e) (.inl ⟨n, h⟩) fun _ => rfl
      next hcancel =>
          split at hstep
          next hretry =>
              refine stepped_again h ?_ (fun _ => rfl) hstep
              simp [Settings.worthRetrying, hcancel, hretry]
          next =>
              cases hstep
              exact .finished _ (.raised e) (.raised e) (.inl ⟨n, h⟩) fun _ => rfl
  | chunk chunk => cases hstep
  | ended => cases hstep
  | timedOut => cases hstep

theorem stepped_rest (h : c.phase = .pulling)
    (hstep : c.rest outcome = some (gate, c')) : c.Stepped cfg (.outcome outcome) gate c' := by
  cases outcome with
  | chunk chunk =>
      cases hstep
      exact .delivered _ chunk (.inr h)
  | ended =>
      cases hstep
      exact .finished _ .ended .returned (.inr h) fun _ => rfl
  | raised e =>
      cases hstep
      exact .finished _ (.raised e) (.raised e) (.inr h) fun _ => rfl
  | answered reply => cases hstep
  | timedOut => cases hstep

theorem stepped_of_step (hstep : c.step cfg move = some (gate, c')) :
    c.Stepped cfg move gate c' := by
  cases move with
  | start =>
      simp only [step] at hstep
      split at hstep
      next h =>
          cases hstep
          exact .started h
      next => cases hstep
  | acquire =>
      simp only [step] at hstep
      split at hstep
      next h =>
          split at hstep
          next hadmits =>
              cases hstep
              exact .admitted h hadmits
          next hadmits =>
              cases hstep
              exact .asserted h (Bool.eq_false_iff.2 hadmits)
      next => cases hstep
  | outcome outcome =>
      simp only [step] at hstep
      split at hstep
      next n h hkind => exact stepped_first h hkind hstep
      next n h hkind => exact stepped_reply h hstep
      next h => exact stepped_rest h hstep
      next => cases hstep
  | wake =>
      simp only [step] at hstep
      split at hstep
      next n h =>
          cases hstep
          exact .woken n h
      next => cases hstep
  | next =>
      simp only [step] at hstep
      split at hstep
      next h =>
          cases hstep
          exact .pulled h
      next => cases hstep
  | close =>
      simp only [step] at hstep
      split at hstep
      next h =>
          cases hstep
          exact .unused h
      next h =>
          cases hstep
          exact .abandoned h
      next => cases hstep
  | cancel =>
      simp only [step] at hstep
      split at hstep
      next h =>
          cases hstep
          exact .cancelled (.inl h)
      next h =>
          cases hstep
          exact .cancelled (.inr h)
      next n h =>
          cases hstep
          exact .awoken n h
      next => cases hstep
  | collect =>
      simp only [step] at hstep
      split at hstep
      next result a earlier h hattempts =>
          split at hstep
          next =>
              cases hstep
              exact .collected result h
          next => cases hstep
      next => cases hstep

-- ===== a good call

def Placed (cfg : Settings ε) (c : Call χ ρ ε) : Prop :=
  match c.phase with
  | .created => c.attempts = []
  | .waiting => c.attempts = []
  | .trying n => n = c.attempts.length ∧ c.attempts.head? = some {}
  | .backoff n =>
      0 < n ∧ n = c.attempts.length ∧ n < cfg.maxAttempts ∧ ∀ a ∈ c.attempts, a.Spent cfg c.kind
  | .suspended => ∃ a earlier, c.attempts = a :: earlier ∧ a.isRunning = true
  | .pulling => ∃ a earlier, c.attempts = a :: earlier ∧ a.isRunning = true
  | .done _ => True

/-- What every step keeps of a call, where no call was let in that no
attempt was allowed. -/
structure Good (cfg : Settings ε) (c : Call χ ρ ε) : Prop where
  single : c.yielded = (c.attempts.head?.map Attempt.chunks).getD []
  retried : ∀ a ∈ c.attempts.tail, a.Spent cfg c.kind
  bounded : (c.attempts.length : Int) ≤ max 1 cfg.maxAttempts
  allowed : c.attempts ≠ [] → 1 ≤ cfg.maxAttempts ∧ 1 ≤ cfg.maxConcurrent
  placed : c.Placed cfg

namespace Good

theorem enter (h : c.Good cfg) {phase : Phase ρ ε} (hplaced : (c.enter phase).Placed cfg) :
    (c.enter phase).Good cfg :=
  { h with placed := hplaced }

theorem begin (h : c.Good cfg) {n : Nat} (hn : n = c.attempts.length + 1)
    (hspent : ∀ a ∈ c.attempts, a.Spent cfg c.kind) (hmax : (n : Int) ≤ max 1 cfg.maxAttempts)
    (hallowed : 1 ≤ cfg.maxAttempts ∧ 1 ≤ cfg.maxConcurrent) : (c.begin n).Good cfg where
  single := by
    show c.yielded = []
    rw [h.single]
    cases hattempts : c.attempts with
    | nil => rfl
    | cons a earlier => exact (hspent a (hattempts ▸ List.mem_cons_self ..)).1
  retried := hspent
  bounded := by
    show ((c.attempts.length + 1 : Nat) : Int) ≤ _
    exact hn ▸ hmax
  allowed := fun _ => hallowed
  placed := ⟨hn, rfl⟩

theorem settle (h : c.Good cfg) {status : Status ρ ε} {phase : Phase ρ ε}
    (hplaced : ((c.settle status).enter phase).Placed cfg) :
    ((c.settle status).enter phase).Good cfg := by
  obtain ⟨hsingle, hretried, hbounded, hallowed, -⟩ := h
  cases hattempts : c.attempts with
  | nil =>
      rw [hattempts] at hsingle hretried hbounded hallowed
      refine ⟨?_, ?_, ?_, ?_, hplaced⟩ <;> simp only [Call.settle, Call.enter, hattempts, List.modifyHead]
      · exact hsingle
      · exact hretried
      · exact hbounded
      · exact hallowed
  | cons a earlier =>
      rw [hattempts] at hsingle hretried hbounded hallowed
      refine ⟨?_, ?_, ?_, ?_, hplaced⟩ <;> simp only [Call.settle, Call.enter, hattempts, List.modifyHead]
      · exact hsingle
      · exact hretried
      · exact hbounded
      · exact fun _ => hallowed (List.cons_ne_nil a earlier)

theorem deliver (h : c.Good cfg) {a : Attempt χ ρ ε} {earlier : List (Attempt χ ρ ε)}
    (hattempts : c.attempts = a :: earlier) (hrunning : a.isRunning = true) (chunk : χ) :
    (c.deliver chunk).Good cfg := by
  obtain ⟨hsingle, hretried, hbounded, hallowed, -⟩ := h
  rw [hattempts] at hsingle hretried hbounded hallowed
  refine ⟨?_, ?_, ?_, ?_, ?_⟩
  · simp only [Call.deliver, hattempts, List.modifyHead]
    rw [hsingle]
    rfl
  · simp only [Call.deliver, hattempts, List.modifyHead]
    exact hretried
  · simp only [Call.deliver, hattempts, List.modifyHead]
    exact hbounded
  · exact fun _ => hallowed (List.cons_ne_nil a earlier)
  · exact ⟨{ a with chunks := a.chunks ++ [chunk] }, earlier,
      by simp only [Call.deliver, hattempts, List.modifyHead], hrunning⟩

theorem awaited (h : c.Good cfg) (hphase : (∃ n, c.phase = .trying n) ∨ c.phase = .pulling) :
    ∃ a earlier, c.attempts = a :: earlier ∧ a.isRunning = true := by
  have hplaced := h.placed
  unfold Placed at hplaced
  rcases hphase with ⟨n, hphase⟩ | hphase
  · rw [hphase] at hplaced
    obtain ⟨-, hhead⟩ := hplaced
    cases hattempts : c.attempts with
    | nil =>
        rw [hattempts] at hhead
        cases hhead
    | cons a earlier =>
        rw [hattempts] at hhead
        cases hhead
        exact ⟨{}, earlier, rfl, rfl⟩
  · rw [hphase] at hplaced
    exact hplaced

theorem failed (h : c.Good cfg) {n : Nat} {status : Status ρ ε} (hphase : c.phase = .trying n)
    (hmore : n < cfg.maxAttempts) (hworth : cfg.worthRetrying c.kind status = true) :
    ((c.settle status).enter (.backoff n)).Placed cfg := by
  have hplaced := h.placed
  have hretried := h.retried
  unfold Placed at hplaced
  rw [hphase] at hplaced
  obtain ⟨hn, hhead⟩ := hplaced
  cases hattempts : c.attempts with
  | nil =>
      rw [hattempts] at hhead
      cases hhead
  | cons a earlier =>
      rw [hattempts] at hn hhead hretried
      cases hhead
      show 0 < n ∧ n = (c.settle status).attempts.length ∧ _ ∧ ∀ a ∈ (c.settle status).attempts, _
      simp only [Call.settle, hattempts, List.modifyHead]
      refine ⟨hn ▸ Nat.succ_pos _, hn, hmore, fun a ha => ?_⟩
      rcases List.mem_cons.1 ha with heq | hmem
      · subst heq
        exact ⟨rfl, hworth⟩
      · exact hretried a hmem

theorem step (h : c.Good cfg) (hstep : c.Stepped cfg move gate c') (hsound : c.Sound cfg move) :
    c'.Good cfg := by
  have hplaced := h.placed
  unfold Placed at hplaced
  cases hstep with
  | started hphase =>
      rw [hphase] at hplaced
      exact h.enter hplaced
  | admitted hphase hadmits =>
      rw [hphase] at hplaced
      have hallowed := hsound hadmits
      refine h.begin (by rw [hplaced]; rfl) ?_ (by omega) hallowed
      intro a ha
      rw [hplaced] at ha
      cases ha
  | asserted => exact h.enter trivial
  | delivered outcome chunk hphase =>
      obtain ⟨a, earlier, hattempts, hrunning⟩ := h.awaited hphase
      exact h.deliver hattempts hrunning chunk
  | finished => exact h.settle trivial
  | failed outcome status n hphase hmore hworth => exact h.settle (h.failed hphase hmore hworth)
  | woken n hphase =>
      rw [hphase] at hplaced
      obtain ⟨hpos, hn, hmore, hspent⟩ := hplaced
      refine h.begin (by omega) hspent (by omega) (h.allowed fun hnil => ?_)
      rw [hnil] at hn
      exact absurd hn (Nat.ne_of_gt hpos)
  | pulled hphase =>
      rw [hphase] at hplaced
      exact h.enter hplaced
  | unused => exact h.enter trivial
  | abandoned => exact h.enter trivial
  | cancelled => exact h.enter trivial
  | awoken => exact h.enter trivial
  | collected result hphase =>
      have hgood : ((c.settle .closed).enter (.done result)).Good cfg := h.settle trivial
      have hsame : (c.settle .closed).enter (.done result) = c.settle .closed := by
        show { c.settle .closed with phase := Phase.done result } = c.settle .closed
        rw [← hphase]
        rfl
      exact hsame ▸ hgood

end Good

-- ===== over and done

theorem Stepped.fits (hstep : c.Stepped cfg move gate c') : gate.Fits c.holds c'.holds := by
  unfold Call.holds
  cases hstep with
  | started h =>
      rw [h]
      rfl
  | admitted h =>
      rw [h]
      exact ⟨rfl, rfl⟩
  | asserted h =>
      rw [h]
      exact ⟨rfl, rfl⟩
  | delivered outcome chunk h =>
      rcases h with ⟨n, h⟩ | h <;> rw [h] <;> rfl
  | finished outcome status result h =>
      rcases h with ⟨n, h⟩ | h <;> rw [h] <;> exact ⟨rfl, rfl⟩
  | failed outcome status n h =>
      rw [h]
      rfl
  | woken n h =>
      rw [h]
      rfl
  | pulled h =>
      rw [h]
      rfl
  | unused h =>
      rw [h]
      rfl
  | abandoned h =>
      rw [h]
      exact ⟨rfl, rfl⟩
  | cancelled h =>
      rcases h with h | h <;> rw [h] <;> rfl
  | awoken n h =>
      rw [h]
      exact ⟨rfl, rfl⟩
  | collected => rfl

theorem Good.settled (h : c.Good cfg) {status : Status ρ ε}
    (hstatus : ∀ chunks : List χ, Attempt.isRunning { chunks := chunks, status := status } = false) :
    ∀ a ∈ (c.settle status).attempts, a.isRunning = false := by
  have hretried := h.retried
  cases hattempts : c.attempts with
  | nil =>
      simp only [Call.settle, hattempts, List.modifyHead]
      exact fun a ha => absurd ha List.not_mem_nil
  | cons a earlier =>
      rw [hattempts] at hretried
      simp only [Call.settle, hattempts, List.modifyHead]
      intro b hb
      rcases List.mem_cons.1 hb with heq | hmem
      · subst heq
        exact hstatus a.chunks
      · exact (hretried b hmem).not_running

theorem Good.closed_step (h : c.Good cfg) (hstep : c.Stepped cfg move gate c')
    (hsound : c.Sound cfg move) : c'.Closed := by
  have hplaced := h.placed
  unfold Placed at hplaced
  have hnone : c.attempts = [] → ∀ a ∈ c.attempts, a.isRunning = false := by
    intro hnil a ha
    rw [hnil] at ha
    cases ha
  cases hstep with
  | started => exact fun hover => absurd hover Bool.false_ne_true
  | admitted => exact fun hover => absurd hover Bool.false_ne_true
  | asserted hphase =>
      rw [hphase] at hplaced
      exact fun _ => hnone hplaced
  | delivered => exact fun hover => absurd hover Bool.false_ne_true
  | finished outcome status result hphase hstatus => exact fun _ => h.settled hstatus
  | failed => exact fun hover => absurd hover Bool.false_ne_true
  | woken => exact fun hover => absurd hover Bool.false_ne_true
  | pulled => exact fun hover => absurd hover Bool.false_ne_true
  | unused hphase =>
      rw [hphase] at hplaced
      exact fun _ => hnone hplaced
  | abandoned hphase => exact absurd hphase hsound
  | cancelled hphase =>
      rcases hphase with hphase | hphase <;> rw [hphase] at hplaced <;> exact fun _ => hnone hplaced
  | awoken n hphase =>
      rw [hphase] at hplaced
      exact fun _ a ha => (hplaced.2.2.2 a ha).not_running
  | collected => exact fun _ => h.settled fun _ => rfl

/-- At most the newest inner call is running, and only inside the gate. -/
theorem Good.running_le (h : c.Good cfg) (hclosed : c.Closed) :
    c.attempts.countP Attempt.isRunning ≤ c.holds.toNat := by
  have hplaced := h.placed
  have hretried := h.retried
  unfold Placed at hplaced
  have hzero : (∀ a ∈ c.attempts, a.isRunning = false) →
      c.attempts.countP Attempt.isRunning ≤ c.holds.toNat := by
    intro hall
    have hcount : c.attempts.countP Attempt.isRunning = 0 :=
      List.countP_eq_zero.2 fun a ha => Bool.eq_false_iff.1 (hall a ha)
    exact hcount ▸ Nat.zero_le _
  have hone : c.holds = true → c.attempts.countP Attempt.isRunning ≤ c.holds.toNat := by
    intro hholds
    rw [hholds]
    cases hattempts : c.attempts with
    | nil => exact Nat.zero_le _
    | cons a earlier =>
        rw [hattempts] at hretried
        have hcount : earlier.countP Attempt.isRunning = 0 :=
          List.countP_eq_zero.2 fun b hb => Bool.eq_false_iff.1 (hretried b hb).not_running
        rw [List.countP_cons, hcount]
        split
        next => exact Nat.le_refl 1
        next => exact Nat.zero_le 1
  cases hphase : c.phase with
  | created =>
      rw [hphase] at hplaced
      exact hzero fun a ha => absurd (hplaced ▸ ha) List.not_mem_nil
  | waiting =>
      rw [hphase] at hplaced
      exact hzero fun a ha => absurd (hplaced ▸ ha) List.not_mem_nil
  | trying n => exact hone (congrArg Phase.holds hphase)
  | backoff n => exact hone (congrArg Phase.holds hphase)
  | suspended => exact hone (congrArg Phase.holds hphase)
  | pulling => exact hone (congrArg Phase.holds hphase)
  | done result => exact hzero (hclosed (by unfold isOver; rw [hphase]))

end Call

-- ===== the system

/-- Each good call, and as many inside the gate as there are permits taken. -/
structure Sys.Good (cfg : Settings ε) (s : Sys χ ρ ε) : Prop where
  booked : Booked Call.holds cfg.permits s.value s.calls
  calls : ∀ c ∈ s.calls, c.Good cfg

namespace Sys

variable {s s' : Sys χ ρ ε}

theorem step_move {i : Nat} {move : Move χ ρ ε} (h : Sys.step cfg (.move i move) s = some s') :
    ∃ c gate c' value, s.calls[i]? = some c ∧ c.Stepped cfg move gate c'
      ∧ gate.apply s.value = some value ∧ s' = { value := value, calls := s.calls.set i c' } := by
  simp only [Sys.step] at h
  split at h
  next => cases h
  next c hc =>
      split at h
      next => cases h
      next gate c' hstep =>
          split at h
          next => cases h
          next value hvalue =>
              cases h
              exact ⟨c, gate, c', value, hc, Call.stepped_of_step hstep, hvalue, rfl⟩

theorem forall_set {P : Call χ ρ ε → Prop} {i : Nat} {c' : Call χ ρ ε} {calls : List (Call χ ρ ε)}
    (h : ∀ c ∈ calls, P c) (hc' : P c') : ∀ c ∈ calls.set i c', P c := by
  intro c hc
  rcases List.mem_or_eq_of_mem_set hc with hmem | heq
  · exact h c hmem
  · exact heq ▸ hc'

theorem forall_spawn {P : Call χ ρ ε → Prop} {c' : Call χ ρ ε} {calls : List (Call χ ρ ε)}
    (h : ∀ c ∈ calls, P c) (hc' : P c') : ∀ c ∈ calls ++ [c'], P c := by
  intro c hc
  rcases List.mem_append.1 hc with hmem | heq
  · exact h c hmem
  · exact List.mem_singleton.1 heq ▸ hc'

theorem good_new (kind : Kind) : Call.Good cfg ({ kind := kind } : Call χ ρ ε) where
  single := rfl
  retried := fun a ha => absurd ha List.not_mem_nil
  bounded := by
    show (0 : Int) ≤ _
    omega
  allowed := fun hne => absurd rfl hne
  placed := rfl

theorem Good.step (h : s.Good cfg) {action : Action χ ρ ε} (hsound : s.Sound cfg action)
    (hstep : Sys.step cfg action s = some s') : s'.Good cfg := by
  cases action with
  | spawn kind =>
      cases hstep
      exact ⟨h.booked.join rfl, forall_spawn h.calls (good_new kind)⟩
  | move i move =>
      obtain ⟨c, gate, c', value, hc, hmove, hvalue, heq⟩ := step_move hstep
      have hgood := h.calls c (List.mem_of_getElem? hc)
      subst heq
      exact ⟨h.booked.step hc hmove.fits hvalue, forall_set h.calls (hgood.step hmove (hsound c hc))⟩

theorem closed_step (h : s.Good cfg) (hclosed : ∀ c ∈ s.calls, c.Closed) {action : Action χ ρ ε}
    (hsound : s.Sound cfg action) (hstep : Sys.step cfg action s = some s') :
    ∀ c ∈ s'.calls, c.Closed := by
  cases action with
  | spawn kind =>
      cases hstep
      exact forall_spawn hclosed fun hover => absurd hover Bool.false_ne_true
  | move i move =>
      obtain ⟨c, gate, c', value, hc, hmove, hvalue, heq⟩ := step_move hstep
      have hmem := List.mem_of_getElem? hc
      subst heq
      exact forall_set hclosed ((h.calls c hmem).closed_step hmove (hsound c hc))

/-- There are inner calls only where the settings allow them, so there the
permits are as many as the bound. -/
theorem Good.promised (h : s.Good cfg) (hclosed : ∀ c ∈ s.calls, c.Closed) : s.Promised cfg := by
  refine ⟨fun c hc => ?_, ?_⟩
  · have hgood := h.calls c hc
    refine ⟨hgood.single, hgood.retried, ?_, hclosed c hc⟩
    have hbounded := hgood.bounded
    cases hattempts : c.attempts with
    | nil => exact Nat.zero_le _
    | cons a earlier =>
        obtain ⟨hmax, -⟩ := hgood.allowed (hattempts ▸ List.cons_ne_nil a earlier)
        rw [hattempts] at hbounded
        omega
  · have hle : s.running ≤ cfg.permits :=
      h.booked.countP_le fun c hc => (h.calls c hc).running_le (hclosed c hc)
    cases hrunning : s.running with
    | zero => exact Nat.zero_le _
    | succ n =>
        have hpos : 0 < s.running := hrunning ▸ Nat.succ_pos n
        obtain ⟨a, ha, -⟩ := List.countP_pos_iff.1 hpos
        obtain ⟨c, hc, hac⟩ := List.mem_flatMap.1 ha
        obtain ⟨-, hmax⟩ := (h.calls c hc).allowed (List.ne_nil_of_mem hac)
        unfold Settings.permits at hle
        omega

theorem sound_of_promised (h : s.Good cfg) {action : Action χ ρ ε}
    (hstep : Sys.step cfg action s = some s') (hpromised : s'.Promised cfg) :
    s.Sound cfg action := by
  cases action with
  | spawn kind => trivial
  | move i move =>
      intro c₀ hc₀
      obtain ⟨c, gate, c', value, hc, hmove, hvalue, heq⟩ := step_move hstep
      obtain rfl : c = c₀ := Option.some.inj (hc.symm.trans hc₀)
      have hgood := h.calls c (List.mem_of_getElem? hc)
      obtain ⟨hlt, -⟩ := List.getElem?_eq_some_iff.1 hc
      have hmem : c' ∈ s'.calls := heq ▸ List.mem_set hlt c'
      have hfaithful := hpromised.faithful c' hmem
      cases hmove with
      | admitted hphase hadmits =>
          intro _
          have hbounded : c.attempts.length + 1 ≤ cfg.maxAttempts.toNat := hfaithful.bounded
          have hrunning : 0 < s'.running := by
            refine List.countP_pos_iff.2 ⟨{}, List.mem_flatMap.2 ⟨_, hmem, ?_⟩, rfl⟩
            exact List.mem_cons_self ..
          have hlimited := hpromised.limited
          omega
      | asserted hphase hadmits => exact fun h => absurd (hadmits.symm.trans h) Bool.false_ne_true
      | abandoned hphase =>
          have hplaced := hgood.placed
          unfold Call.Placed at hplaced
          rw [hphase] at hplaced
          obtain ⟨a, earlier, hattempts, hrunning⟩ := hplaced
          have hover := hfaithful.closed rfl a (hattempts ▸ List.mem_cons_self ..)
          exact absurd (hover.symm.trans hrunning) Bool.false_ne_true
      | unused hphase =>
          intro hsuspended
          rw [hphase] at hsuspended
          cases hsuspended
      | _ => trivial

/-- In a run every call keeps its promises, and so does the bound on the
inner calls, exactly if no generator is closed between two chunks and no
call is let in that no attempt is allowed. -/
theorem promised_iff_sound {actions : List (Action χ ρ ε)}
    (hrun : run (Sys.step cfg) actions (Sys.init cfg) = some s) :
    Meets (Sys.step cfg) (fun _ s => s.Promised cfg) actions (Sys.init cfg) ∧ s.Promised cfg ↔
      Meets (Sys.step cfg) (fun action s => s.Sound cfg action) actions (Sys.init cfg) := by
  have hinit : (Sys.init cfg : Sys χ ρ ε).Good cfg :=
    ⟨Nat.add_zero _, fun c hc => absurd hc List.not_mem_nil⟩
  refine kept_iff_meets_of (I := Good cfg) ?_ ?_ hinit
    (hinit.promised fun c hc => absurd hc List.not_mem_nil) hrun
  · exact fun action s s' hs _ hsound hstep => hs.step hsound hstep
  · intro action s s' hs hP hstep
    refine ⟨fun hP' => sound_of_promised hs hstep hP', fun hsound => ?_⟩
    have hclosed := closed_step hs (fun c hc => (hP.faithful c hc).closed) hsound hstep
    exact (hs.step hsound hstep).promised hclosed

/-- One call at a time, and no exception that is worth a second attempt. -/
def narrow : Settings Unit where
  maxAttempts := 3
  maxConcurrent := 1
  isCancelled := fun _ => false
  isTimeout := fun _ => false
  isRetryable := fun _ => false

def drained : List (Action Unit Unit Unit) :=
  [.spawn .stream, .move 0 .start, .move 0 .acquire, .move 0 (.outcome (.chunk ())), .move 0 .next,
    .move 0 (.outcome .ended)]

theorem promised_drained :
    Meets (Sys.step narrow) (fun _ s => s.Promised narrow) drained (Sys.init narrow)
      ∧ Sys.Promised narrow
          (⟨1, [⟨.stream, .done .returned, [⟨[()], .ended⟩], [()]⟩]⟩ : Sys Unit Unit Unit) := by
  refine (promised_iff_sound rfl).2 ?_
  refine ⟨trivial, fun s hs => ?_⟩
  cases hs
  refine ⟨fun c hc => trivial, fun s hs => ?_⟩
  cases hs
  refine ⟨fun c hc hadmits => (by decide), fun s hs => ?_⟩
  cases hs
  refine ⟨fun c hc => trivial, fun s hs => ?_⟩
  cases hs
  refine ⟨fun c hc => trivial, fun s hs => ?_⟩
  cases hs
  exact ⟨fun c hc => trivial, fun s hs => trivial⟩

/-- A stream is closed after its first chunk, and the next call is let in
beside its inner generator. -/
def dropped : List (Action Unit Unit Unit) :=
  [.spawn .stream, .move 0 .start, .move 0 .acquire, .move 0 (.outcome (.chunk ())), .move 0 .close,
    .spawn .stream, .move 1 .start, .move 1 .acquire]

theorem not_promised_dropped :
    ∃ s, run (Sys.step narrow) dropped (Sys.init narrow) = some s ∧ s.running = 2
      ∧ ¬ s.Promised narrow :=
  ⟨_, rfl, rfl, fun h => absurd h.limited (by decide)⟩

end Sys

end Velune.Providers.Retrying
