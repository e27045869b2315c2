/-
What a council run keeps, and exactly when it ends at all.

`Attempt` is what the runner meets at a planned stage: no stage, no
time, or the stage's reply. Its status and its notes are functions of
the inputs, and `runStage_cases` says that a stage ends with exactly
these, cancelled, or not at all when a note is too long for a result.
`Ledger` is the invariant of the loop; one step keeps it
(`Ledger.skip`, `Ledger.attempt`), so it holds of the last state, and
the outcome is read off it.

The run fails to end in exactly one way: a note of a stage that was
started, or the summary joined from the notes of the stage that failed,
is longer than the result models take. Everything the runner words
itself is short (`message_length`, `derived_short`), which leaves the
class names of exceptions and the degradations of outputs.
-/
import Velune.Council.Runner

namespace Velune.Council

open Lib

variable {α : Type} {R : StagedCouncilRunner α} {profile : RoleProfile}

-- ===== attempts

inductive Attempt (α : Type)
  | unregistered
  | late
  | replied (reply : StageReply α)

/-- The attempt at a stage with `remaining` time. -/
def StagedCouncilRunner.attempt (R : StagedCouncilRunner α) (id : StageId) (remaining : Rat) :
    Attempt α :=
  match R.stages id with
  | none => .unregistered
  | some stage => if remaining ≤ 0 then .late else .replied stage.reply

variable {id : StageId} {c : StageContract} {s s' : CouncilState α}

theorem attempt_replied {remaining : Rat} {stage : Stage α}
    (hstage : R.stages id = some stage) (htime : ¬ remaining ≤ 0) :
    R.attempt id remaining = .replied stage.reply := by
  rw [StagedCouncilRunner.attempt, hstage]
  exact if_neg htime

def StageContract.unusable (c : StageContract) : StageStatus :=
  if c.criticality = .required then .failed else .degraded

def Attempt.status (profile : RoleProfile) (c : StageContract) : Attempt α → StageStatus
  | .replied (.output o) =>
      if validateOutput profile c o = none then (acceptedStatus profile c o).1 else c.unusable
  | _ => c.unusable

def Attempt.notes (profile : RoleProfile) (c : StageContract) : Attempt α → List PyStr
  | .unregistered => ["stage_not_registered:".toList ++ c.stage.value]
  | .late => ["wall_budget_exhausted".toList]
  | .replied .timedOut => ["stage_timeout".toList]
  | .replied .cancelled => []
  | .replied (.raised className) => ["stage_error:".toList ++ className]
  | .replied (.output o) =>
      match validateOutput profile c o with
      | some violation => ["contract_violation:".toList ++ violation.message]
      | none => acceptedNotes profile c o

def Attempt.invokes : Attempt α → Bool
  | .replied _ => true
  | .unregistered | .late => false

def Attempt.accepted (profile : RoleProfile) (c : StageContract) :
    Attempt α → Option (StageOutput α)
  | .replied (.output o) => if validateOutput profile c o = none then some o else none
  | _ => none

-- ===== lengths

theorem StageId.value_length (s : StageId) : s.value.length ≤ 12 := by
  cases s <;> decide

theorem SeatKind.value_length (k : SeatKind) : k.value.length ≤ 11 := by
  cases k <;> decide

theorem artifactKind_length (k : ArtifactKind) : k.value.length ≤ 11 := by
  cases k <;> decide

theorem message_length (v : StageContractViolation) : v.message.length ≤ 120 := by
  cases v with
  | answer st =>
      have hst := st.value_length
      show (st.value ++ " may not produce an answer".toList).length ≤ 120
      simp
      omega
  | expectedSeat id =>
      have hid := isSlug_length id.2
      show ("unknown expected seat ".toList ++ id.val).length ≤ 120
      simp
      omega
  | seat id =>
      have hid := isSlug_length id.2
      show ("unknown seat ".toList ++ id.val).length ≤ 120
      simp
      omega
  | seatStage result st =>
      have hresult := result.value_length
      have hst := st.value_length
      show ("seat result for ".toList ++ result.value ++ " returned from ".toList
        ++ st.value).length ≤ 120
      simp
      omega
  | seatKind id k st =>
      have hid := isSlug_length id.2
      have hk := k.value_length
      have hst := st.value_length
      show ("seat ".toList ++ id.val ++ " of kind ".toList ++ k.value ++ " may not act in ".toList
        ++ st.value).length ≤ 120
      simp
      omega
  | duplicate id =>
      have hid := isSlug_length id.2
      show ("duplicate result for seat ".toList ++ id.val).length ≤ 120
      simp
      omega
  | kind st k =>
      have hst := st.value_length
      have hk := artifactKind_length k
      show (st.value ++ " may not write ".toList ++ k.value ++ " artifacts".toList).length ≤ 120
      simp
      omega
  | author id st =>
      have hid := isSlug_length id.2
      have hst := st.value_length
      show (id.val ++ " may not author in ".toList ++ st.value).length ≤ 120
      simp
      omega
  | target id =>
      have hid := isSlug_length id.2
      show ("unknown artifact target ".toList ++ id.val).length ≤ 120
      simp
      omega
  | undelivered id =>
      have hid := isSlug_length id.2
      show ("artifact by ".toList ++ id.val ++ " without a delivered seat result".toList).length
        ≤ 120
      simp
      omega

theorem expectedSeats_length {o : StageOutput α} {seat : PyStr}
    (h : seat ∈ expectedSeats profile c o) : seat.length ≤ 33 := by
  unfold expectedSeats at h
  cases ho : o.expectedSeats with
  | some seats =>
      rw [ho] at h
      obtain ⟨id, -, rfl⟩ := List.mem_map.1 h
      have := isSlug_length id.2
      omega
  | none =>
      rw [ho] at h
      obtain ⟨spec, -, rfl⟩ := List.mem_map.1 h
      exact matchesSlug_length spec.id_ok

theorem deriveStageStatus_cases (expected : List PyStr) (results : List (SeatResult α))
    (quorum : Option QuorumRule) (criticality : Criticality) :
    (deriveStageStatus expected results quorum criticality).1 ≠ .skipped
      ∧ ((deriveStageStatus expected results quorum criticality).1 = .failed →
          criticality = .required)
      ∧ ∀ note ∈ (deriveStageStatus expected results quorum criticality).2,
          note = "quorum_not_met".toList
            ∨ ∃ seat ∈ expected, note = "seat_unavailable:".toList ++ seat := by
  have hmissing : ∀ (okIds : List PyStr) (note : PyStr),
      note ∈ (expected.filter (!okIds.contains ·)).map ("seat_unavailable:".toList ++ ·) →
      ∃ seat ∈ expected, note = "seat_unavailable:".toList ++ seat := by
    intro okIds note hnote
    obtain ⟨seat, hseat, rfl⟩ := List.mem_map.1 hnote
    exact ⟨seat, (List.mem_filter.1 hseat).1, rfl⟩
  unfold deriveStageStatus
  dsimp only
  split
  · refine ⟨?_, ?_, fun note hnote => Or.inr (hmissing _ _ hnote)⟩
    · split_ifs <;> simp
    · split_ifs <;> simp
  · refine ⟨?_, ?_, fun note hnote => ?_⟩
    · split_ifs <;> simp
    · split_ifs with hc
      · exact fun _ => hc
      · simp
    · rcases List.mem_append.1 hnote with hnote | hnote
      · exact Or.inr (hmissing _ _ hnote)
      · exact Or.inl (List.mem_singleton.1 hnote)

theorem derived_short {o : StageOutput α} {note : PyStr}
    (h : note ∈ (acceptedStatus profile c o).2) : note.length ≤ 50 := by
  rcases (deriveStageStatus_cases _ _ _ _).2.2 note h with rfl | ⟨seat, hseat, rfl⟩
  · simp
  · have := expectedSeats_length hseat
    simp
    omega

-- ===== statuses

theorem unusable_ne_skipped (c : StageContract) : c.unusable ≠ .skipped := by
  unfold StageContract.unusable
  split_ifs <;> decide

theorem unusable_failed : c.unusable = .failed ↔ c.criticality = .required := by
  unfold StageContract.unusable
  split_ifs with h <;> simp [h]

theorem Attempt.status_ne_skipped (c : StageContract) (a : Attempt α) :
    a.status profile c ≠ .skipped := by
  unfold Attempt.status
  split
  · split_ifs
    · exact (deriveStageStatus_cases _ _ _ _).1
    · exact unusable_ne_skipped c
  · exact unusable_ne_skipped c

theorem Attempt.status_failed {a : Attempt α}
    (h : a.status profile c = .failed) : c.criticality = .required := by
  unfold Attempt.status at h
  split at h
  · split_ifs at h
    · exact (deriveStageStatus_cases _ _ _ _).2.1 h
    · exact unusable_failed.1 h
  · exact unusable_failed.1 h

-- ===== one stage

/-- A stage result that is not skipped can be built iff its notes are
short. -/
theorem stageRecord_valid {r : StageRecord α} (hreason : r.skippedReason = none)
    (hstatus : r.status ≠ .skipped) :
    r.Valid ↔ ∀ note ∈ r.degradations, note.length ≤ SHORT_TEXT := by
  refine ⟨fun h => h.notes_short, fun h => ⟨h, ?_, ?_⟩⟩
  · simp [hreason]
  · simp [hreason, truthy, hstatus]

/-- What an attempt at the stage `id` leaves behind: only an accepted
output reaches the store, the artifacts and the answer. -/
structure Left (profile : RoleProfile) (c : StageContract) (id : StageId) (a : Attempt α)
    (s s' : CouncilState α) : Prop where
  stageResults : s'.stageResults = s.stageResults
  store : s'.store = s.store ++ (a.accepted profile c).elim [] (·.stored id)
  artifacts : s'.artifacts = s.artifacts ++ (a.accepted profile c).elim [] (·.delivered)
  answer : s'.answer = ((a.accepted profile c).bind (·.answer)).orElse fun _ => s.answer
  invoked : s'.invoked = s.invoked ++ (if a.invokes then [id] else [])

inductive StageCase (profile : RoleProfile) (c : StageContract) (id : StageId) (a : Attempt α)
    (s : CouncilState α) : StageEnd α → Prop
  | result {r : StageResult α} {s' : CouncilState α} (hreply : a ≠ .replied .cancelled)
      (hstage : r.stage = id) (hstatus : r.status = a.status profile c)
      (hnotes : r.degradations = a.notes profile c) (hleft : Left profile c id a s s') :
      StageCase profile c id a s (.result r s')
  | cancelled {s' : CouncilState α} (hreply : a = .replied .cancelled)
      (hleft : Left profile c id a s s') : StageCase profile c id a s (.cancelled s')
  | invalid (hreply : a ≠ .replied .cancelled)
      (hlong : ¬ ∀ note ∈ a.notes profile c, note.length ≤ SHORT_TEXT) :
      StageCase profile c id a s .invalid

theorem StageCase.ofResult {a : Attempt α} {r : StageRecord α} (hreply : a ≠ .replied .cancelled)
    (hreason : r.skippedReason = none) (hstage : r.stage = id)
    (hstatus : r.status = a.status profile c) (hnotes : r.degradations = a.notes profile c)
    (hleft : Left profile c id a s s') :
    StageCase profile c id a s (.ofResult (StageResult.validate r) s') := by
  have hvalid := stageRecord_valid hreason (hstatus ▸ a.status_ne_skipped c)
  by_cases h : r.Valid
  · rw [StageResult.validate_of_valid h]
    exact .result hreply hstage hstatus hnotes hleft
  · rw [StageResult.validate_of_not h]
    exact .invalid hreply (hnotes ▸ fun hshort => h (hvalid.2 hshort))

theorem StageCase.unrunnable {a : Attempt α} {notes : List PyStr} (hid : c.stage = id)
    (hreply : a ≠ .replied .cancelled) (hstatus : a.status profile c = c.unusable)
    (hnotes : a.notes profile c = notes) (hleft : Left profile c id a s s') :
    StageCase profile c id a s (.ofResult (unrunnable c notes) s') :=
  .ofResult hreply rfl hid hstatus.symm hnotes.symm hleft

theorem Left.untouched {a : Attempt α}
    (ha : a.accepted profile c = none) (hresults : s'.stageResults = s.stageResults)
    (hstore : s'.store = s.store) (hartifacts : s'.artifacts = s.artifacts)
    (hanswer : s'.answer = s.answer)
    (hinvoked : s'.invoked = s.invoked ++ (if a.invokes then [id] else [])) :
    Left profile c id a s s' := by
  refine ⟨hresults, ?_, ?_, ?_, hinvoked⟩
  · rw [hstore, ha]
    exact (List.append_nil _).symm
  · rw [hartifacts, ha]
    exact (List.append_nil _).symm
  · rw [hanswer, ha]
    rfl

theorem runStage_cases (R : StagedCouncilRunner α) (profile : RoleProfile) (id : StageId)
    (upcoming : List StageId) (remaining : Rat) (s : CouncilState α) :
    StageCase profile (R.policy.contract id) id (R.attempt id remaining) s
      (runStage R profile id upcoming remaining s) := by
  have hid := R.policy.stage_eq id
  unfold runStage StagedCouncilRunner.attempt
  dsimp only
  cases hstage : R.stages id with
  | none =>
      refine .unrunnable hid (by simp) rfl ?_ (.untouched rfl rfl rfl rfl rfl ?_)
      · show [_ ++ (R.policy.contract id).stage.value] = _
        rw [hid]
      · exact (List.append_nil _).symm
  | some stage =>
      dsimp only
      split_ifs with htime
      · exact .unrunnable hid (by simp) rfl rfl
          (.untouched rfl rfl rfl rfl rfl (List.append_nil _).symm)
      · cases hreply : stage.reply with
        | cancelled => exact .cancelled rfl (.untouched rfl rfl rfl rfl rfl rfl)
        | timedOut =>
            exact .unrunnable hid (by simp) rfl rfl (.untouched rfl rfl rfl rfl rfl rfl)
        | raised className =>
            exact .unrunnable hid (by simp) rfl rfl (.untouched rfl rfl rfl rfl rfl rfl)
        | output o =>
            dsimp only
            cases hval : validateOutput profile (R.policy.contract id) o with
            | some violation =>
                refine .unrunnable hid (by simp) ?_ ?_ (.untouched ?_ rfl rfl rfl rfl rfl)
                · simp [Attempt.status, hval]
                · simp only [Attempt.notes, hval]
                · simp [Attempt.accepted, hval]
            | none =>
                have hacc : (Attempt.replied (.output o)).accepted profile (R.policy.contract id)
                    = some o := if_pos hval
                refine .ofResult (by simp) rfl hid ?_ ?_ ⟨rfl, ?_, ?_, ?_, rfl⟩
                · simp [Attempt.status, hval]
                · simp only [Attempt.notes, hval]
                · rw [hacc]
                  show s.store ++ o.stored (R.policy.contract id).stage = s.store ++ o.stored id
                  rw [hid]
                · rw [hacc]
                  rfl
                · rw [hacc]
                  rfl

-- ===== the loop

/-- The output of a registered stage, accepted by its contract check. -/
def StagedCouncilRunner.Accepts (R : StagedCouncilRunner α) (profile : RoleProfile)
    (id : StageId) (o : StageOutput α) : Prop :=
  ∃ stage, R.stages id = some stage ∧ stage.reply = .output o
    ∧ validateOutput profile (R.policy.contract id) o = none

theorem Attempt.accepts {remaining : Rat} {o : StageOutput α}
    (h : (R.attempt id remaining).accepted profile (R.policy.contract id) = some o) :
    R.Accepts profile id o := by
  unfold StagedCouncilRunner.attempt at h
  cases hstage : R.stages id with
  | none =>
      rw [hstage] at h
      cases h
  | some stage =>
      rw [hstage] at h
      dsimp only at h
      split_ifs at h with htime
      · cases h
      · cases hreply : stage.reply with
        | cancelled | timedOut | raised =>
            rw [hreply] at h
            cases h
        | output o' =>
            rw [hreply, Attempt.accepted] at h
            split_ifs at h with hval
            cases h
            exact ⟨stage, hstage, hreply, hval⟩

/-- What the store, the artifacts and the answer hold comes from outputs
that were accepted. -/
structure Accepted (R : StagedCouncilRunner α) (profile : RoleProfile) (planned : List StageId)
    (store : List (StoredArtifact α)) (artifacts : List Artifact) (answer : Option PyStr) :
    Prop where
  store : ∀ x ∈ store, x.stage ∈ planned ∧ ∃ o, R.Accepts profile x.stage o ∧ x ∈ o.stored x.stage
  artifacts : ∀ a ∈ artifacts, ∃ id ∈ planned, ∃ o, R.Accepts profile id o ∧ a ∈ o.delivered
  answer : ∀ text ∈ answer, ∃ id ∈ planned, ∃ o, R.Accepts profile id o ∧ o.answer = some text

def Idle (invoked : List StageId) (r : StageResult α) : Prop :=
  r.status = .skipped ∧ r.stage ∉ invoked

/-- The invariant of the loop: `done` are the stages behind it, and
`failed` is the flag of the source. -/
structure Ledger (R : StagedCouncilRunner α) (profile : RoleProfile) (done : List StageId)
    (failed : Option StageId) (s : CouncilState α) : Prop where
  stages : s.stageResults.map (·.stage) = done
  flagged : failed.isSome = true ↔ ∃ r ∈ s.stageResults, r.status = .failed
  required : ∀ r ∈ s.stageResults, r.status = .failed →
    (R.policy.contract r.stage).criticality = .required
  idle : s.stageResults.Pairwise fun a b => a.status = .failed → Idle s.invoked b
  invoked : ∀ id ∈ s.invoked, id ∈ done
  accepted : Accepted R profile done s.store s.artifacts s.answer

theorem Accepted.mono {planned planned' : List StageId} {store : List (StoredArtifact α)}
    {artifacts : List Artifact} {answer : Option PyStr}
    (h : Accepted R profile planned store artifacts answer) (hsub : planned ⊆ planned') :
    Accepted R profile planned' store artifacts answer where
  store x hx := ⟨hsub (h.store x hx).1, (h.store x hx).2⟩
  artifacts a ha := by
    obtain ⟨id, hid, h⟩ := h.artifacts a ha
    exact ⟨id, hsub hid, h⟩
  answer text htext := by
    obtain ⟨id, hid, h⟩ := h.answer text htext
    exact ⟨id, hsub hid, h⟩

theorem Left.accepted {remaining : Rat} {done : List StageId}
    (hleft : Left profile (R.policy.contract id) id (R.attempt id remaining) s s')
    (h : Accepted R profile done s.store s.artifacts s.answer) :
    Accepted R profile (done ++ [id]) s'.store s'.artifacts s'.answer := by
  have hold := h.mono (List.subset_append_left done [id])
  rw [hleft.store, hleft.artifacts, hleft.answer]
  cases hacc : (R.attempt id remaining).accepted profile (R.policy.contract id) with
  | none => simpa using hold
  | some o =>
      have hmem : id ∈ done ++ [id] := List.mem_append_right _ (List.mem_singleton_self id)
      have hfrom := Attempt.accepts hacc
      refine ⟨?_, ?_, ?_⟩
      · intro x hx
        rcases List.mem_append.1 hx with hx | hx
        · exact hold.store x hx
        · have hstage : x.stage = id := by
            obtain ⟨item, -, rfl⟩ := List.mem_map.1 hx
            rfl
          rw [hstage]
          exact ⟨hmem, o, hfrom, hx⟩
      · intro a ha
        rcases List.mem_append.1 ha with ha | ha
        · exact hold.artifacts a ha
        · exact ⟨id, hmem, o, hfrom, ha⟩
      · intro text htext
        cases hanswer : o.answer with
        | none =>
            rw [Option.bind_some, hanswer] at htext
            exact hold.answer text htext
        | some text' =>
            rw [Option.bind_some, hanswer] at htext
            cases htext
            exact ⟨id, hmem, o, hfrom, hanswer⟩

theorem Ledger.start (s : CouncilState α) (hresults : s.stageResults = [])
    (hstore : s.store = []) (hartifacts : s.artifacts = []) (hanswer : s.answer = none)
    (hinvoked : s.invoked = []) : Ledger R profile [] none s where
  stages := by rw [hresults]; rfl
  flagged := by simp [hresults]
  required := by simp [hresults]
  idle := by simp [hresults]
  invoked := by simp [hinvoked]
  accepted := by
    rw [hstore, hartifacts, hanswer]
    exact ⟨by simp, by simp, by simp⟩

theorem Ledger.skip {done : List StageId} {f id : StageId}
    {r : StageResult α} (h : Ledger R profile done (some f) s) (hid : id ∉ done)
    (hstage : r.stage = id) (hstatus : r.status = .skipped)
    (hresults : s'.stageResults = s.stageResults ++ [r]) (hinvoked : s'.invoked = s.invoked)
    (hstore : s'.store = s.store) (hartifacts : s'.artifacts = s.artifacts)
    (hanswer : s'.answer = s.answer) : Ledger R profile (done ++ [id]) (some f) s' where
  stages := by
    rw [hresults, List.map_append, h.stages, List.map_singleton, hstage]
  flagged := by
    obtain ⟨r', hr', hfailed⟩ := h.flagged.1 rfl
    exact ⟨fun _ => ⟨r', hresults ▸ List.mem_append_left _ hr', hfailed⟩, fun _ => rfl⟩
  required r' hr' hfailed := by
    rw [hresults] at hr'
    rcases List.mem_append.1 hr' with hr' | hr'
    · exact h.required r' hr' hfailed
    · rw [List.mem_singleton.1 hr', hstatus] at hfailed
      cases hfailed
  idle := by
    rw [hresults, hinvoked, List.pairwise_append]
    refine ⟨h.idle, List.pairwise_singleton _ _, fun a ha b hb _ => ?_⟩
    rw [List.mem_singleton.1 hb]
    exact ⟨hstatus, hstage ▸ fun hmem => hid (h.invoked id hmem)⟩
  invoked id' hid' := List.mem_append_left _ (h.invoked id' (hinvoked ▸ hid'))
  accepted := by
    rw [hstore, hartifacts, hanswer]
    exact h.accepted.mono (List.subset_append_left done [id])

theorem Ledger.attempt {done : List StageId} {remaining : Rat}
    {s s' s'' : CouncilState α} {r : StageResult α} (h : Ledger R profile done none s)
    (hstage : r.stage = id)
    (hstatus : r.status = (R.attempt id remaining).status profile (R.policy.contract id))
    (hleft : Left profile (R.policy.contract id) id (R.attempt id remaining) s s')
    (hs'' : s'' = { s' with stageResults := s'.stageResults ++ [r] }) :
    Ledger R profile (done ++ [id]) (if r.status = .failed then some id else none) s'' := by
  subst hs''
  have hnone : ∀ a ∈ s.stageResults, a.status ≠ .failed := by
    intro a ha hfailed
    have := h.flagged.2 ⟨a, ha, hfailed⟩
    cases this
  refine ⟨?_, ?_, ?_, ?_, ?_, hleft.accepted h.accepted⟩
  · show (s'.stageResults ++ [r]).map (·.stage) = _
    rw [hleft.stageResults, List.map_append, h.stages, List.map_singleton, hstage]
  · show _ ↔ ∃ a ∈ s'.stageResults ++ [r], a.status = .failed
    rw [hleft.stageResults]
    constructor
    · intro hsome
      split_ifs at hsome with hfailed
      · exact ⟨r, List.mem_append_right _ (List.mem_singleton_self r), hfailed⟩
      · cases hsome
    · rintro ⟨a, ha, hfailed⟩
      rcases List.mem_append.1 ha with ha | ha
      · exact absurd hfailed (hnone a ha)
      · rw [List.mem_singleton.1 ha] at hfailed
        rw [if_pos hfailed]
        rfl
  · intro a ha hfailed
    rw [hleft.stageResults] at ha
    rcases List.mem_append.1 ha with ha | ha
    · exact absurd hfailed (hnone a ha)
    · rw [List.mem_singleton.1 ha] at hfailed ⊢
      rw [hstage]
      exact Attempt.status_failed (hstatus.symm.trans hfailed)
  · show (s'.stageResults ++ [r]).Pairwise _
    rw [hleft.stageResults, List.pairwise_append]
    refine ⟨?_, List.pairwise_singleton _ _, fun a ha b _ hfailed => absurd hfailed (hnone a ha)⟩
    exact List.Pairwise.imp_of_mem (fun ha _ _ hfailed => absurd hfailed (hnone _ ha)) h.idle
  · intro id' hid'
    have hid' : id' ∈ s'.invoked := hid'
    rw [hleft.invoked] at hid'
    rcases List.mem_append.1 hid' with hid' | hid'
    · exact List.mem_append_left _ (h.invoked id' hid')
    · split_ifs at hid'
      · exact List.mem_append_right _ hid'
      · cases hid'

-- ===== brevity

/-- A stage's reply stays within the result models: the note of an
exception, every degradation of an accepted output, and, where the stage
fails the run, the summary joined from its notes. -/
def StageReply.Brief (profile : RoleProfile) (c : StageContract) : StageReply α → Prop
  | .raised className =>
      className.length + 12 ≤ SHORT_TEXT
        ∧ (c.criticality = .required → c.stage.value.length + className.length + 21 ≤ SHORT_TEXT)
  | .timedOut | .cancelled => True
  | .output o =>
      validateOutput profile c o = none →
        (∀ note ∈ o.degradations, note.length ≤ SHORT_TEXT)
          ∧ ((acceptedStatus profile c o).1 = .failed →
              (failureSummary c.stage (acceptedNotes profile c o)).length ≤ SHORT_TEXT)

/-- The attempt ends the loop, by failing or by being cancelled. -/
def Attempt.Stops (profile : RoleProfile) (c : StageContract) (a : Attempt α) : Prop :=
  a = .replied .cancelled ∨ a.status profile c = .failed

/-- From the `n`-th stage on, every stage that is started replies
briefly. -/
def Brief (R : StagedCouncilRunner α) (request : CouncilRequest) (profile : RoleProfile) :
    Nat → List StageId → Prop
  | _, [] => True
  | n, id :: rest =>
      let a := R.attempt id (remainingWall R request n)
      (∀ reply, a = .replied reply → reply.Brief profile (R.policy.contract id))
        ∧ (¬ a.Stops profile (R.policy.contract id) → Brief R request profile (n + 1) rest)

/-- The notes of an attempt and the summary of its failure fit. -/
structure Attempt.Fits (profile : RoleProfile) (c : StageContract) (a : Attempt α) : Prop where
  notes : ∀ note ∈ a.notes profile c, note.length ≤ SHORT_TEXT
  summary : a.status profile c = .failed →
    (failureSummary c.stage (a.notes profile c)).length ≤ SHORT_TEXT

theorem failureSummary_singleton_length (st : StageId) (note : PyStr) :
    (failureSummary st [note]).length = st.value.length + 9 + note.length := by
  unfold failureSummary
  simp [Text.join]
  omega

theorem failureSummary_nil_length (st : StageId) :
    (failureSummary st []).length ≤ SHORT_TEXT := by
  have := st.value_length
  unfold failureSummary
  simp [SHORT_TEXT]
  omega

theorem Attempt.Fits.of_note {a : Attempt α} {note : PyStr}
    (ha : a.notes profile c = [note]) (hnote : note.length ≤ 200) : a.Fits profile c := by
  have hst := c.stage.value_length
  have hlong : (failureSummary c.stage [note]).length ≤ SHORT_TEXT := by
    rw [failureSummary_singleton_length]
    unfold SHORT_TEXT
    omega
  refine ⟨?_, fun _ => ha ▸ hlong⟩
  rw [ha]
  intro n hn
  rw [List.mem_singleton.1 hn]
  unfold SHORT_TEXT
  omega

theorem Attempt.fits_iff (c : StageContract) (a : Attempt α) :
    a.Fits profile c ↔ ∀ reply, a = .replied reply → reply.Brief profile c := by
  have hst := c.stage.value_length
  cases a with
  | unregistered =>
      refine Iff.intro (fun _ reply h => ?_) fun _ => .of_note rfl ?_
      · cases h
      · simp
        omega
  | late =>
      refine Iff.intro (fun _ reply h => ?_) fun _ => .of_note rfl ?_
      · cases h
      · simp
  | replied reply =>
      have hreply : (∀ reply', Attempt.replied reply = .replied reply' →
          reply'.Brief profile c) ↔ reply.Brief profile c :=
        ⟨fun h => h reply rfl, fun h reply' heq => by cases heq; exact h⟩
      rw [hreply]
      cases reply with
      | cancelled =>
          exact ⟨fun _ => trivial, fun _ => ⟨by simp [Attempt.notes],
            fun _ => failureSummary_nil_length c.stage⟩⟩
      | timedOut =>
          refine ⟨fun _ => trivial, fun _ => .of_note rfl ?_⟩
          simp
      | raised className =>
          have hnote : ("stage_error:".toList ++ className).length = className.length + 12 := by
            simp
          constructor
          · intro h
            have hshort := h.notes _ (List.mem_singleton_self _)
            rw [hnote] at hshort
            refine ⟨hshort, fun hc => ?_⟩
            have hsummary := h.summary (unusable_failed.2 hc)
            rw [Attempt.notes, failureSummary_singleton_length, hnote] at hsummary
            omega
          · rintro ⟨hshort, hsummary⟩
            refine ⟨?_, fun hfailed => ?_⟩
            · intro note hmem
              rw [List.mem_singleton.1 hmem, hnote]
              exact hshort
            · have := hsummary (Attempt.status_failed hfailed)
              rw [Attempt.notes, failureSummary_singleton_length, hnote]
              omega
      | output o =>
          cases hval : validateOutput profile c o with
          | some violation =>
              have hnote : (Attempt.replied (.output o)).notes profile c
                  = ["contract_violation:".toList ++ violation.message] := by
                simp only [Attempt.notes, hval]
              refine Iff.intro (fun _ h => ?_) fun _ => .of_note hnote ?_
              · rw [hval] at h
                cases h
              · have := message_length violation
                simp
                omega
          | none =>
              have hnotes : (Attempt.replied (.output o)).notes profile c
                  = acceptedNotes profile c o := by
                simp only [Attempt.notes, hval]
              have hstatus : (Attempt.replied (.output o)).status profile c
                  = (acceptedStatus profile c o).1 := if_pos hval
              have hown : (∀ note ∈ acceptedNotes profile c o, note.length ≤ SHORT_TEXT)
                  ↔ ∀ note ∈ o.degradations, note.length ≤ SHORT_TEXT := by
                unfold acceptedNotes
                constructor
                · intro h note hnote
                  exact h note (List.mem_eraseDups.2 (List.mem_append_left _ hnote))
                · intro h note hnote
                  rcases List.mem_append.1 (List.mem_eraseDups.1 hnote) with hnote | hnote
                  · exact h note hnote
                  · have := derived_short hnote
                    unfold SHORT_TEXT
                    omega
              constructor
              · intro h _
                exact ⟨hown.1 (hnotes ▸ h.notes), hstatus ▸ hnotes ▸ h.summary⟩
              · intro h
                obtain ⟨hshort, hsummary⟩ := h hval
                exact ⟨hnotes ▸ hown.2 hshort, hstatus ▸ hnotes ▸ hsummary⟩

-- ===== runs

def SummariesFit (results : List (StageResult α)) : Prop :=
  ∀ r ∈ results, r.status = .failed →
    (failureSummary r.stage r.degradations).length ≤ SHORT_TEXT

theorem summariesFit_last {results : List (StageResult α)} {r : StageResult α}
    (hnone : ∀ r' ∈ results, r'.status ≠ .failed) (hfailed : r.status = .failed) :
    SummariesFit (results ++ [r])
      ↔ (failureSummary r.stage r.degradations).length ≤ SHORT_TEXT := by
  constructor
  · intro h
    exact h r (List.mem_append_right _ (List.mem_singleton_self r)) hfailed
  · intro h r' hr' hfailed'
    rcases List.mem_append.1 hr' with hr' | hr'
    · exact absurd hfailed' (hnone r' hr')
    · rw [List.mem_singleton.1 hr']
      exact h

theorem skippedResult_eq (id f : StageId) :
    ∃ r : StageResult α, skippedResult id f = some r ∧ r.stage = id ∧ r.status = .skipped := by
  have hlen : (skipReason f).length ≤ SHORT_TEXT := by
    have := f.value_length
    unfold skipReason SHORT_TEXT
    simp
    omega
  have hne : truthy (some (skipReason f)) = true := by
    unfold skipReason truthy
    simp
  have hvalid : ({ stage := id, status := .skipped, skippedReason := some (skipReason f) } :
      StageRecord α).Valid := by
    refine ⟨fun note hnote => ?_, fun reason hreason => ?_, fun _ => rfl, fun _ => hne⟩
    · cases hnote
    · cases hreason
      exact hlen
  exact ⟨_, StageResult.validate_of_valid hvalid, rfl, rfl⟩

theorem runPlan_skip (request : CouncilRequest) {f : StageId} (rest : List StageId) :
    ∀ {n : Nat} {done : List StageId} {s : CouncilState α}, Ledger R profile done (some f) s →
      (done ++ rest).Nodup →
      ∃ s', runPlan R request profile n rest (some f) s = .finished s'
        ∧ Ledger R profile (done ++ rest) (some f) s'
        ∧ (SummariesFit s'.stageResults ↔ SummariesFit s.stageResults) := by
  induction rest with
  | nil =>
      intro n done s h _
      exact ⟨s, rfl, by rwa [List.append_nil], Iff.rfl⟩
  | cons id rest ih =>
      intro n done s h hnodup
      obtain ⟨r, hr, hstage, hstatus⟩ := skippedResult_eq (α := α) id f
      have hid : id ∉ done := fun hmem =>
        (List.nodup_append.1 hnodup).2.2 id hmem id (List.mem_cons_self ..) rfl
      rw [runPlan, hr]
      dsimp only
      have hskip : Ledger R profile (done ++ [id]) (some f)
          { s.emit .stageSkipped (some id) none [] (skipReason f) with
            stageResults := s.stageResults ++ [r] } :=
        h.skip hid hstage hstatus rfl rfl rfl rfl rfl
      obtain ⟨s', hrun, hledger, hfit⟩ := ih (n := n + 1) hskip (by rwa [List.append_assoc])
      refine ⟨s', hrun, by rwa [List.append_assoc] at hledger, hfit.trans ?_⟩
      unfold SummariesFit
      constructor
      · intro hall r' hr'
        exact hall r' (List.mem_append_left _ hr')
      · intro hall r' hr' hfailed
        rcases List.mem_append.1 hr' with hr' | hr'
        · exact hall r' hr' hfailed
        · rw [List.mem_singleton.1 hr', hstatus] at hfailed
          cases hfailed

inductive PlanCase (R : StagedCouncilRunner α) (profile : RoleProfile) (planned : List StageId)
    (brief : Prop) : PlanEnd α → Prop
  | finished {s : CouncilState α} {f : Option StageId} (hledger : Ledger R profile planned f s)
      (hbrief : brief ↔ SummariesFit s.stageResults) : PlanCase R profile planned brief (.finished s)
  | cancelled {s s' : CouncilState α} {done rest : List StageId} {id : StageId} {remaining : Rat}
      (hplan : planned = done ++ id :: rest) (hledger : Ledger R profile done none s)
      (hleft : Left profile (R.policy.contract id) id (R.attempt id remaining) s s')
      (hbrief : brief) : PlanCase R profile planned brief (.cancelled (some id) s')
  | invalid (hbrief : ¬ brief) : PlanCase R profile planned brief .invalid

/-- What the loop does from a stage on, as long as none has failed: by
induction on the rest of the plan, one stage at a time. -/
theorem runPlan_cases (request : CouncilRequest) (rest : List StageId) :
    ∀ {n : Nat} {done : List StageId} {s : CouncilState α}, Ledger R profile done none s →
      (done ++ rest).Nodup →
      PlanCase R profile (done ++ rest) (Brief R request profile n rest)
        (runPlan R request profile n rest none s) := by
  induction rest with
  | nil =>
      intro n done s h _
      refine .finished (f := none) (by rwa [List.append_nil]) ⟨fun _ r hr hfailed => ?_, fun _ => trivial⟩
      have := h.flagged.2 ⟨r, hr, hfailed⟩
      cases this
  | cons id rest ih =>
      intro n done s h hnodup
      have hnone : ∀ r ∈ s.stageResults, r.status ≠ .failed := by
        intro r hr hfailed
        have := h.flagged.2 ⟨r, hr, hfailed⟩
        cases this
      have hbrief : Brief R request profile n (id :: rest)
          ↔ (R.attempt id (remainingWall R request n)).Fits profile (R.policy.contract id)
            ∧ (¬ (R.attempt id (remainingWall R request n)).Stops profile (R.policy.contract id) →
                Brief R request profile (n + 1) rest) := by
        rw [Attempt.fits_iff]
        exact Iff.rfl
      rw [runPlan]
      cases hend : runStage R profile id rest (remainingWall R request n) s with
      | invalid =>
          have hcase := hend ▸ runStage_cases R profile id rest (remainingWall R request n) s
          cases hcase with
          | invalid hreply hlong => exact .invalid fun hb => hlong (hbrief.1 hb).1.notes
      | cancelled s' =>
          have hcase := hend ▸ runStage_cases R profile id rest (remainingWall R request n) s
          cases hcase with
          | cancelled hreply hleft =>
              have hfits : (R.attempt id (remainingWall R request n)).Fits profile
                  (R.policy.contract id) := by
                rw [Attempt.fits_iff]
                intro reply heq
                rw [hreply] at heq
                cases heq
                trivial
              exact .cancelled rfl h hleft
                (hbrief.2 ⟨hfits, fun hstops => absurd (Or.inl hreply) hstops⟩)
      | result r s' =>
          have hcase := hend ▸ runStage_cases R profile id rest (remainingWall R request n) s
          cases hcase with
          | result hreply hstage hstatus hnotes hleft =>
              have hledger := h.attempt hstage hstatus hleft rfl
              have hnodup' : ((done ++ [id]) ++ rest).Nodup := by rwa [List.append_assoc]
              have hshort : ∀ note ∈ (R.attempt id (remainingWall R request n)).notes profile
                  (R.policy.contract id), note.length ≤ SHORT_TEXT := by
                rw [← hnotes]
                exact r.valid.notes_short
              rw [List.append_cons]
              dsimp only
              by_cases hfailed : r.status = .failed
              · -- the rest is skipped, and this result is the only failed one
                rw [if_pos hfailed] at hledger ⊢
                obtain ⟨s'', hrun, hledger', hfit⟩ := runPlan_skip request rest
                  (n := n + 1) hledger hnodup'
                rw [hrun]
                refine .finished hledger' (hbrief.trans (Iff.trans ?_ hfit.symm))
                show _ ↔ SummariesFit (s'.stageResults ++ [r])
                rw [hleft.stageResults, summariesFit_last hnone hfailed, hnotes, hstage]
                have hstops : (R.attempt id (remainingWall R request n)).Stops profile
                    (R.policy.contract id) := Or.inr (hstatus.symm.trans hfailed)
                have hsummary : (R.attempt id (remainingWall R request n)).Fits profile
                    (R.policy.contract id) ↔ (failureSummary id ((R.attempt id
                      (remainingWall R request n)).notes profile (R.policy.contract id))).length
                        ≤ SHORT_TEXT := by
                  have hid := R.policy.stage_eq id
                  constructor
                  · intro hfits
                    have := hfits.summary (hstatus.symm.trans hfailed)
                    rwa [hid] at this
                  · intro hle
                    exact ⟨hshort, fun _ => by rwa [hid]⟩
                rw [hsummary]
                exact ⟨fun hb => hb.1, fun hle => ⟨hle, fun hn => absurd hstops hn⟩⟩
              · rw [if_neg hfailed] at hledger ⊢
                have hstops : ¬ (R.attempt id (remainingWall R request n)).Stops profile
                    (R.policy.contract id) := by
                  rintro (hc | hf)
                  · exact hreply hc
                  · exact hfailed (hstatus.trans hf)
                have hrest : Brief R request profile n (id :: rest)
                    ↔ Brief R request profile (n + 1) rest := by
                  rw [hbrief]
                  exact ⟨fun hb => hb.2 hstops, fun hb =>
                    ⟨⟨hshort, fun hf => absurd (hstatus.trans hf) hfailed⟩, fun _ => hb⟩⟩
                have hcase := ih (n := n + 1) hledger hnodup'
                rw [← propext hrest] at hcase
                exact hcase

end Velune.Council
