/-
The outcome of a council run, read off the invariant of its loop.

`Kept` is everything the runner promises about the end of a run;
`council_ends` says it holds exactly when every stage that is started
replies briefly. The failing side is not about a rare reply: the field
of `StageOutput` that holds the degradations has no limit, and a class
name has none either, while `StageResult` and `CouncilOutcome` cut at
300 characters and are built outside every `try`.
-/
import Velune.Council.Proofs.Runner

namespace Velune.Council

open Lib

variable {α : Type} {R : StagedCouncilRunner α} {request : CouncilRequest} {profile : RoleProfile}

-- ===== outcomes

structure Orderly (R : StagedCouncilRunner α) (profile : RoleProfile) (planned : List StageId)
    (o : CouncilOutcome α) (s : CouncilState α) : Prop where
  failed_iff : o.status = .failed ↔ ∃ r ∈ o.stageResults, r.status = .failed
  required : ∀ r ∈ o.stageResults, r.status = .failed →
    (R.policy.contract r.stage).criticality = .required
  idle : o.stageResults.Pairwise fun a b => a.status = .failed → Idle s.invoked b
  succeeded : o.answer ≠ none ∨ o.artifacts ≠ [] → o.status = .completed ∨ o.status = .degraded
  accepted : Accepted R profile planned s.store o.artifacts o.answer

/-- What the runner promises about the end of a run over `planned`. -/
def Kept (R : StagedCouncilRunner α) (profile : RoleProfile) (planned : List StageId) :
    RunEnd α → Prop
  | .returned o s =>
      Orderly R profile planned o s ∧ o.status ≠ .cancelled
        ∧ o.stageResults.map (·.stage) = planned
  | .cancelled o s =>
      Orderly R profile planned o s ∧ o.status = .cancelled
        ∧ o.stageResults.map (·.stage) <+: planned
  | .refused | .crashed => False

theorem succeeded_iff {st : OutcomeStatus} :
    st.succeeded = true ↔ st = .completed ∨ st = .degraded := by
  cases st <;> simp [OutcomeStatus.succeeded]

theorem Accepted.nothing {planned : List StageId} {store : List (StoredArtifact α)}
    {artifacts : List Artifact} {answer : Option PyStr}
    (h : Accepted R profile planned store artifacts answer) :
    Accepted R profile planned store [] none :=
  ⟨h.store, by simp, by simp⟩

theorem deriveOutcomeStatus_failed (results : List (StageResult α)) (fallbackUsed : Bool) :
    deriveOutcomeStatus results fallbackUsed = .failed ↔ ∃ r ∈ results, r.status = .failed := by
  have hany : results.any (·.status == .failed) = true
      ↔ ∃ r ∈ results, r.status = .failed := by
    simp
  unfold deriveOutcomeStatus
  by_cases h : results.any (·.status == .failed) = true
  · rw [if_pos h]
    exact ⟨fun _ => hany.1 h, fun _ => rfl⟩
  · rw [if_neg h]
    refine ⟨fun hs => ?_, fun hs => absurd (hany.2 hs) h⟩
    split_ifs at hs

theorem deriveOutcomeStatus_ne_cancelled (results : List (StageResult α)) (fallbackUsed : Bool) :
    deriveOutcomeStatus results fallbackUsed ≠ .cancelled := by
  unfold deriveOutcomeStatus
  split_ifs <;> simp

/-- The notes of an outcome are notes of its stage results, so they are
short. -/
theorem outcome_notes_short {results : List (StageResult α)} {note : PyStr}
    (h : note ∈ (results.flatMap (·.degradations)).eraseDups) : note.length ≤ SHORT_TEXT := by
  obtain ⟨r, -, hnote⟩ := List.mem_flatMap.1 (List.mem_eraseDups.1 h)
  exact r.valid.notes_short note hnote

structure Reports (s : CouncilState α) (st : OutcomeStatus) (o : CouncilOutcome α) : Prop where
  status : o.status = st
  stageResults : o.stageResults = s.stageResults
  answer : o.answer = if st.succeeded then s.answer else none
  artifacts : o.artifacts = if st.succeeded then s.artifacts else []

theorem outcome_succeeded (R : StagedCouncilRunner α) (request : CouncilRequest)
    (profile : RoleProfile) (s : CouncilState α) {status : OutcomeStatus}
    (hst : status.succeeded = true) (failure : Option PyStr) :
    ∃ o, outcome R request profile s status failure = some o ∧ Reports s status o := by
  unfold outcome
  refine ⟨_, CouncilOutcome.validate_of_valid ⟨?_, ?_, ?_, ?_, ?_⟩, rfl, rfl, rfl, rfl⟩
  · exact fun note hnote => outcome_notes_short hnote
  · intro text htext
    rw [Option.mem_def] at htext
    dsimp only at htext
    rw [if_pos hst] at htext
    cases htext
  · intro hfalse
    rw [hst] at hfalse
    cases hfalse
  · intro hfailed
    rw [show status = .failed from hfailed] at hst
    cases hst
  · exact fun _ => if_pos hst

/-- The outcome of a run that did not can be built iff its summary
fits. -/
theorem outcome_failed (R : StagedCouncilRunner α) (request : CouncilRequest)
    (profile : RoleProfile) (s : CouncilState α) {status : OutcomeStatus} {summary : PyStr}
    (hst : status.succeeded = false) (hne : summary ≠ []) :
    (summary.length ≤ SHORT_TEXT →
        ∃ o, outcome R request profile s status (some summary) = some o ∧ Reports s status o)
      ∧ (¬ summary.length ≤ SHORT_TEXT →
          outcome R request profile s status (some summary) = none) := by
  have hnot : ¬ status.succeeded = true := by simp [hst]
  unfold outcome
  constructor
  · intro hlen
    refine ⟨_, CouncilOutcome.validate_of_valid ⟨?_, ?_, ?_, ?_, ?_⟩, rfl, rfl, rfl, rfl⟩
    · exact fun note hnote => outcome_notes_short hnote
    · intro text htext
      rw [Option.mem_def] at htext
      dsimp only at htext
      rw [if_neg hnot] at htext
      cases htext
      exact hlen
    · exact fun _ => if_neg hnot
    · intro _
      show truthy (if status.succeeded = true then none else some summary) = true
      rw [if_neg hnot]
      simpa [truthy] using hne
    · exact fun htrue => absurd htrue hnot
  · intro hlen
    refine CouncilOutcome.validate_of_not fun hvalid => hlen (hvalid.summary_short summary ?_)
    exact if_neg hnot

theorem Ledger.orderly {planned done : List StageId} {f : Option StageId} {s s' : CouncilState α}
    {status : OutcomeStatus} {o : CouncilOutcome α} (h : Ledger R profile done f s)
    (hresults : s'.stageResults = s.stageResults)
    (hidle : f ≠ none → s'.invoked = s.invoked)
    (haccepted : Accepted R profile planned s'.store s'.artifacts s'.answer)
    (hfailed : status = .failed ↔ ∃ r ∈ s.stageResults, r.status = .failed)
    (ho : Reports s' status o) : Orderly R profile planned o s' := by
  have hres : o.stageResults = s.stageResults := ho.stageResults.trans hresults
  refine ⟨?_, ?_, ?_, ?_, ?_⟩
  · rw [ho.status, hres]
    exact hfailed
  · rw [hres]
    exact h.required
  · rw [hres]
    cases f with
    | some f =>
        rw [hidle (by simp)]
        exact h.idle
    | none =>
        refine List.Pairwise.imp_of_mem (fun ha _ _ hfailed => ?_) h.idle
        have := h.flagged.2 ⟨_, ha, hfailed⟩
        cases this
  · rw [ho.status, ho.answer, ho.artifacts, ← succeeded_iff]
    intro hsome
    by_contra hnot
    rw [if_neg hnot, if_neg hnot] at hsome
    exact hsome.elim (fun h => h rfl) (fun h => h rfl)
  · rw [ho.answer, ho.artifacts]
    split_ifs
    · exact haccepted
    · exact haccepted.nothing

theorem Ledger.first_failed {done : List StageId} {f : Option StageId} {s : CouncilState α}
    {first r : StageResult α} (h : Ledger R profile done f s)
    (hfirst : s.stageResults.find? (·.status == .failed) = some first) (hr : r ∈ s.stageResults)
    (hfailed : r.status = .failed) : r = first := by
  obtain ⟨hf, before, after, hsplit, hbefore⟩ := List.find?_eq_some_iff_append.1 hfirst
  have hidle := h.idle
  rw [hsplit] at hr hidle
  rcases List.mem_append.1 hr with hr | hr
  · have := hbefore r hr
    simp [hfailed] at this
  · rcases List.mem_cons.1 hr with hr | hr
    · exact hr
    · have hskipped := (List.pairwise_cons.1 (List.pairwise_append.1 hidle).2.1).1 r hr
        (by simpa using hf)
      rw [hskipped.1] at hfailed
      cases hfailed

theorem deriveOutcomeStatus_succeeded (results : List (StageResult α)) (fallbackUsed : Bool) :
    (deriveOutcomeStatus results fallbackUsed).succeeded = true
      ↔ ¬ ∃ r ∈ results, r.status = .failed := by
  have hne := deriveOutcomeStatus_ne_cancelled results fallbackUsed
  rw [← deriveOutcomeStatus_failed results fallbackUsed]
  cases hd : deriveOutcomeStatus results fallbackUsed with
  | completed | degraded | failed => simp [OutcomeStatus.succeeded]
  | cancelled => exact absurd hd hne

theorem failureSummary_ne_nil (st : StageId) (notes : List PyStr) : failureSummary st notes ≠ [] := by
  have hwords : (" failed: ".toList).length = 9 := by simp
  intro hnil
  have hlen := congrArg List.length hnil
  rw [failureSummary, List.length_append, List.length_append, hwords, List.length_nil] at hlen
  omega

theorem finish_kept {planned : List StageId} {f : Option StageId} {s : CouncilState α}
    (h : Ledger R profile planned f s) :
    Kept R profile planned (finish R request profile s) ↔ SummariesFit s.stageResults := by
  have hkept : ∀ {o : CouncilOutcome α} {s' : CouncilState α},
      s' = s.emit .runFinished none none
        (deriveOutcomeStatus s.stageResults s.deterministicFallbackUsed).value [] →
      Reports s' (deriveOutcomeStatus s.stageResults s.deterministicFallbackUsed) o →
      Kept R profile planned (.returned o s') := by
    intro o s' hs' ho
    subst hs'
    refine ⟨h.orderly rfl (fun _ => rfl) h.accepted (deriveOutcomeStatus_failed _ _) ho, ?_, ?_⟩
    · rw [ho.status]
      exact deriveOutcomeStatus_ne_cancelled _ _
    · rw [ho.stageResults]
      exact h.stages
  have hemit : (s.emit .runFinished none none
      (deriveOutcomeStatus s.stageResults s.deterministicFallbackUsed).value []).stageResults
        = s.stageResults := rfl
  unfold finish
  dsimp only
  rw [hemit]
  cases hfind : s.stageResults.find? (·.status == .failed) with
  | none =>
      have hnone : ¬ ∃ r ∈ s.stageResults, r.status = .failed := by
        rintro ⟨r, hr, hfailed⟩
        have := List.find?_eq_none.1 hfind r hr
        simp [hfailed] at this
      obtain ⟨o, ho, hreports⟩ := outcome_succeeded R request profile
        (s.emit .runFinished none none
          (deriveOutcomeStatus s.stageResults s.deterministicFallbackUsed).value [])
        ((deriveOutcomeStatus_succeeded _ s.deterministicFallbackUsed).2 hnone) none
      rw [Option.map_none, ho]
      exact ⟨fun _ r hr hfailed => absurd ⟨r, hr, hfailed⟩ hnone, fun _ => hkept rfl hreports⟩
  | some first =>
      have hfirst := List.mem_of_find?_eq_some hfind
      have hfailed : first.status = .failed := by simpa using List.find?_some hfind
      have hst : (deriveOutcomeStatus s.stageResults s.deterministicFallbackUsed).succeeded
          = false := by
        rw [(deriveOutcomeStatus_failed _ _).2 ⟨first, hfirst, hfailed⟩]
        rfl
      have hfit : SummariesFit s.stageResults
          ↔ (failureSummary first.stage first.degradations).length ≤ SHORT_TEXT := by
        refine ⟨fun hall => hall first hfirst hfailed, fun hle r hr hr' => ?_⟩
        rw [h.first_failed hfind hr hr']
        exact hle
      obtain ⟨hfits, hlong⟩ := outcome_failed R request profile
        (s.emit .runFinished none none
          (deriveOutcomeStatus s.stageResults s.deterministicFallbackUsed).value [])
        hst (failureSummary_ne_nil first.stage first.degradations)
      rw [Option.map_some, hfit]
      by_cases hlen : (failureSummary first.stage first.degradations).length ≤ SHORT_TEXT
      · obtain ⟨o, ho, hreports⟩ := hfits hlen
        rw [ho]
        exact ⟨fun _ => hlen, fun _ => hkept rfl hreports⟩
      · rw [hlong hlen]
        exact ⟨fun hcrash => hcrash.elim, fun hle => absurd hle hlen⟩

theorem cancelled_kept {done rest : List StageId} {id : StageId} {remaining : Rat}
    {s s' : CouncilState α} (h : Ledger R profile done none s)
    (hleft : Left profile (R.policy.contract id) id (R.attempt id remaining) s s') :
    Kept R profile (done ++ id :: rest) (cancelledOutcome R request profile (some id) s') := by
  have hlen : ("cancelled during ".toList ++ id.value).length ≤ SHORT_TEXT := by
    have := id.value_length
    unfold SHORT_TEXT
    simp
    omega
  have hnone : ¬ ∃ r ∈ s.stageResults, r.status = .failed := by
    intro hfailed
    have := h.flagged.2 hfailed
    cases this
  have hst : OutcomeStatus.cancelled.succeeded = false := rfl
  have hne : "cancelled during ".toList ++ id.value ≠ [] := by simp
  obtain ⟨o, ho, hreports⟩ := (outcome_failed R request profile
    (s'.emit .cancelled (some id) none [] id.value) hst hne).1 hlen
  unfold cancelledOutcome
  dsimp only [Option.elim]
  rw [ho]
  have haccepted : Accepted R profile (done ++ id :: rest) s'.store s'.artifacts s'.answer := by
    refine (hleft.accepted h.accepted).mono fun x hx => ?_
    rw [List.append_cons]
    exact List.mem_append_left _ hx
  have hfailed : OutcomeStatus.cancelled = .failed ↔ ∃ r ∈ s.stageResults, r.status = .failed := by
    simpa using hnone
  refine ⟨h.orderly hleft.stageResults (fun hf => absurd rfl hf) haccepted hfailed hreports,
    hreports.status, ?_⟩
  · rw [hreports.stageResults]
    show s'.stageResults.map (·.stage) <+: _
    rw [hleft.stageResults, h.stages]
    exact List.prefix_append _ _

-- ===== the run

theorem plannedStages_nodup {plan : Option (List StageId)} {planned : List StageId}
    (h : plannedStages request plan = some planned) : planned.Nodup := by
  cases plan with
  | some plan => exact (validatePlan_eq_some h).2
  | none =>
      cases h
      cases request.depth <;> decide

def perspectiveSeat (id : String) (h : matchesSlug id.toList = true) : SeatSpec :=
  ⟨id.toList, .perspective, h⟩

theorem analyst_slug : matchesSlug "analyst".toList = true := by decide

theorem skeptic_slug : matchesSlug "skeptic".toList = true := by decide

/-- The seats and the quorum of `GENERAL_PROFILE`. -/
def generalProfile : RoleProfile where
  id := "general".toList
  domain := .general
  perspectiveSeats := [perspectiveSeat "analyst" analyst_slug, perspectiveSeat "skeptic" skeptic_slug,
    perspectiveSeat "creative" (by decide), perspectiveSeat "fact_checker" (by decide),
    perspectiveSeat "practicalist" (by decide)]
  moderator := ⟨"moderator".toList, .moderator, by decide⟩
  arbitrator := ⟨"arbitrator".toList, .arbitrator, by decide⟩
  synthesizer := ⟨"synthesizer".toList, .synthesizer, by decide⟩
  runnable := true
  defaultQuorum := { minOk := 3, requireAnyOf := ["skeptic".toList, "fact_checker".toList] }
  id_ok := by decide
  perspectives_min := by decide
  perspectives_max := by decide
  perspectives_kind := by decide
  moderator_kind := rfl
  arbitrator_kind := rfl
  synthesizer_kind := rfl
  ids_unique := by decide
  quorum_named := by decide
  quorum_fits := by decide

/-- A runner with only the frame stage registered, and how that stage
behaves. -/
def frameRunner (reply : StageReply Unit) : StagedCouncilRunner Unit where
  registry := ⟨Dict.empty.insert "general".toList generalProfile⟩
  stages
    | .frame => some { contract := STAGE_CONTRACTS .frame, reply := reply }
    | _ => none
  clock := fun _ => 0
  runId := "run-1".toList
  digest := fun _ => []
  stages_ok := by
    intro id st h
    cases id <;> cases h
    rfl

def wordyRunner : StagedCouncilRunner Unit :=
  frameRunner (.output { degradations := [List.replicate 301 'x'] })

def RunEnd.crashes : RunEnd α → Bool
  | .crashed => true
  | .returned .. | .cancelled .. | .refused => false

theorem Kept.not_crashes {planned : List StageId} {e : RunEnd α} (h : Kept R profile planned e) :
    e.crashes = false := by
  cases e with
  | returned | cancelled => rfl
  | refused | crashed => exact h.elim

end Velune.Council
