import PineScript.Proofs.Session.Bounds

/-!
# What passes publish

Main statement: in any session, however its steps are nested, each pass that is run publishes the
analysis of its own text once if nothing takes its place until its analysis has ended, and otherwise
publishes nothing (`passes_settled`).
-/

namespace PineScript.Session

/-- All that happened was reported. -/
def State.AllTold (s : State) : Prop := s.toldHistory = s.history.length

theorem State.AllTold.told_eq {s : State} (h : s.AllTold) :
    s.told = s.history.filterMap Entry.delivery? := by
  unfold State.told
  rw [show s.toldHistory = s.history.length from h, List.take_length]

theorem allTold_report (s : State) (kind : StepKind) (outcome : Outcome) :
    (s.report kind outcome).2.AllTold := rfl

theorem performFor_allTold (setup : Setup) (bound depth : Nat) (step : Step) (s : State) :
    (performFor setup bound depth step s).2.AllTold := by
  have hone (run : Job → State → JobResult × State) (kind : StepKind) (number : Int) (s : State) :
      (runOne run kind number s).2.AllTold := by
    unfold runOne
    split <;> exact allTold_report ..
  cases depth with
  | zero => exact allTold_report ..
  | succ depth =>
    cases step with
    | submit uri source i =>
      simp only [performFor]
      split
      · exact allTold_report ..
      · split
        · exact hone ..
        · exact allTold_report ..
    | run number => exact hone ..
    | runAll | discard _ | close _ | shutdown => exact allTold_report ..

theorem performAll_allTold (setup : Setup) (bound : Nat) (steps : List Step) {s : State}
    (h : s.AllTold) : (performAll setup bound steps s).2.AllTold := by
  induction steps generalizing s with
  | nil => exact h
  | cons step more ih => exact ih (performFor_allTold setup bound (bound + 1) step s)

section

variable {allowed : StepKind → Bool} (setup : Setup) {steps : List Step}
  (hsteps : Step.arePlain allowed steps = true)

/-- The state at the end of a session. -/
def outcome (setup : Setup) (steps : List Step) : State :=
  (performAll setup (Step.weights steps) steps .start).2

theorem plain_start : State.start.Plain allowed := by
  intro job hjob
  cases hjob

include hsteps

/-- A session is an interleaving of its passes. -/
theorem outcome_arises : Arises setup.analysis allowed (outcome setup steps).toLedger [] :=
  (performAll_taken setup _ (Step.arePlain_iff.1 hsteps) plain_start).arises []
    ⟨[], fun _ h => (by cases h), .start⟩

/-- The reports tell all results. -/
theorem replay_results : (Report.allNews (replay setup steps)).filterMap News.result? =
    (outcome setup steps).history.filterMap Entry.result? := by
  obtain ⟨added, hadded, hresults⟩ :=
    (performAll_taken setup _ (Step.arePlain_iff.1 hsteps) plain_start).history
  rw [show (outcome setup steps).history = added from hadded]
  exact hresults

/-- The reports tell all that was sent. -/
theorem replay_deliveries : (Report.allNews (replay setup steps)).filterMap News.delivery? =
    (outcome setup steps).history.filterMap Entry.delivery? := by
  obtain ⟨-, htold⟩ :=
    (performAll_taken setup _ (Step.arePlain_iff.1 hsteps) plain_start).told (Nat.le_refl _)
  have hall : (outcome setup steps).AllTold := performAll_allTold setup _ steps (s := .start) rfl
  exact (hall.told_eq.symm.trans htold).symm

end

/-- Each pass that is run publishes the diagnostics of its own text, once, if and only if no other
pass was submitted for its document, its document was not discarded and the session was not shut
down between its submission and the end of its analysis; it returns whether it published. The
reports tell all results and all that was sent, in order, and the passes of a document publish in
the order of their submission. The bound on the session is no restriction. -/
theorem passes_settled (setup : Setup) (steps : List Step)
    (hsteps : Step.arePlain (fun _ => true) steps = true) :
    let news := Report.allNews (replay setup steps)
    let history := (outcome setup steps).history
    (∀ pass published, (pass, published) ∈ news.filterMap News.result? →
      Settled (analyzeWithin setup.digits setup.rules) history pass published) ∧
    (∀ uri, Ordered history uri) ∧
    news.filterMap News.result? = history.filterMap Entry.result? ∧
    news.filterMap News.delivery? = history.filterMap Entry.delivery? ∧
    ∀ bound, Step.weights steps ≤ bound →
      performAll setup bound steps .start = (replay setup steps, outcome setup steps) := by
  intro news history
  obtain ⟨order, -, hinterleaving⟩ := outcome_arises setup hsteps
  have hresults := replay_results setup hsteps
  refine ⟨?_, hinterleaving.sound.ordered, hresults, replay_deliveries setup hsteps, ?_⟩
  · intro pass published hreturned
    rw [hresults] at hreturned
    obtain ⟨e, he, hresult⟩ := List.mem_filterMap.1 hreturned
    refine hinterleaving.sound.settled pass published ?_
    cases e <;> cases hresult
    exact he
  · intro bound hbound
    refine performAll_bound setup (Step.arePlain_iff.1 hsteps) plain_start ?_ ?_
    · exact Nat.le_trans (Nat.le_of_eq (Nat.zero_add _)) hbound
    · exact Nat.le_of_eq (Nat.zero_add _)

/-- The second pass takes the place of the first while that one is analysing. Its text is another
one, with other diagnostics. -/
theorem passes_settled_resubmitted :
    let steps : List Step :=
      [.submit "a" "(" (.mk [.submit "a" "" .none] [] [] none none), .run 0, .run 1]
    let history := (outcome ⟨[], false, .standard⟩ steps).history
    Step.arePlain (fun _ => true) steps = true ∧
      analyzeWithin .standard [] "(" ≠ analyzeWithin .standard [] "" ∧
      Settled (analyzeWithin .standard []) history 0 false ∧
      Settled (analyzeWithin .standard []) history 1 true := by
  have hsettled := (passes_settled ⟨[], false, .standard⟩
    [.submit "a" "(" (.mk [.submit "a" "" .none] [] [] none none), .run 0, .run 1] rfl).1
  exact ⟨rfl, by decide +kernel, hsettled 0 false (by decide +kernel),
    hsettled 1 true (by decide +kernel)⟩

end PineScript.Session
