import PineScript.Proofs.Analysis.Run
import PineScript.Proofs.Session.Interleaving

/-!
# Passes and the steps that interrupt them

The steps that come while a pass is analysing are taken in order, until the pass is found to be
cancelled at a checkpoint. If it never is, the analysis gives the diagnostics of its text whatever
the steps do. Between the steps a rule that fails leaves a record in the log. So a pass amounts to
going through some of its steps and such records, and then coming to an end (`runJob_eq`).
-/

namespace PineScript.Session

/-! ## Plain steps -/

mutual

/-- Whether only steps of the allowed kinds come, passes end without a fault, and no steps come
while a result is delivered. -/
def Step.isPlain (allowed : StepKind → Bool) : Step → Bool
  | .submit _ _ i => allowed .submit && i.isPlain allowed
  | .run _ => allowed .run
  | .runAll => allowed .runAll
  | .discard _ => allowed .discard
  | .close _ => allowed .close
  | .shutdown => allowed .shutdown

def Interruptions.isPlain (allowed : StepKind → Bool) : Interruptions → Bool
  | .mk before after onDelivery deliveryFault analysisFault =>
    Step.arePlain allowed before && Step.arePlain allowed after && onDelivery.isEmpty
      && deliveryFault.isNone && analysisFault.isNone
  | .during rules others => Step.areAllPlain allowed rules && others.isPlain allowed

def Step.arePlain (allowed : StepKind → Bool) : List Step → Bool
  | [] => true
  | step :: more => step.isPlain allowed && Step.arePlain allowed more

def Step.areAllPlain (allowed : StepKind → Bool) : List (List Step) → Bool
  | [] => true
  | steps :: more => Step.arePlain allowed steps && Step.areAllPlain allowed more

end

variable {allowed : StepKind → Bool}

theorem Step.allowed_of_isPlain {step : Step} (h : step.isPlain allowed = true) :
    allowed step.kind = true := by
  cases step with
  | submit uri source i => exact (Bool.and_eq_true_iff.1 h).1
  | run _ | runAll | discard _ | close _ | shutdown => exact h

theorem Step.arePlain_iff {steps : List Step} :
    Step.arePlain allowed steps = true ↔ ∀ step ∈ steps, step.isPlain allowed = true := by
  induction steps with
  | nil => simp [arePlain]
  | cons step more ih => simp [arePlain, ih]

theorem Step.areAllPlain_iff {rules : List (List Step)} :
    Step.areAllPlain allowed rules = true ↔
      ∀ step ∈ rules.flatten, step.isPlain allowed = true := by
  induction rules with
  | nil => simp [areAllPlain]
  | cons steps more ih =>
    simp only [areAllPlain, Bool.and_eq_true, arePlain_iff, ih, List.flatten_cons, List.mem_append,
      or_imp, forall_and]

namespace Interruptions

/-- All steps that come while the pass is analysing, in order. -/
def steps (i : Interruptions) : List Step :=
  i.beforeRules ++ (i.duringRules.flatten ++ i.afterRules)

/-- What it means for interruptions to be plain. -/
structure Plain (allowed : StepKind → Bool) (i : Interruptions) : Prop where
  steps : ∀ step ∈ i.steps, step.isPlain allowed = true
  onDelivery : i.onDelivery = []
  deliveryFault : i.deliveryFault = .none
  analysisFault : i.analysisFault = .none

theorem plain : (i : Interruptions) → i.isPlain allowed = true → i.Plain allowed
  | .mk before after onDelivery deliveryFault analysisFault, h => by
    simp only [isPlain, Bool.and_eq_true, Step.arePlain_iff, List.isEmpty_iff,
      Option.isNone_iff_eq_none] at h
    obtain ⟨⟨⟨⟨hbefore, hafter⟩, hdelivery⟩, hdeliveryFault⟩, hanalysisFault⟩ := h
    refine ⟨fun step hstep => ?_, hdelivery, hdeliveryFault, hanalysisFault⟩
    rcases List.mem_append.1 hstep with hstep | hstep
    · exact hbefore step hstep
    · exact hafter step hstep
  | .during rules others, h => by
    simp only [isPlain, Bool.and_eq_true, Step.areAllPlain_iff] at h
    have hothers := plain others h.2
    refine ⟨fun step hstep => ?_, hothers.onDelivery, hothers.deliveryFault, hothers.analysisFault⟩
    simp only [Interruptions.steps, beforeRules, duringRules, afterRules, List.mem_append] at hstep
    have hothersSteps := hothers.steps step
    simp only [Interruptions.steps, List.mem_append] at hothersSteps
    rcases hstep with hstep | hstep | hstep
    · exact hothersSteps (.inl hstep)
    · exact h.1 step hstep
    · exact hothersSteps (.inr (.inr hstep))

end Interruptions

/-! ## Analyses -/

/-- What a session finds in a text. -/
abbrev Setup.analysis (setup : Setup) : String → List Diagnostic :=
  analyzeWithin setup.digits setup.rules

variable {perform : Step → State → Report × State}

theorem interrupt_cons (step : Step) (steps : List Step) (u : Underway) :
    interrupt perform (step :: steps) u =
      interrupt perform steps ((perform step u.1).2, u.2 ++ [(perform step u.1).1]) :=
  rfl

/-- What befalls a pass while it is analysing. -/
inductive Incident where
  | taken (step : Step)
  /-- A rule fails. -/
  | logged (record : LogRecord)

def Incident.step? : Incident → Option Step
  | .taken step => some step
  | .logged _ => none

theorem Incident.filterMap_step?_steps (steps : List Step) :
    (steps.map taken).filterMap step? = steps := by
  simp [List.filterMap_map, Function.comp_def, step?]

theorem Incident.filterMap_step?_records (records : List LogRecord) :
    (records.map logged).filterMap step? = [] := by
  simp [step?]

/-- Takes the steps and keeps the records. -/
def undergo (perform : Step → State → Report × State) : List Incident → Underway → Underway
  | [], u => u
  | .taken step :: more, u =>
    undergo perform more ((perform step u.1).2, u.2 ++ [(perform step u.1).1])
  | .logged r :: more, u => undergo perform more (u.1.addLog r, u.2)

theorem undergo_append (front behind : List Incident) (u : Underway) :
    undergo perform (front ++ behind) u = undergo perform behind (undergo perform front u) := by
  induction front generalizing u with
  | nil => rfl
  | cons incident more ih => cases incident <;> exact ih _

theorem undergo_steps (steps : List Step) (u : Underway) :
    undergo perform (steps.map .taken) u = interrupt perform steps u := by
  induction steps generalizing u with
  | nil => rfl
  | cons step more ih => exact ih _

/-- What a verdict does to a pass under way. -/
theorem contribution_undergo (perform : Step → State → Report × State) (job : Job) (id : String)
    (verdict : Verdict) (u : Underway) : ∃ records : List LogRecord,
      (Engine.contribution (host job) id verdict u).2 =
        undergo perform (records.map .logged) u := by
  unfold Engine.contribution
  cases verdict.diagnostics with
  | ok ds => exact ⟨[], rfl⟩
  | error failure => exact ⟨[Engine.failureRecord id failure], rfl⟩

/-- Of the steps that come meanwhile, some were taken; the result is the expected one, unless the
pass was cancelled. -/
def Interrupted (perform : Step → State → Report × State) (job : Job) (steps : List Step)
    (ds : List Diagnostic) (u : Underway)
    (outcome : Except Stage (List Diagnostic) × Underway) : Prop :=
  ∃ taken, (taken.filterMap Incident.step?).Sublist steps ∧ outcome.2 = undergo perform taken u ∧
    (outcome.1 = .ok ds ∨
      (∃ stage, outcome.1 = .error stage) ∧ (host job).cancelled outcome.2 = true)

namespace Interrupted

variable {job : Job} {program : Program} {tokens : List Token}

theorem nil (u : Underway) :
    Interrupted perform job [] [] u (Engine.run (host job) program tokens [] u) :=
  ⟨[], .slnil, rfl, .inl rfl⟩

/-- One check with the steps that come during it, and then the others. -/
theorem cons {id : String} {check : Check Underway} {more : Registry Underway} {verdict : Verdict}
    {own ds : List Diagnostic} {later : List Step} (steps : List Step)
    (hcheck : ∀ u, check program tokens u = (verdict, interrupt perform steps u))
    (hown : ∀ u, (Engine.contribution (host job) id verdict u).1 = own)
    (hmore : ∀ u, Interrupted perform job later ds u (Engine.run (host job) program tokens more u))
    (u : Underway) :
    Interrupted perform job (steps ++ later) (own ++ ds) u
      (Engine.run (host job) program tokens ((id, check) :: more) u) := by
  unfold Engine.run
  split
  · rename_i hcancelled
    exact ⟨[], List.nil_sublist _, rfl, .inr ⟨⟨_, rfl⟩, hcancelled⟩⟩
  · simp only [hcheck, hown]
    obtain ⟨records, hrecords⟩ :=
      contribution_undergo perform job id verdict (interrupt perform steps u)
    rw [hrecords]
    obtain ⟨taken, htaken, hstate, hresult⟩ :=
      hmore (undergo perform (records.map .logged) (interrupt perform steps u))
    refine ⟨steps.map .taken ++ (records.map .logged ++ taken), ?_, ?_, ?_⟩
    · rw [List.filterMap_append, List.filterMap_append, Incident.filterMap_step?_steps,
        Incident.filterMap_step?_records, List.nil_append]
      exact (List.Sublist.refl steps).append htaken
    · rw [hstate, undergo_append, undergo_append, undergo_steps]
    · rcases hresult with hresult | ⟨⟨stage, hresult⟩, hcancelled⟩
      · rw [hresult]
        exact .inl rfl
      · rw [hresult]
        exact .inr ⟨⟨stage, rfl⟩, hcancelled⟩

/-- The rules, each with the steps that come during it, and then other checks. -/
theorem rules {digits : DigitLimit} {after : Registry Underway} {later : List Step}
    {ds : List Diagnostic}
    (hafter : ∀ u, Interrupted perform job later ds u
      (Engine.run (host job) program tokens after u))
    (rules : List Rule) (during : List (List Step)) (u : Underway) :
    Interrupted perform job (during.flatten ++ later)
      (rules.flatMap (fun rule => rule.report digits program tokens) ++ ds) u
      (Engine.run (host job) program tokens
        (interruptedRules digits perform rules during ++ after) u) := by
  induction rules generalizing during u with
  | nil =>
    obtain ⟨taken, htaken, hrest⟩ := hafter u
    exact ⟨taken, htaken.trans (List.sublist_append_right ..), hrest⟩
  | cons rule more ih =>
    have hown (u : Underway) : (Engine.contribution (host job) rule.id
        (rule.verdict digits program tokens) u).1 = rule.report digits program tokens := by
      rw [Engine.contribution_verdict]
    rw [List.flatMap_cons, List.append_assoc]
    cases during with
    | nil => exact cons [] (fun _ => rfl) hown (ih []) u
    | cons steps others =>
      rw [List.flatten_cons, List.append_assoc]
      exact cons steps (fun _ => rfl) hown (ih others) u

end Interrupted

theorem registry_interrupted (perform : Step → State → Report × State) (setup : Setup)
    (job : Job) (program : Program) (tokens : List Token) (u : Underway) :
    Interrupted perform job job.interruptions.steps
      (setup.rules.flatMap fun rule => rule.report setup.digits program tokens) u
      (Engine.run (host job) program tokens (registry setup perform job) u) := by
  have hlast (u : Underway) : Interrupted perform job job.interruptions.afterRules [] u
      (Engine.run (host job) program tokens
        [("HOOK_LAST", pause perform job.interruptions.afterRules)] u) := by
    simpa using Interrupted.cons _ (fun _ => rfl) (fun _ => rfl) Interrupted.nil u
  have hall : Interrupted perform job job.interruptions.steps
      ([] ++ (setup.rules.flatMap (fun rule => rule.report setup.digits program tokens) ++ [])) u
      (Engine.run (host job) program tokens (registry setup perform job) u) :=
    .cons _ (fun _ => rfl) (fun _ => rfl)
      (.rules hlast setup.rules job.interruptions.duringRules) u
  simpa using hall

/-- The steps of a pass are taken as long as it is not cancelled, and only then does it fail to give
the diagnostics of its text. -/
theorem analysis_interrupted (perform : Step → State → Report × State) (setup : Setup)
    (job : Job) (u : Underway) :
    ∃ taken log, (taken.filterMap Incident.step?).Sublist job.interruptions.steps ∧
      let u' := undergo perform taken u
      let outcome := Analysis.run (host job) (registry setup perform job) job.source u
      outcome.2 = ({ u'.1 with log := log }, u'.2) ∧
      (outcome.1 = .ok (setup.analysis job.source) ∨
        (∃ stage, outcome.1 = .error stage) ∧ u'.1.schedule.isCancelled job.number = true) := by
  simp only [Analysis.run]
  by_cases hcancelled : (host job).cancelled u = true
  · refine ⟨[], u.1.log, List.nil_sublist _, ?_⟩
    simp only [hcancelled, ↓reduceIte]
    exact ⟨rfl, .inr ⟨⟨_, rfl⟩, hcancelled⟩⟩
  · simp only [hcancelled, Bool.false_eq_true, ↓reduceIte]
    obtain ⟨taken, htaken, hstate, hresult⟩ := registry_interrupted perform setup job
      (Program.parse (tokenize job.source)).1 (tokenize job.source) u
    generalize Engine.run .. = outcome at hstate hresult ⊢
    obtain ⟨result, u'⟩ := outcome
    obtain rfl : u' = _ := hstate
    rcases hresult with rfl | ⟨⟨stage, rfl⟩, hcancelled⟩
    · exact ⟨taken, _, htaken, rfl, .inl rfl⟩
    · exact ⟨taken, _, htaken, rfl, .inr ⟨⟨stage, rfl⟩, hcancelled⟩⟩

/-- A pass takes some of the steps that come with it. Then it publishes the diagnostics of its text
if it is the one that counts. -/
theorem runJob_eq (perform : Step → State → Report × State) (setup : Setup) (job : Job)
    (hplain : job.interruptions.Plain allowed) (s : State) :
    ∃ taken log, (taken.filterMap Incident.step?).Sublist job.interruptions.steps ∧
      let u := undergo perform taken (s, [])
      runJob setup perform job s =
        (.mk job.number (u.1.schedule.isCurrent job.uri job.number) u.2,
          { u.1 with toLedger := u.1.conclude job (setup.analysis job.source), log := log }) := by
  obtain ⟨taken, log, htaken, hstate, hresult⟩ :=
    analysis_interrupted perform setup job (s, [])
  simp only [runJob, hplain.analysisFault]
  generalize Analysis.run .. = outcome at hstate hresult ⊢
  generalize hu : undergo perform taken (s, []) = u at hstate hresult
  obtain ⟨result, u'⟩ := outcome
  obtain rfl : u' = _ := hstate
  obtain ⟨state, reports⟩ := u
  rcases hresult with rfl | ⟨⟨stage, rfl⟩, hcancelled⟩
  · cases hcurrent : state.schedule.isCurrent job.uri job.number with
    | true =>
      refine ⟨taken, log, htaken, ?_⟩
      rw [hu]
      simp [conclude, publish, State.update, Ledger.record, Ledger.finish, Ledger.conclude, ending,
        hplain.onDelivery, hplain.deliveryFault, interrupt, hcurrent]
    | false =>
      refine ⟨taken, log ++ [outdated job.uri], htaken, ?_⟩
      rw [hu]
      simp [conclude, State.update, State.addLog, host, Ledger.record, Ledger.conclude, ending,
        hcurrent]
  · have hcurrent : state.schedule.isCurrent job.uri job.number = false := by
      simp [Schedule.isCurrent, hcancelled]
    refine ⟨taken, log ++ [superseded job.uri stage], htaken, ?_⟩
    rw [hu]
    simp [conclude, State.update, State.addLog, host, Ledger.record, Ledger.conclude, ending,
      hcurrent]

end PineScript.Session
