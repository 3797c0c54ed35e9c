import PineScript.Proofs.Session.Steps

/-!
# Bounds on sessions

Steps are taken with a bound on how deep they are nested and on how many passes are run in a row.
From the number of steps on, the bound makes no difference (`performAll_bound`): each step that is
taken while a pass is under way came with the pass, and the queue holds no more steps than were
submitted.
-/

namespace PineScript.Session

variable {setup : Setup} {allowed : StepKind → Bool}
  {perform perform' : Step → State → Report × State} {limit : Nat}

theorem Step.weight_pos (step : Step) : 0 < step.weight := by
  cases step <;> simp only [Step.weight] <;> omega

/-- Two ways to take a step agree as long as no more steps are left than the limit. -/
def Agree (limit : Nat) (allowed : StepKind → Bool)
    (perform perform' : Step → State → Report × State) : Prop :=
  ∀ step s, step.isPlain allowed = true → s.Plain allowed →
    Job.weights s.queue + step.weight ≤ limit → perform step s = perform' step s

section

variable (hperform : Steady setup allowed perform) (hagree : Agree limit allowed perform perform')

include hperform hagree

theorem interrupt_agree {steps : List Step} (hsteps : ∀ step ∈ steps, step.isPlain allowed = true)
    {u : Underway} (hplain : u.1.Plain allowed)
    (hlimit : Job.weights u.1.queue + Step.weights steps ≤ limit) :
    interrupt perform steps u = interrupt perform' steps u := by
  induction steps generalizing u with
  | nil => rfl
  | cons step more ih =>
    have hstep := hsteps step List.mem_cons_self
    have htaken := hperform step u.1 hstep hplain
    have hweight := htaken.weight
    simp only [Step.weights] at hlimit
    rw [interrupt_cons, interrupt_cons, ← hagree step u.1 hstep hplain (by omega)]
    exact ih (fun x hx => hsteps x (List.mem_cons_of_mem _ hx)) htaken.plain (by simp only; omega)

end

/-- Two registries give the same as long as the steps that come with them, and what waits, do not
exceed the limit. -/
def AgreeOn (limit : Nat) (allowed : StepKind → Bool) (job : Job) (program : Program)
    (tokens : List Token) (steps : List Step) (registry registry' : Registry Underway) : Prop :=
  ∀ u : Underway, u.1.Plain allowed → Job.weights u.1.queue + Step.weights steps ≤ limit →
    Engine.run (host job) program tokens registry u =
      Engine.run (host job) program tokens registry' u

section

variable (hperform : Steady setup allowed perform) (hagree : Agree limit allowed perform perform')
  {job : Job} {program : Program} {tokens : List Token}

include hperform hagree

theorem AgreeOn.cons {id : String} {check check' : Check Underway}
    {more more' : Registry Underway} {later : List Step} {verdict : Verdict} (steps : List Step)
    (hsteps : ∀ step ∈ steps, step.isPlain allowed = true)
    (hcheck : ∀ u, check program tokens u = (verdict, interrupt perform steps u))
    (hcheck' : ∀ u, check' program tokens u = (verdict, interrupt perform' steps u))
    (hmore : AgreeOn limit allowed job program tokens later more more') :
    AgreeOn limit allowed job program tokens (steps ++ later) ((id, check) :: more)
      ((id, check') :: more') := by
  intro u hplain hlimit
  rw [Step.weights_append] at hlimit
  obtain ⟨records, hrecords⟩ :=
    contribution_undergo perform job id verdict (interrupt perform steps u)
  -- A failure of the check leaves records between its steps and the later ones.
  have hincidents :
      (steps.map Incident.taken ++ records.map Incident.logged).filterMap Incident.step? = steps := by
    rw [List.filterMap_append, Incident.filterMap_step?_steps, Incident.filterMap_step?_records,
      List.append_nil]
  obtain ⟨_, _, htaken⟩ := undergo_taken hperform (hincidents.symm ▸ hsteps) hplain
  rw [hincidents, undergo_append, undergo_steps, ← hrecords] at htaken
  have hweight := htaken.weight
  have hagrees := interrupt_agree hperform hagree hsteps hplain (by omega)
  simp only [Engine.run, hcheck, hcheck', ← hagrees]
  rw [hmore _ htaken.plain (by omega)]

theorem interruptedRules_agree {after after' : Registry Underway} {later : List Step}
    (hafter : AgreeOn limit allowed job program tokens later after after') (digits : DigitLimit)
    (entries : List Rule) (during : List (List Step))
    (hduring : ∀ step ∈ during.flatten, step.isPlain allowed = true) :
    AgreeOn limit allowed job program tokens (during.flatten ++ later)
      (interruptedRules digits perform entries during ++ after)
      (interruptedRules digits perform' entries during ++ after') := by
  induction entries generalizing during with
  | nil =>
    intro u hplain hlimit
    rw [Step.weights_append] at hlimit
    exact hafter u hplain (by omega)
  | cons rule more ih =>
    cases during with
    | nil =>
      exact .cons hperform hagree [] nofun (fun _ => rfl) (fun _ => rfl) (ih [] nofun)
    | cons steps others =>
      rw [List.flatten_cons] at hduring
      rw [List.flatten_cons, List.append_assoc]
      exact .cons hperform hagree steps (fun x hx => hduring x (List.mem_append_left _ hx))
        (fun _ => rfl) (fun _ => rfl) (ih others fun x hx => hduring x (List.mem_append_right _ hx))

theorem registry_agree (hjob : job.interruptions.Plain allowed) :
    AgreeOn limit allowed job program tokens job.interruptions.steps (registry setup perform job)
      (registry setup perform' job) := by
  have hsteps := hjob.steps
  simp only [Interruptions.steps, List.mem_append, or_imp, forall_and] at hsteps
  obtain ⟨hbefore, hduring, hafter⟩ := hsteps
  have hlast : AgreeOn limit allowed job program tokens (job.interruptions.afterRules ++ [])
      [("HOOK_LAST", pause perform job.interruptions.afterRules)]
      [("HOOK_LAST", pause perform' job.interruptions.afterRules)] :=
    .cons hperform hagree _ hafter (fun _ => rfl) (fun _ => rfl) fun _ _ _ => rfl
  rw [List.append_nil] at hlast
  exact .cons hperform hagree _ hbefore (fun _ => rfl) (fun _ => rfl)
    (interruptedRules_agree hperform hagree hlast setup.digits setup.rules _ hduring)

theorem runJob_agree (hjob : job.interruptions.Plain allowed) {s : State}
    (hplain : s.Plain allowed)
    (hlimit : Job.weights s.queue + job.interruptions.weight ≤ limit) :
    runJob setup perform job s = runJob setup perform' job s := by
  have hsteps := job.interruptions.weights_steps_le
  have hanalysis : Analysis.run (host job) (registry setup perform job) job.source (s, []) =
      Analysis.run (host job) (registry setup perform' job) job.source (s, []) := by
    simp only [Analysis.run]
    rw [registry_agree hperform hagree hjob (s, []) hplain (by simp only; omega)]
  have hconclude (result : Except Stage (List Diagnostic)) (u : Underway) :
      conclude perform job result u = conclude perform' job result u := by
    simp only [conclude, publish, hjob.onDelivery]
    rfl
  simp only [runJob, hanalysis, hconclude]

/-- Each pass that is run makes the queue lighter, so that it is empty before the bound is
reached. -/
theorem drain_agree (bound bound' : Nat) {s : State} (hplain : s.Plain allowed)
    (hbound : Job.weights s.queue ≤ bound) (hbound' : Job.weights s.queue ≤ bound')
    (hlimit : Job.weights s.queue ≤ limit + 1) :
    drain (runJob setup perform) bound s = drain (runJob setup perform') bound' s := by
  induction bound generalizing bound' s with
  | zero =>
    cases hqueue : s.queue with
    | nil => cases bound' <;> simp only [drain, hqueue]
    | cons job more =>
      simp only [hqueue, Job.weights, Job.weight] at hbound
      omega
  | succ bound ih =>
    cases hqueue : s.queue with
    | nil => cases bound' <;> simp only [drain, hqueue]
    | cons job more =>
      simp only [hqueue, Job.weights, Job.weight] at hbound hbound' hlimit
      have hjob : job.interruptions.Plain allowed := hplain job (hqueue ▸ List.mem_cons_self)
      have hnext := Taken.next setup.analysis hplain hqueue
      have hrun := runJob_taken hperform hjob hnext.plain
      have hweight : (Job.weights _ : Int) ≤ Job.weights more + _ := hrun.weight
      have hsame := runJob_agree hperform hagree hjob hnext.plain
        (by change Job.weights more + _ ≤ _; omega)
      obtain ⟨bound', rfl⟩ : ∃ n, bound' = n + 1 := ⟨bound' - 1, by omega⟩
      simp only [drain, hqueue, ← hsame]
      rw [ih bound' hrun.plain (by omega) (by omega) (by omega)]

theorem runOne_agree (kind : StepKind) (number : Int) {s : State} (hplain : s.Plain allowed)
    (hlimit : Job.weights s.queue ≤ limit + 1) :
    runOne (runJob setup perform) kind number s = runOne (runJob setup perform') kind number s := by
  unfold runOne
  split
  · rfl
  · rename_i job rest htake
    have hrest := Taken.take setup.analysis hplain htake
    have hweight := hrest.weight
    simp only [Job.weight] at hweight
    rw [runJob_agree hperform hagree (hplain.of_take htake) hrest.plain (by omega)]

end

/-- A bound on the nesting that exceeds the number of steps makes no difference. -/
theorem performFor_agree (setup : Setup) (limit bound bound' depth depth' : Nat)
    (hbound : limit ≤ bound) (hbound' : limit ≤ bound') (hdepth : limit ≤ depth)
    (hdepth' : limit ≤ depth') :
    Agree limit allowed (performFor setup bound depth) (performFor setup bound' depth') := by
  induction depth generalizing limit depth' with
  | zero =>
    intro step s _ _ hlimit
    have := step.weight_pos
    omega
  | succ depth ih =>
    intro step s hstep hplain hlimit
    have hpos := step.weight_pos
    obtain ⟨limit, rfl⟩ : ∃ n, limit = n + 1 := ⟨limit - 1, by omega⟩
    obtain ⟨depth', rfl⟩ : ∃ n, depth' = n + 1 := ⟨depth' - 1, by omega⟩
    have hperform : Steady setup allowed (performFor setup bound depth) :=
      performFor_taken setup bound depth
    have hagree := ih limit depth' (by omega) (by omega) (by omega) (by omega)
    have hrespond := Taken.respond setup.analysis hplain hstep
    have hweight := hrespond.weight
    cases step with
    | submit uri source i =>
      have hsame := fun number =>
        runOne_agree hperform hagree .submit number hrespond.plain (by omega)
      simp only [performFor]
      split
      · rfl
      · split
        · exact hsame _
        · rfl
    | run number => exact runOne_agree hperform hagree .run number hplain (by omega)
    | runAll =>
      simp only [performFor]
      rw [drain_agree hperform hagree bound bound' hplain (by omega) (by omega) (by omega)]
    | discard uri => rfl
    | close uri => rfl
    | shutdown =>
      have hsame := drain_agree hperform hagree bound bound' hrespond.plain
        (by omega) (by omega) (by omega)
      exact congrArg (fun outcome => outcome.2.report .shutdown (.drained outcome.1)) hsame

/-- From the number of steps on, the bound on a session makes no difference. -/
theorem performAll_bound (setup : Setup) {steps : List Step} {bound bound' : Nat}
    (hsteps : ∀ step ∈ steps, step.isPlain allowed = true) {s : State} (hplain : s.Plain allowed)
    (hbound : Job.weights s.queue + Step.weights steps ≤ bound)
    (hbound' : Job.weights s.queue + Step.weights steps ≤ bound') :
    performAll setup bound steps s = performAll setup bound' steps s := by
  induction steps generalizing s with
  | nil => rfl
  | cons step more ih =>
    simp only [Step.weights] at hbound hbound'
    have hstep := hsteps step List.mem_cons_self
    have htaken := performFor_taken setup bound (bound + 1) step s hstep hplain
    have hweight := htaken.weight
    have hsame := performFor_agree setup (Job.weights s.queue + step.weight) bound bound'
      (bound + 1) (bound' + 1) (by omega) (by omega) (by omega) (by omega) step s hstep hplain
      (Nat.le_refl _)
    simp only [performAll, ← hsame]
    rw [ih (fun x hx => hsteps x (List.mem_cons_of_mem _ hx)) htaken.plain (by omega) (by omega)]

end PineScript.Session
