import PineScript.Proofs.Session.Passes

/-!
# Taking steps

`Taken` says what taking steps does to a session: the ledger stays one of an interleaving of its
passes, the queue gains no more weight than the steps have, and the reports tell what is entered in
the history. Steps that come one after the other add up (`Taken.trans`), so that what is shown for
one kind of change after the other holds of all the steps of a session (`performAll_taken`).
-/

namespace PineScript.Session

/-! ## Weights -/

namespace Step

theorem weights_append (front behind : List Step) :
    weights (front ++ behind) = weights front + weights behind := by
  induction front with
  | nil => simp [weights]
  | cons step more ih => simp only [List.cons_append, weights, ih, Nat.add_assoc]

theorem weights_flatten (rules : List (List Step)) :
    weights rules.flatten = totalWeights rules := by
  induction rules with
  | nil => rfl
  | cons steps more ih => simp only [List.flatten_cons, weights_append, totalWeights, ih]

theorem weights_le_of_sublist {taken steps : List Step} (h : taken.Sublist steps) :
    weights taken ≤ weights steps := by
  induction h with
  | slnil => exact Nat.le_refl _
  | cons step _ ih => exact Nat.le_trans ih (Nat.le_add_left ..)
  | cons_cons step _ ih => exact Nat.add_le_add_left ih _

end Step

/-- The steps that come while a pass is analysing are among those that its weight counts. -/
theorem Interruptions.weights_steps_le : (i : Interruptions) → Step.weights i.steps ≤ i.weight
  | .mk before after onDelivery _ _ => by
    simp only [steps, beforeRules, duringRules, afterRules, List.flatten_nil, List.nil_append,
      Step.weights_append, weight]
    exact Nat.le_add_right ..
  | .during rules others => by
    have hothers := weights_steps_le others
    simp only [steps, beforeRules, duringRules, afterRules, Step.weights_append,
      Step.weights_flatten, weight] at hothers ⊢
    omega

namespace Job

def weight (job : Job) : Nat := 1 + job.interruptions.weight

def weights : List Job → Nat
  | [] => 0
  | job :: more => job.weight + weights more

theorem weights_append (front behind : List Job) :
    weights (front ++ behind) = weights front + weights behind := by
  induction front with
  | nil => simp [weights]
  | cons job more ih => simp only [List.cons_append, weights, ih, Nat.add_assoc]

theorem weights_filter_le (p : Job → Bool) (jobs : List Job) :
    weights (jobs.filter p) ≤ weights jobs := by
  induction jobs with
  | nil => exact Nat.le_refl _
  | cons job more ih =>
    by_cases hjob : p job = true
    · rw [List.filter_cons_of_pos hjob]
      exact Nat.add_le_add_left ih _
    · rw [List.filter_cons_of_neg hjob]
      exact Nat.le_trans ih (Nat.le_add_left ..)

end Job

/-! ## News -/

/-- What is learned from a report. -/
inductive News where
  | sent (delivery : Delivery)
  | returned (pass : Nat) (published : Bool)

namespace News

def delivery? : News → Option Delivery
  | .sent delivery => some delivery
  | .returned _ _ => none

def result? : News → Option (Nat × Bool)
  | .sent _ => none
  | .returned pass published => some (pass, published)

end News

def Entry.result? : Entry → Option (Nat × Bool)
  | .returned pass result => some (pass, result)
  | _ => none

mutual

/-- All that is learned from a report, that of the nested ones first. -/
def Report.news : Report → List News
  | .mk _ outcome _ sent _ => outcome.news ++ sent.map .sent

def Outcome.news : Outcome → List News
  | .ran result => result.news
  | .drained results => JobResult.allNews results
  | .done | .queued _ | .refused | .notRun => []

def JobResult.news : JobResult → List News
  | .mk pass published nested => Report.allNews nested ++ [.returned pass published]

def Report.allNews : List Report → List News
  | [] => []
  | report :: more => report.news ++ Report.allNews more

def JobResult.allNews : List JobResult → List News
  | [] => []
  | result :: more => result.news ++ JobResult.allNews more

end

theorem Report.allNews_append (front behind : List Report) :
    allNews (front ++ behind) = allNews front ++ allNews behind := by
  induction front with
  | nil => rfl
  | cons report more ih => simp only [List.cons_append, allNews, ih, List.append_assoc]

theorem filterMap_delivery?_sent (ds : List Delivery) :
    (ds.map News.sent).filterMap News.delivery? = ds := by
  simp [List.filterMap_map, Function.comp_def, News.delivery?]

theorem filterMap_result?_sent (ds : List Delivery) :
    (ds.map News.sent).filterMap News.result? = [] := by
  simp [News.result?]

/-! ## What taking steps does -/

/-- The deliveries that were reported. -/
def State.told (s : State) : List Delivery :=
  (s.history.take s.toldHistory).filterMap Entry.delivery?

/-- Only steps of the allowed kinds come with the passes that wait, and none ends with a fault. -/
def Ledger.Plain (allowed : StepKind → Bool) (l : Ledger) : Prop :=
  ∀ job ∈ l.queue, job.interruptions.Plain allowed

variable {analysis : String → List Diagnostic} {allowed : StepKind → Bool}

theorem Ledger.Plain.of_take {l rest : Ledger} (h : l.Plain allowed) {number : Int} {job : Job}
    (htake : l.take? number = some (job, rest)) : job.interruptions.Plain allowed := by
  obtain ⟨found, hfound, heq⟩ := Option.map_eq_some_iff.1 htake
  obtain ⟨rfl, -⟩ : found = job ∧ _ = rest := Prod.mk.inj heq
  exact h found (List.mem_of_find?_eq_some hfound)

/-- The ledger is that of an interleaving of passes with steps of the allowed kinds. -/
def Arises (analysis : String → List Diagnostic) (allowed : StepKind → Bool) (l : Ledger)
    (jobs : List Job) : Prop :=
  ∃ steps, (∀ step ∈ steps, allowed step.kind = true) ∧ Interleaving analysis steps l jobs

/-- The change from one state to another, which leaves the passes `after` under way where `before`
were under way. -/
structure Taken (analysis : String → List Diagnostic) (allowed : StepKind → Bool)
    (before after : List Job) (gain : Int) (news : List News) (s s' : State) : Prop where
  plain : s'.Plain allowed
  arises : ∀ others, Arises analysis allowed s.toLedger (before ++ others) →
    Arises analysis allowed s'.toLedger (after ++ others)
  weight : (Job.weights s'.queue : Int) ≤ Job.weights s.queue + gain
  history : ∃ added, s'.history = s.history ++ added ∧
    news.filterMap News.result? = added.filterMap Entry.result?
  told : s.toldHistory ≤ s.history.length →
    s'.toldHistory ≤ s'.history.length ∧ s'.told = s.told ++ news.filterMap News.delivery?

namespace Taken

variable {before between after : List Job} {gain gain' : Int}
  {news news' : List News} {s s' s'' : State} {job : Job}

theorem refl (hplain : s.Plain allowed) : Taken analysis allowed [] [] 0 [] s s where
  plain := hplain
  arises _ h := h
  weight := by omega
  history := ⟨[], by simp⟩
  told h := ⟨h, by simp⟩

theorem trans (h : Taken analysis allowed before between gain news s s')
    (h' : Taken analysis allowed between after gain' news' s' s'') :
    Taken analysis allowed before after (gain + gain') (news ++ news') s s'' where
  plain := h'.plain
  arises others harises := h'.arises others (h.arises others harises)
  weight := by
    have := h.weight
    have := h'.weight
    omega
  history := by
    obtain ⟨added, hadded, hresults⟩ := h.history
    obtain ⟨added', hadded', hresults'⟩ := h'.history
    refine ⟨added ++ added', ?_, ?_⟩
    · rw [hadded', hadded, List.append_assoc]
    · rw [List.filterMap_append, List.filterMap_append, hresults, hresults']
  told htold := by
    obtain ⟨htold, hnews⟩ := h.told htold
    obtain ⟨htold', hnews'⟩ := h'.told htold
    exact ⟨htold', by rw [hnews', hnews, List.filterMap_append, List.append_assoc]⟩

theorem mono (h : Taken analysis allowed before after gain news s s') (hgain : gain ≤ gain') :
    Taken analysis allowed before after gain' news s s' :=
  { h with weight := by have := h.weight; omega }

/-- A change of the ledger that adds to the history and reports nothing. -/
theorem of_ledger {l : Ledger} {log : List LogRecord} (added : List Entry)
    (hplain : l.Plain allowed)
    (harises : ∀ others, Arises analysis allowed s.toLedger (before ++ others) →
      Arises analysis allowed l (after ++ others))
    (hweight : (Job.weights l.queue : Int) ≤ Job.weights s.queue + gain)
    (hhistory : l.history = s.history ++ added)
    (hresults : news.filterMap News.result? = added.filterMap Entry.result?)
    (hdeliveries : news.filterMap News.delivery? = []) :
    Taken analysis allowed before after gain news s { s with toLedger := l, log := log } where
  plain := hplain
  arises := harises
  weight := hweight
  history := ⟨added, hhistory, hresults⟩
  told htold := by
    refine ⟨?_, ?_⟩
    · simp only [hhistory, List.length_append]
      omega
    · simp only [State.told, hhistory, hdeliveries, List.append_nil]
      rw [List.take_append_of_le_length htold]

/-- A step that runs no pass. -/
theorem respond (analysis : String → List Diagnostic) (hplain : s.Plain allowed) {step : Step}
    (hstep : step.isPlain allowed = true) :
    Taken analysis allowed [] [] step.weight [] s (s.update (·.respond step)) := by
  have hqueue : (s.respond step).Plain allowed ∧
      Job.weights (s.respond step).queue ≤ Job.weights s.queue + step.weight := by
    cases step with
    | submit uri source i =>
      simp only [Ledger.Plain, Ledger.respond, Ledger.submit]
      cases s.refusing with
      | true => exact ⟨hplain, Nat.le_add_right ..⟩
      | false =>
        refine ⟨fun job hjob => ?_, Nat.le_of_eq ?_⟩
        · rcases List.mem_append.1 hjob with hjob | hjob
          · exact hplain job hjob
          · rw [List.mem_singleton.1 hjob]
            exact i.plain (Bool.and_eq_true_iff.1 hstep).2
        · exact Job.weights_append s.queue _
    | run _ | runAll | discard _ | close _ | shutdown => exact ⟨hplain, Nat.le_add_right ..⟩
  obtain ⟨added, hhistory, hresults⟩ : ∃ added, (s.respond step).history = s.history ++ added ∧
      [] = added.filterMap Entry.result? := by
    cases step with
    | submit uri source i => exact ⟨_, rfl, rfl⟩
    | run _ | runAll => exact ⟨[], (List.append_nil _).symm, rfl⟩
    | discard uri => exact ⟨_, rfl, rfl⟩
    | close uri => exact ⟨[.discarded uri, .withdrawn uri], List.append_assoc .., rfl⟩
    | shutdown => exact ⟨_, rfl, rfl⟩
  refine of_ledger added hqueue.1 ?_ (Int.ofNat_le.2 hqueue.2) hhistory hresults rfl
  rintro others ⟨steps, hallowed, hsteps⟩
  refine ⟨steps ++ [step], fun x hx => ?_, hsteps.respond step⟩
  rcases List.mem_append.1 hx with hx | hx
  · exact hallowed x hx
  · rw [List.mem_singleton.1 hx]
    exact Step.allowed_of_isPlain hstep

/-- A pass is taken out of the queue. -/
theorem take (analysis : String → List Diagnostic) (hplain : s.Plain allowed) {number : Int}
    {rest : Ledger} (htake : s.take? number = some (job, rest)) :
    Taken analysis allowed [] [job] (-job.weight) [] s (s.update fun _ => rest) := by
  obtain ⟨found, hfound, heq⟩ := Option.map_eq_some_iff.1 htake
  obtain ⟨rfl, rfl⟩ : found = job ∧ _ = rest := Prod.mk.inj heq
  obtain ⟨hnumber, front, behind, hqueue, -⟩ := List.find?_eq_some_iff_append.1 hfound
  obtain rfl := beq_iff_eq.1 hnumber
  have hfilter : s.queue.filter (fun other => (other.number : Int) != found.number) =
      (front ++ behind).filter fun other => (other.number : Int) != found.number := by
    simp [hqueue]
  refine of_ledger [] ?_ ?_ ?_ (List.append_nil _).symm rfl rfl
  · exact fun other hother => hplain other (List.mem_filter.1 hother).1
  · rintro others ⟨steps, hallowed, hsteps⟩
    -- No other pass in the queue has the same number.
    have hdistinct : ((found :: (front ++ behind)).map Job.number).Nodup := by
      have hall := hsteps.sound.distinct
      rw [hqueue, List.map_append] at hall
      exact (List.perm_middle.map _).nodup_iff.1 (List.nodup_append.1 hall).1
    have hself : (front ++ behind).filter (fun other => (other.number : Int) != found.number) =
        front ++ behind := by
      rw [List.filter_eq_self]
      intro other hother
      have hne : other.number ≠ found.number := fun heq =>
        (List.nodup_cons.1 hdistinct).1 (heq ▸ List.mem_map_of_mem hother)
      exact bne_iff_ne.2 (mt Int.ofNat_inj.1 hne)
    rw [hfilter, hself]
    exact ⟨steps, hallowed, hsteps.take front behind hqueue⟩
  · have hle := Job.weights_filter_le (fun other => (other.number : Int) != found.number)
      (front ++ behind)
    rw [← hfilter, Job.weights_append] at hle
    have hsum : Job.weights s.queue = Job.weights front + (found.weight + Job.weights behind) := by
      rw [hqueue, Job.weights_append]
      rfl
    change (Job.weights (s.queue.filter _) : Int) ≤ _
    omega

/-- The first pass is taken out of the queue. -/
theorem next (analysis : String → List Diagnostic) (hplain : s.Plain allowed) {more : List Job}
    (hqueue : s.queue = job :: more) :
    Taken analysis allowed [] [job] (-job.weight) [] s (s.update ({ · with queue := more })) := by
  refine of_ledger [] ?_ ?_ ?_ (List.append_nil _).symm rfl rfl
  · exact fun other hother => hplain other (hqueue ▸ List.mem_cons_of_mem _ hother)
  · rintro others ⟨steps, hallowed, hsteps⟩
    exact ⟨steps, hallowed, hsteps.take [] more hqueue⟩
  · simp only [hqueue, Job.weights]
    omega

theorem conclude (analysis : String → List Diagnostic) (job : Job) (hplain : s.Plain allowed)
    (log : List LogRecord) :
    Taken analysis allowed [job] [] 0
      [.returned job.number (s.schedule.isCurrent job.uri job.number)] s
      { s with toLedger := s.toLedger.conclude job (analysis job.source), log := log } := by
  refine of_ledger _ hplain ?_ (by simp [Ledger.conclude]) rfl ?_ rfl
  · rintro others ⟨steps, hallowed, hsteps⟩
    exact ⟨steps, hallowed, hsteps.conclude [] others⟩
  · cases s.schedule.isCurrent job.uri job.number <;> rfl

/-- What was not reported yet is reported with a step. -/
theorem report (outcome : Outcome) (h : Taken analysis allowed before after gain outcome.news s s')
    (kind : StepKind) :
    Taken analysis allowed before after gain (s'.report kind outcome).1.news s
      (s'.report kind outcome).2 := by
  refine ⟨h.plain, h.arises, h.weight, ?_, ?_⟩
  · obtain ⟨added, hadded, hresults⟩ := h.history
    refine ⟨added, hadded, ?_⟩
    simp only [State.report, Report.news, List.filterMap_append, filterMap_result?_sent, hresults,
      List.append_nil]
  · intro htold
    obtain ⟨-, hnews⟩ := h.told htold
    refine ⟨Nat.le_refl _, ?_⟩
    simp only [State.report, Report.news, List.filterMap_append, filterMap_delivery?_sent]
    rw [← List.append_assoc, ← hnews]
    simp only [State.told, List.take_length]
    rw [← List.filterMap_append, List.take_append_drop]

end Taken

/-! ## Whole sessions -/

section

variable {setup : Setup} {perform : Step → State → Report × State}

/-- Taking a step reports it. -/
def Steady (setup : Setup) (allowed : StepKind → Bool)
    (perform : Step → State → Report × State) : Prop :=
  ∀ step s, step.isPlain allowed = true → s.Plain allowed →
    Taken setup.analysis allowed [] [] step.weight (perform step s).1.news s (perform step s).2

theorem undergo_taken (hperform : Steady setup allowed perform) {incidents : List Incident}
    (hsteps : ∀ step ∈ incidents.filterMap Incident.step?, step.isPlain allowed = true)
    {u : Underway} (hplain : u.1.Plain allowed) :
    ∃ news, Report.allNews (undergo perform incidents u).2 = Report.allNews u.2 ++ news ∧
      Taken setup.analysis allowed [] [] (Step.weights (incidents.filterMap Incident.step?)) news
        u.1 (undergo perform incidents u).1 := by
  induction incidents generalizing u with
  | nil => exact ⟨[], (List.append_nil _).symm, .refl hplain⟩
  | cons incident more ih =>
    cases incident with
    | taken step =>
      have hstep := hperform step u.1 (hsteps step List.mem_cons_self) hplain
      obtain ⟨news, hnews, hmore⟩ := ih (fun x hx => hsteps x (List.mem_cons_of_mem _ hx))
        (u := ((perform step u.1).2, u.2 ++ [(perform step u.1).1])) hstep.plain
      refine ⟨(perform step u.1).1.news ++ news, ?_, ?_⟩
      · rw [undergo, hnews, Report.allNews_append]
        simp [Report.allNews]
      · refine (hstep.trans hmore).mono ?_
        simp [Step.weights, Incident.step?]
    | logged r =>
      have hlog : Taken setup.analysis allowed [] [] 0 [] u.1 (u.1.addLog r) :=
        .of_ledger [] hplain (fun _ h => h) (by omega) (List.append_nil _).symm rfl rfl
      obtain ⟨news, hnews, hmore⟩ := ih hsteps (u := (u.1.addLog r, u.2)) hplain
      exact ⟨news, hnews, (hlog.trans hmore).mono (Int.le_of_eq (Int.zero_add _))⟩

theorem runJob_taken (hperform : Steady setup allowed perform) {job : Job}
    (hjob : job.interruptions.Plain allowed) {s : State} (hplain : s.Plain allowed) :
    Taken setup.analysis allowed [job] [] job.interruptions.weight
      (runJob setup perform job s).1.news s
      (runJob setup perform job s).2 := by
  obtain ⟨taken, log, htaken, heq⟩ := runJob_eq perform setup job hjob s
  rw [heq]
  have hsteps (step : Step) (hstep : step ∈ taken.filterMap Incident.step?) :
      step.isPlain allowed = true := hjob.steps step (htaken.subset hstep)
  obtain ⟨news, hnews, hundergo⟩ := undergo_taken hperform hsteps (u := (s, [])) hplain
  have hall : Report.allNews (undergo perform taken (s, [])).2 = news := hnews
  have hweight : Step.weights (taken.filterMap Incident.step?) ≤ job.interruptions.weight :=
    Nat.le_trans (Step.weights_le_of_sublist htaken) job.interruptions.weights_steps_le
  have hconclude := Taken.conclude setup.analysis job hundergo.plain log
  -- The pass is under way while the steps are taken.
  have hunderway : Taken setup.analysis allowed [job] [job]
      (Step.weights (taken.filterMap Incident.step?)) news s (undergo perform taken (s, [])).1 :=
    { hundergo with arises := fun others => hundergo.arises (job :: others) }
  simp only [JobResult.news, hall]
  exact (hunderway.trans hconclude).mono (by omega)

theorem drain_taken (hperform : Steady setup allowed perform) (bound : Nat) {s : State}
    (hplain : s.Plain allowed) :
    Taken setup.analysis allowed [] [] 0
      (JobResult.allNews (drain (runJob setup perform) bound s).1) s
      (drain (runJob setup perform) bound s).2 := by
  induction bound generalizing s with
  | zero => exact .refl hplain
  | succ bound ih =>
    cases hqueue : s.queue with
    | nil =>
      simp only [drain, hqueue]
      exact .refl hplain
    | cons job more =>
      have hnext := Taken.next setup.analysis hplain hqueue
      have hjob : job.interruptions.Plain allowed := hplain job (hqueue ▸ List.mem_cons_self)
      have hrun := runJob_taken hperform hjob hnext.plain
      simp only [drain, hqueue, JobResult.allNews]
      refine ((hnext.trans hrun).trans (ih hrun.plain)).mono ?_
      simp only [Job.weight]
      omega

theorem runOne_taken (hperform : Steady setup allowed perform) (kind : StepKind) (number : Int)
    {s : State} (hplain : s.Plain allowed) :
    Taken setup.analysis allowed [] [] 0 (runOne (runJob setup perform) kind number s).1.news s
      (runOne (runJob setup perform) kind number s).2 := by
  unfold runOne
  split
  · exact (Taken.refl hplain).report .notRun kind
  · rename_i job rest htake
    have hrest := Taken.take setup.analysis hplain htake
    have hrun := runJob_taken hperform (hplain.of_take htake) hrest.plain
    refine Taken.report (.ran _) ((hrest.trans hrun).mono ?_) kind
    simp only [Job.weight]
    omega

end

theorem performFor_taken (setup : Setup) (bound depth : Nat) :
    Steady setup allowed (performFor setup bound depth) := by
  induction depth with
  | zero =>
    intro step s _ hplain
    exact ((Taken.refl hplain).report .done _).mono (Int.natCast_nonneg _)
  | succ depth ih =>
    intro step s hstep hplain
    have hrespond := Taken.respond setup.analysis hplain hstep
    cases step with
    | submit uri source i =>
      simp only [performFor]
      split
      · exact hrespond.report .refused _
      · split
        · exact (hrespond.trans (runOne_taken ih _ _ hrespond.plain)).mono (by omega)
        · exact hrespond.report (.queued _) _
    | run number => exact (runOne_taken ih _ number hplain).mono (Int.natCast_nonneg _)
    | runAll =>
      refine Taken.report (.drained _) ?_ _
      exact (drain_taken ih bound hplain).mono (Int.natCast_nonneg _)
    | discard uri => exact hrespond.report .done _
    | close uri => exact hrespond.report .done _
    | shutdown =>
      refine Taken.report (.drained _) ?_ _
      exact (hrespond.trans (drain_taken ih bound hrespond.plain)).mono (by omega)

/-- The reports of a session tell what is entered in the history, which is that of an interleaving
of its passes. -/
theorem performAll_taken (setup : Setup) (bound : Nat) {steps : List Step} {s : State}
    (hsteps : ∀ step ∈ steps, step.isPlain allowed = true) (hplain : s.Plain allowed) :
    Taken setup.analysis allowed [] [] (Step.weights steps)
      (Report.allNews (performAll setup bound steps s).1) s (performAll setup bound steps s).2 := by
  induction steps generalizing s with
  | nil => exact .refl hplain
  | cons step more ih =>
    have hstep := performFor_taken setup bound (bound + 1) step s (hsteps step List.mem_cons_self)
      hplain
    have hmore := ih (fun x hx => hsteps x (List.mem_cons_of_mem _ hx)) hstep.plain
    refine (hstep.trans hmore).mono ?_
    simp [Step.weights]

end PineScript.Session
