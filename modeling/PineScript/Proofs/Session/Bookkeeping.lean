import PineScript.Proofs.Session.Passes

/-!
# Bookkeeping

A schedule holds the pass that counts for each document and the passes that were cancelled. A pass
may end in five ways, and not all of them tell the schedule. Main statement: after each step of a
session, also one that comes while a pass is under way, the schedule agrees with what has happened
(`stops_bookkept`).
-/

namespace PineScript.Session

/-- The marks of the schedule agree with what has happened. -/
structure Bookkept (l : Ledger) : Prop where
  /-- A document has at most one pass that counts. -/
  single : (l.schedule.pending.map (·.1)).Nodup
  /-- A pass counts exactly if it is the latest for its document and has not ended. -/
  pending : ∀ uri pass, (uri, pass) ∈ l.schedule.pending ↔
    Latest l.history pass uri ∧ ¬ Ended l.history pass
  uncancelled : ∀ uri pass, (uri, pass) ∈ l.schedule.pending →
    l.schedule.isCancelled pass = false
  /-- A pass that does not count was cancelled or has ended. -/
  others : ∀ pass uri source, .submitted pass uri source ∈ l.history →
    (uri, pass) ∉ l.schedule.pending → l.schedule.isCancelled pass = true ∨ Ended l.history pass

/-! ## Schedules -/

/-- Nothing is lost: each pass counts, was cancelled or has ended. -/
structure Tidy (s : Schedule) (history : List Entry) : Prop extends Standing s history where
  single : (s.pending.map (·.1)).Nodup
  accounted : ∀ pass < s.submitted,
    (∃ uri, s.pass? uri = some pass) ∨ s.isCancelled pass = true ∨ Ended history pass

variable {s : Schedule} {history : List Entry} {e : Entry} {uri source : String} {pass : Nat}

theorem mem_pending_of_pass? (h : s.pass? uri = some pass) : (uri, pass) ∈ s.pending := by
  obtain ⟨front, behind, heq, -⟩ := List.lookup_eq_some_iff.1 h
  exact heq ▸ List.mem_append_right front List.mem_cons_self

theorem mem_pending_iff (hsingle : (s.pending.map (·.1)).Nodup) :
    (uri, pass) ∈ s.pending ↔ s.pass? uri = some pass := by
  refine ⟨fun hmem => ?_, mem_pending_of_pass?⟩
  obtain ⟨front, behind, heq⟩ := List.append_of_mem hmem
  refine List.lookup_eq_some_iff.2 ⟨front, behind, heq, fun x hx => bne_iff_ne.2 ?_⟩
  rw [heq, List.map_append] at hsingle
  exact (List.nodup_append.1 hsingle).2.2 _ (List.mem_map_of_mem hx) _ List.mem_cons_self |>.symm

theorem nodup_drop (hsingle : (s.pending.map (·.1)).Nodup) (uri : String) :
    ((s.drop uri).map (·.1)).Nodup :=
  hsingle.sublist (List.filter_sublist.map _)

theorem not_mem_drop (s : Schedule) (uri : String) : uri ∉ (s.drop uri).map (·.1) := by
  simp [Schedule.drop]

theorem Ended.append (h : Ended history pass) (entries : List Entry) :
    Ended (history ++ entries) pass := by
  obtain ⟨published, hmem⟩ := h
  exact ⟨published, List.mem_append_left _ hmem⟩

namespace Tidy

variable (h : Tidy s history)

include h

theorem pass?_ne_of_isCancelled (hcancelled : s.isCancelled pass = true) :
    s.pass? uri ≠ some pass := fun hpass =>
  h.cancelled pass hcancelled uri ((h.current uri pass).1 hpass).1

theorem pass?_ne_of_not_isCurrent (hcurrent : s.isCurrent uri pass = false) :
    s.pass? uri ≠ some pass := by
  intro hpass
  have hopen : s.isCancelled pass = false :=
    Bool.eq_false_iff.2 fun hcancelled => h.pass?_ne_of_isCancelled hcancelled hpass
  rw [Schedule.isCurrent_iff.2 ⟨hpass, hopen⟩] at hcurrent
  cases hcurrent

theorem aside (hnumber : e.submission? = none) (hquiet : ∀ uri, e.supersedes uri = false)
    (hend : ∀ pass published, e ≠ .returned pass published) : Tidy s (history ++ [e]) where
  toStanding := h.toStanding.aside hnumber hquiet hend
  single := h.single
  accounted pass hpass := (h.accounted pass hpass).imp_right (.imp_right (·.append _))

theorem submit (uri source : String) :
    Tidy (s.submit uri) (history ++ [.submitted s.submitted uri source]) where
  toStanding := h.toStanding.submit uri source
  single := by
    rw [Schedule.submit, List.map_append, List.nodup_append]
    refine ⟨nodup_drop h.single uri, List.pairwise_singleton _ _, fun a ha b hb heq => ?_⟩
    obtain rfl : a = uri := heq.trans (List.mem_singleton.1 hb)
    exact not_mem_drop s a ha
  accounted pass hpass := by
    rcases Nat.lt_succ_iff_lt_or_eq.1 hpass with hold | rfl
    · rcases h.accounted pass hold with ⟨other, hother⟩ | hcancelled | hended
      · by_cases huri : other = uri
        · exact .inr (.inl (Schedule.isCancelled_submit.2 (.inr (huri ▸ hother))))
        · exact .inl ⟨other, by rw [Schedule.pass?_submit, if_neg huri, hother]⟩
      · exact .inr (.inl (Schedule.isCancelled_submit.2 (.inl hcancelled)))
      · exact .inr (.inr (hended.append _))
    · exact .inl ⟨uri, by rw [Schedule.pass?_submit, if_pos rfl]⟩

theorem discard (uri : String) : Tidy (s.discard uri) (history ++ [.discarded uri]) where
  toStanding := h.toStanding.discard uri
  single := nodup_drop h.single uri
  accounted pass hpass := by
    rcases h.accounted pass hpass with ⟨other, hother⟩ | hcancelled | hended
    · by_cases huri : other = uri
      · exact .inr (.inl (Schedule.isCancelled_discard.2 (.inr (huri ▸ hother))))
      · exact .inl ⟨other, by rw [Schedule.pass?_discard, if_neg huri, hother]⟩
    · exact .inr (.inl (Schedule.isCancelled_discard.2 (.inl hcancelled)))
    · exact .inr (.inr (hended.append _))

theorem shutdown : Tidy s.shutdown (history ++ [.shutDown]) where
  toStanding := h.toStanding.shutdown
  single := List.nodup_nil
  accounted pass hpass := by
    rcases h.accounted pass hpass with ⟨uri, huri⟩ | hcancelled | hended
    · exact .inr (.inl (Schedule.isCancelled_shutdown.2 (.inr ⟨uri, mem_pending_of_pass? huri⟩)))
    · exact .inr (.inl (Schedule.isCancelled_shutdown.2 (.inl hcancelled)))
    · exact .inr (.inr (hended.append _))

/-- A pass ends, and the schedule is told. -/
theorem finish (hmem : .submitted pass uri source ∈ history) (published : Bool) :
    Tidy (s.finish uri pass) (history ++ [.returned pass published]) where
  toStanding := h.toStanding.finish hmem published
  single := by
    unfold Schedule.finish
    split
    · exact nodup_drop h.single uri
    · exact h.single
  accounted other hother := by
    have hsubmitted : (s.finish uri pass).submitted = s.submitted := by
      unfold Schedule.finish
      split <;> rfl
    rw [hsubmitted] at hother
    rcases h.accounted other hother with ⟨document, hdocument⟩ | hcancelled | hended
    · rw [Schedule.isCancelled_finish]
      by_cases hpass : document = uri ∧ s.pass? uri = some pass
      · obtain ⟨rfl, hpass⟩ := hpass
        obtain rfl : other = pass := Option.some.inj (hdocument.symm.trans hpass)
        exact .inr (.inr ⟨published, List.mem_append_right _ List.mem_cons_self⟩)
      · exact .inl ⟨document, by rw [Schedule.pass?_finish, if_neg hpass, hdocument]⟩
    · exact .inr (.inl (by rw [Schedule.isCancelled_finish, hcancelled]))
    · exact .inr (.inr (hended.append _))

/-- A pass ends that does not count any more, and the schedule need not be told. -/
theorem leave (hmem : .submitted pass uri source ∈ history) (hpass : s.pass? uri ≠ some pass)
    (published : Bool) : Tidy s (history ++ [.returned pass published]) := by
  have hfinish := h.finish hmem published
  rwa [Schedule.finish, if_neg hpass] at hfinish

end Tidy

/-! ## Ledgers -/

theorem Bookkept.of_tidy {l : Ledger} (h : Tidy l.schedule l.history) : Bookkept l where
  single := h.single
  pending uri pass := (mem_pending_iff h.single).trans (h.current uri pass)
  uncancelled uri pass hmem := Bool.eq_false_iff.2 fun hcancelled =>
    h.pass?_ne_of_isCancelled hcancelled ((mem_pending_iff h.single).1 hmem)
  others pass uri source hmem hout := by
    rcases h.accounted pass (h.lt_of_mem hmem) with ⟨other, hother⟩ | hrest
    · -- The pass counts for the document that it was submitted for, and for no other.
      obtain ⟨source', hmem'⟩ := ((h.current other pass).1 hother).1.mem
      obtain ⟨rfl, -⟩ := h.submitted_unique hmem hmem'
      exact absurd (mem_pending_of_pass? hother) hout
    · exact hrest

/-- The ledger knows where each pass comes from that waits or is one of the jobs. -/
structure Ledger.Kept (l : Ledger) (jobs : List Job) : Prop extends
    Tidy l.schedule l.history where
  submitted : ∀ job ∈ l.queue ++ jobs, .submitted job.number job.uri job.source ∈ l.history

theorem Ledger.Kept.respond {l : Ledger} {jobs : List Job} (h : l.Kept jobs) (step : Step) :
    (l.respond step).Kept jobs := by
  have hsubmitted (e : Entry) (job : Job) (hjob : job ∈ l.queue ++ jobs) :
      .submitted job.number job.uri job.source ∈ l.history ++ [e] :=
    List.mem_append_left _ (h.submitted job hjob)
  have hdiscard (uri : String) : (l.discard uri).Kept jobs :=
    ⟨h.toTidy.discard uri, hsubmitted _⟩
  cases step with
  | submit uri source i =>
    refine ⟨h.toTidy.submit uri source, fun job hjob => ?_⟩
    simp only [Ledger.respond, Ledger.submit] at hjob
    split at hjob
    · exact hsubmitted _ job hjob
    · rw [List.append_assoc, List.mem_append, List.mem_append, List.mem_singleton] at hjob
      rcases hjob with hjob | rfl | hjob
      · exact hsubmitted _ job (List.mem_append_left _ hjob)
      · exact List.mem_append_right _ List.mem_cons_self
      · exact hsubmitted _ job (List.mem_append_right _ hjob)
  | run _ | runAll => exact h
  | discard uri => exact hdiscard uri
  | close uri =>
    refine ⟨(hdiscard uri).toTidy.aside rfl (fun _ => rfl) (by simp), fun job hjob => ?_⟩
    exact List.mem_append_left _ ((hdiscard uri).submitted job hjob)
  | shutdown => exact ⟨h.toTidy.shutdown, hsubmitted _⟩

/-! ## Sessions -/

mutual

/-- The documents that a report and the reports nested in it tell of, in the order of the steps'
ends. -/
def Report.waitings : Report → List (List String)
  | .mk _ outcome waiting _ _ => outcome.waitings ++ [waiting]

def Outcome.waitings : Outcome → List (List String)
  | .ran result => result.waitings
  | .drained results => JobResult.allWaitings results
  | .done | .queued _ | .refused | .notRun => []

def JobResult.waitings : JobResult → List (List String)
  | .mk _ _ nested => Report.allWaitings nested

def Report.allWaitings : List Report → List (List String)
  | [] => []
  | report :: more => report.waitings ++ Report.allWaitings more

def JobResult.allWaitings : List JobResult → List (List String)
  | [] => []
  | result :: more => result.waitings ++ JobResult.allWaitings more

end

theorem Report.allWaitings_append (front behind : List Report) :
    allWaitings (front ++ behind) = allWaitings front ++ allWaitings behind := by
  induction front with
  | nil => rfl
  | cons report more ih => simp only [List.cons_append, allWaitings, ih, List.append_assoc]

/-- The books are in order, and were after each step. -/
structure State.Kept (s : State) (jobs : List Job) : Prop where
  ledger : s.toLedger.Kept jobs
  stops : ∀ l ∈ s.stops, Bookkept l

/-- The change from one state to another, which leaves the passes `after` under way where `before`
were under way. The steps that end meanwhile report what waits. -/
structure Orderly (before after : List Job) (waitings : List (List String)) (s s' : State) :
    Prop where
  kept : ∀ others, s.Kept (before ++ others) → s'.Kept (after ++ others)
  told : ∃ added, s'.stops = s.stops ++ added ∧ added.map (·.schedule.waiting) = waitings

namespace Orderly

variable {before between after : List Job} {waitings waitings' : List (List String)}
  {s s' s'' : State} {job : Job}

theorem refl (jobs : List Job) (s : State) : Orderly jobs jobs [] s s where
  kept _ h := h
  told := ⟨[], (List.append_nil _).symm, rfl⟩

theorem trans (h : Orderly before between waitings s s')
    (h' : Orderly between after waitings' s' s'') :
    Orderly before after (waitings ++ waitings') s s'' where
  kept others hkept := h'.kept others (h.kept others hkept)
  told := by
    obtain ⟨added, hadded, hwaitings⟩ := h.told
    obtain ⟨added', hadded', hwaitings'⟩ := h'.told
    refine ⟨added ++ added', ?_, ?_⟩
    · rw [hadded', hadded, List.append_assoc]
    · rw [List.map_append, hwaitings, hwaitings']

/-- Other passes may be under way all the while. -/
theorem amid (h : Orderly before after waitings s s') (jobs : List Job) :
    Orderly (before ++ jobs) (after ++ jobs) waitings s s' where
  kept others hkept := by
    rw [List.append_assoc] at hkept ⊢
    exact h.kept (jobs ++ others) hkept
  told := h.told

/-- A change of the ledger that no report tells of. -/
theorem of_ledger {l : Ledger} (log : List LogRecord)
    (hkept : ∀ others, s.toLedger.Kept (before ++ others) → l.Kept (after ++ others)) :
    Orderly before after [] s { s with toLedger := l, log := log } where
  kept others h := ⟨hkept others h.ledger, h.stops⟩
  told := ⟨[], (List.append_nil _).symm, rfl⟩

theorem report (outcome : Outcome) (h : Orderly before after outcome.waitings s s')
    (kind : StepKind) :
    Orderly before after (s'.report kind outcome).1.waitings s (s'.report kind outcome).2 where
  kept others hkept := by
    have hs' := h.kept others hkept
    refine ⟨hs'.ledger, fun l hl => ?_⟩
    rcases List.mem_append.1 hl with hl | hl
    · exact hs'.stops l hl
    · rw [List.mem_singleton.1 hl]
      exact .of_tidy hs'.ledger.toTidy
  told := by
    obtain ⟨added, hadded, hwaitings⟩ := h.told
    refine ⟨added ++ [s'.toLedger], ?_, ?_⟩
    · simp only [State.report, hadded, List.append_assoc]
    · rw [List.map_append, hwaitings]
      rfl

theorem respond (s : State) (step : Step) : Orderly [] [] [] s (s.update (·.respond step)) :=
  of_ledger s.log fun _ h => h.respond step

theorem addLog (jobs : List Job) (s : State) (r : LogRecord) :
    Orderly jobs jobs [] s (s.addLog r) :=
  of_ledger _ fun _ h => h

/-- Something happens that concerns no document and ends no pass. -/
theorem aside (jobs : List Job) (s : State) (hnumber : e.submission? = none)
    (hquiet : ∀ uri, e.supersedes uri = false)
    (hend : ∀ pass published, e ≠ .returned pass published) :
    Orderly jobs jobs [] s (s.update (·.record e)) :=
  of_ledger s.log fun _ h => ⟨h.toTidy.aside hnumber hquiet hend, fun job hjob =>
    List.mem_append_left _ (h.submitted job hjob)⟩

/-- A pass is taken out of the queue. -/
theorem take {l : Ledger} (hjob : job ∈ s.queue) (hqueue : ∀ other ∈ l.queue, other ∈ s.queue)
    (hl : l = { s.toLedger with queue := l.queue }) :
    Orderly [] [job] [] s (s.update fun _ => l) := by
  refine of_ledger s.log fun others h => ?_
  rw [hl]
  refine ⟨h.toTidy, fun other hother => h.submitted other ?_⟩
  rw [List.mem_append, List.mem_append, List.mem_singleton] at hother
  rcases hother with hother | rfl | hother
  · exact List.mem_append_left _ (hqueue other hother)
  · exact List.mem_append_left _ hjob
  · exact List.mem_append_right _ hother

/-- What waits and is under way, without the pass that ends, was submitted as before. -/
theorem submitted_of_ended {l : Ledger} {others : List Job} (h : l.Kept ([job] ++ others))
    (published : Bool) (other : Job) (hother : other ∈ l.queue ++ others) :
    .submitted other.number other.uri other.source ∈
      l.history ++ [.returned job.number published] := by
  refine List.mem_append_left _ (h.submitted other ?_)
  exact (List.sublist_append_right [job] others).append_left l.queue |>.subset hother

/-- A pass ends, and the schedule is told. -/
theorem finish (job : Job) (s : State) (published : Bool) :
    Orderly [job] [] [] s
      ((s.update (·.finish job)).update (·.record (.returned job.number published))) := by
  refine of_ledger s.log fun others h => ⟨?_, submitted_of_ended h published⟩
  exact h.toTidy.finish (h.submitted job (by simp)) published

/-- A pass ends that does not count any more. -/
theorem leave (published : Bool) (hpass : ∀ others, s.Kept ([job] ++ others) →
    s.schedule.pass? job.uri ≠ some job.number) :
    Orderly [job] [] [] s (s.update (·.record (.returned job.number published))) where
  kept others h := by
    refine ⟨⟨?_, submitted_of_ended h.ledger published⟩, h.stops⟩
    exact h.ledger.toTidy.leave (h.ledger.submitted job (by simp)) (hpass others h) published
  told := ⟨[], (List.append_nil _).symm, rfl⟩

end Orderly

/-- The same of a pass under way, which collects the reports of the steps that come meanwhile. -/
def Collects (before after : List Job) (u u' : Underway) : Prop :=
  ∃ waitings, Report.allWaitings u'.2 = Report.allWaitings u.2 ++ waitings ∧
    Orderly before after waitings u.1 u'.1

namespace Collects

variable {before between after : List Job} {u u' u'' : Underway}

theorem of_orderly {s : State} (h : Orderly before after [] u.1 s) :
    Collects before after u (s, u.2) :=
  ⟨[], (List.append_nil _).symm, h⟩

theorem trans (h : Collects before between u u') (h' : Collects between after u' u'') :
    Collects before after u u'' := by
  obtain ⟨waitings, hreports, horderly⟩ := h
  obtain ⟨waitings', hreports', horderly'⟩ := h'
  exact ⟨waitings ++ waitings', by rw [hreports', hreports, List.append_assoc],
    horderly.trans horderly'⟩

theorem orderly {s : State} (h : Collects before after (s, []) u) :
    Orderly before after (Report.allWaitings u.2) s u.1 := by
  obtain ⟨waitings, hreports, horderly⟩ := h
  rw [hreports]
  exact horderly

end Collects

/-- A pass under way returns. -/
def returned (job : Job) (ended : Bool × Underway) : Underway :=
  (ended.2.1.update (·.record (.returned job.number ended.1)), ended.2.2)

section

variable {perform : Step → State → Report × State}
  (hperform : ∀ step s, Orderly [] [] (perform step s).1.waitings s (perform step s).2)

include hperform

theorem undergo_collects (jobs : List Job) (incidents : List Incident) (u : Underway) :
    Collects jobs jobs u (undergo perform incidents u) := by
  induction incidents generalizing u with
  | nil => exact .of_orderly (.refl jobs u.1)
  | cons incident more ih =>
    cases incident with
    | taken step =>
      have hstep : Collects jobs jobs u ((perform step u.1).2, u.2 ++ [(perform step u.1).1]) :=
        ⟨_, by simp [Report.allWaitings_append, Report.allWaitings], (hperform step u.1).amid jobs⟩
      exact hstep.trans (ih _)
    | logged r => exact (Collects.of_orderly (Orderly.addLog jobs u.1 r)).trans (ih _)

/-- Whether or not the result can be delivered, the schedule is told. -/
theorem publish_collects (job : Job) (ds : List Diagnostic) (u : Underway) :
    Collects [job] [] u (returned job (publish perform job ds u)) := by
  have hsteps := undergo_collects hperform [job] (job.interruptions.onDelivery.map .taken) u
  rw [undergo_steps] at hsteps
  unfold publish
  generalize interrupt perform job.interruptions.onDelivery u = u' at hsteps
  refine hsteps.trans ?_
  cases job.interruptions.deliveryFault with
  | some text => exact .of_orderly ((Orderly.addLog [job] u'.1 _).trans (.finish job _ false))
  | none =>
    have hpublished : Orderly [job] [job] [] u'.1
        (u'.1.update (·.record (.published job.number ⟨job.uri, ds⟩))) :=
      .aside _ _ rfl (fun _ => rfl) nofun
    exact .of_orderly (hpublished.trans (.finish job _ true))

/-- The end of a pass whose analysis gave a result, or was cancelled. -/
theorem conclude_collects (job : Job) (result : Except Stage (List Diagnostic)) (u : Underway)
    (hresult : ∀ stage, result = .error stage → u.1.schedule.isCancelled job.number = true) :
    Collects [job] [] u (returned job (conclude perform job result u)) := by
  have hleave (r : LogRecord) (hpass : ∀ others, u.1.Kept ([job] ++ others) →
      u.1.schedule.pass? job.uri ≠ some job.number) :
      Collects [job] [] u (returned job (false, u.1.addLog r, u.2)) :=
    .of_orderly ((Orderly.addLog [job] u.1 r).trans
      (.leave false fun others h => hpass others ⟨h.ledger, h.stops⟩))
  cases result with
  | error stage =>
    exact hleave _ fun others h => h.ledger.toTidy.pass?_ne_of_isCancelled (hresult stage rfl)
  | ok ds =>
    unfold conclude
    dsimp only
    cases hcurrent : u.1.schedule.isCurrent job.uri job.number with
    | true => exact publish_collects hperform job ds u
    | false =>
      exact hleave _ fun others h => h.ledger.toTidy.pass?_ne_of_not_isCurrent hcurrent

theorem runJob_orderly (setup : Setup) (job : Job) (s : State) :
    Orderly [job] [] (runJob setup perform job s).1.waitings s (runJob setup perform job s).2 := by
  have hanalysed (s : State) :
      Orderly [job] [job] [] s (s.update (·.record (.analysed job.number))) :=
    .aside _ _ rfl (fun _ => rfl) nofun
  unfold runJob
  cases job.interruptions.analysisFault with
  | some text => exact ((hanalysed s).trans (.addLog _ _ _)).trans (.finish job _ false)
  | none =>
    obtain ⟨taken, log, -, hstate, hresult⟩ := analysis_interrupted perform setup job (s, [])
    have hsteps := undergo_collects hperform [job] taken (s, [])
    dsimp only
    generalize Analysis.run .. = outcome at hstate hresult ⊢
    generalize undergo perform taken (s, []) = u at hsteps hstate hresult
    obtain ⟨result, u'⟩ := outcome
    obtain rfl : u' = _ := hstate
    have hlog : Orderly [job] [job] [] u.1 { u.1 with log := log } := .of_ledger log fun _ h => h
    refine (hsteps.trans ((Collects.of_orderly (hlog.trans (hanalysed _))).trans
      (conclude_collects hperform job result _ ?_))).orderly
    rintro stage rfl
    rcases hresult with hresult | ⟨-, hcancelled⟩
    · cases hresult
    · exact hcancelled

theorem runOne_orderly (setup : Setup) (kind : StepKind) (number : Int) (s : State) :
    Orderly [] [] (runOne (runJob setup perform) kind number s).1.waitings s
      (runOne (runJob setup perform) kind number s).2 := by
  unfold runOne
  cases htake : s.take? number with
  | none => exact (Orderly.refl [] s).report .notRun kind
  | some taken =>
    obtain ⟨found, hfound, rfl⟩ := Option.map_eq_some_iff.1 htake
    have hrest := Orderly.take (l := { s.toLedger with
      queue := s.queue.filter fun other => (other.number : Int) != number })
      (List.mem_of_find?_eq_some hfound) (fun other hother => (List.mem_filter.1 hother).1) rfl
    exact (hrest.trans (runJob_orderly hperform setup found _)).report (.ran _) kind

theorem drain_orderly (setup : Setup) (bound : Nat) (s : State) :
    Orderly [] [] (JobResult.allWaitings (drain (runJob setup perform) bound s).1) s
      (drain (runJob setup perform) bound s).2 := by
  induction bound generalizing s with
  | zero => exact .refl [] s
  | succ bound ih =>
    unfold drain
    cases hqueue : s.queue with
    | nil => exact .refl [] s
    | cons job more =>
      have hrest := Orderly.take (l := { s.toLedger with queue := more })
        (hqueue ▸ List.mem_cons_self : job ∈ s.queue)
        (fun other hother => hqueue ▸ List.mem_cons_of_mem job hother) rfl
      exact (hrest.trans (runJob_orderly hperform setup job _)).trans (ih _)

end

theorem performFor_orderly (setup : Setup) (bound depth : Nat) (step : Step) (s : State) :
    Orderly [] [] (performFor setup bound depth step s).1.waitings s
      (performFor setup bound depth step s).2 := by
  induction depth generalizing step s with
  | zero => exact (Orderly.refl [] s).report .done _
  | succ depth ih =>
    have hrespond := Orderly.respond s step
    cases step with
    | submit uri source i =>
      simp only [performFor]
      split
      · exact hrespond.report .refused _
      · split
        · exact hrespond.trans (runOne_orderly ih setup _ _ _)
        · exact hrespond.report (.queued _) _
    | run number => exact runOne_orderly ih setup _ number s
    | runAll => exact (drain_orderly ih setup bound s).report (.drained _) _
    | discard uri => exact hrespond.report .done _
    | close uri => exact hrespond.report .done _
    | shutdown =>
      exact (hrespond.trans (drain_orderly ih setup bound _)).report (.drained _) _

theorem performAll_orderly (setup : Setup) (bound : Nat) (steps : List Step) (s : State) :
    Orderly [] [] (Report.allWaitings (performAll setup bound steps s).1) s
      (performAll setup bound steps s).2 := by
  induction steps generalizing s with
  | nil => exact .refl [] s
  | cons step more ih => exact (performFor_orderly setup bound (bound + 1) step s).trans (ih _)

theorem kept_start : State.start.Kept [] where
  ledger := {
    toStanding := standing_empty
    single := List.nodup_nil
    accounted := fun _ hpass => absurd hpass (Nat.not_lt_zero _)
    submitted := fun _ hjob => absurd hjob List.not_mem_nil }
  stops _ hl := absurd hl List.not_mem_nil

/-- After each step of a session, also one that comes while a pass is under way, and whatever fails
or is refused: a document has a pass that counts exactly if this is the latest one submitted for it,
the document was not discarded nor the session shut down since, and the pass has not ended. No such
pass is cancelled, and every other one was cancelled or has ended. The reports tell which documents
these are, step by step. -/
theorem stops_bookkept (setup : Setup) (bound : Nat) (steps : List Step) :
    let outcome := performAll setup bound steps .start
    (∀ l ∈ outcome.2.stops, Bookkept l) ∧
      Report.allWaitings outcome.1 = outcome.2.stops.map (·.schedule.waiting) := by
  have horderly := performAll_orderly setup bound steps .start
  obtain ⟨added, hadded, hwaitings⟩ := horderly.told
  refine ⟨(horderly.kept [] kept_start).stops, ?_⟩
  rw [← hwaitings, hadded]
  rfl

end PineScript.Session
