import PineScript.Editor
import PineScript.Proofs.Session.Publication

/-!
# What editors show

An editor shows the diagnostics of a document that it was notified of last. Main statement: when all
passes have been run, in whatever order and however events came between, it shows what the analysis
of the text gives with which the document was opened or changed last, and nothing if it was closed
since (`editor_consistent`).
-/

namespace PineScript.Session

/-! ## What is asked and what is sent -/

/-- The text that a document is to be analysed with; none if its diagnostics are to be taken
back. -/
def Entry.request? (uri : String) : Entry → Option (Option String)
  | .submitted _ other source => if other = uri then some (some source) else none
  | .withdrawn other => if other = uri then some none else none
  | _ => none

def Step.request? (uri : String) : Step → Option (Option String)
  | .submit other source _ => if other = uri then some (some source) else none
  | .close other => if other = uri then some none else none
  | _ => none

def Delivery.for? (uri : String) (d : Delivery) : Option (List Diagnostic) :=
  if d.uri = uri then some d.diagnostics else none

/-- What was asked last for a document. -/
def asked (history : List Entry) (uri : String) : Option (Option String) :=
  (history.filterMap (Entry.request? uri)).getLast?

/-- What was sent last for a document. -/
def shown (history : List Entry) (uri : String) : Option (List Diagnostic) :=
  ((history.filterMap Entry.delivery?).filterMap (Delivery.for? uri)).getLast?

/-- The diagnostics that a request asks for. -/
def wanted (analysis : String → List Diagnostic) : Option String → List Diagnostic
  | some source => analysis source
  | none => []

variable {analysis : String → List Diagnostic} {history entries : List Entry} {uri : String}

theorem asked_append :
    asked (history ++ entries) uri = (asked entries uri).or (asked history uri) := by
  simp only [asked, List.filterMap_append, List.getLast?_append]

theorem shown_append :
    shown (history ++ entries) uri = (shown entries uri).or (shown history uri) := by
  simp only [shown, List.filterMap_append, List.getLast?_append]

theorem asked_submitted (pass : Nat) (other source : String) :
    asked [.submitted pass other source] uri =
      if other = uri then some (some source) else none := by
  by_cases hother : other = uri <;> simp [asked, Entry.request?, hother]

theorem asked_closed (other : String) :
    asked [.discarded other, .withdrawn other] uri = if other = uri then some none else none := by
  by_cases hother : other = uri <;> simp [asked, Entry.request?, hother]

theorem shown_closed (other : String) :
    shown [.discarded other, .withdrawn other] uri = if other = uri then some [] else none := by
  change ([⟨other, []⟩].filterMap (Delivery.for? uri)).getLast? = _
  by_cases hother : other = uri <;> simp [Delivery.for?, hother]

theorem asked_ending (pass : Nat) (delivery : Delivery) (published : Bool) :
    asked (ending pass delivery published) uri = none := by
  cases published <;> rfl

theorem shown_ending (pass : Nat) (delivery : Delivery) (published : Bool) :
    shown (ending pass delivery published) uri =
      if published ∧ delivery.uri = uri then some delivery.diagnostics else none := by
  cases published with
  | false => rfl
  | true =>
    change ([delivery].filterMap (Delivery.for? uri)).getLast? = _
    by_cases huri : delivery.uri = uri <;> simp [Delivery.for?, huri]

theorem filterMap_request?_ending (pass : Nat) (delivery : Delivery) (published : Bool) :
    (ending pass delivery published).filterMap (Entry.request? uri) = [] := by
  cases published <;> rfl

theorem history_close (l : Ledger) (other : String) :
    (l.close other).history = l.history ++ [.discarded other, .withdrawn other] :=
  List.append_assoc ..

/-- The requests in the history are those of the steps. -/
theorem Interleaving.requests {steps : List Step} {l : Ledger} {jobs : List Job}
    (h : Interleaving analysis steps l jobs) (uri : String) :
    l.history.filterMap (Entry.request? uri) = steps.filterMap (Step.request? uri) := by
  induction h with
  | start => rfl
  | respond step _ ih =>
    rw [List.filterMap_append, ← ih]
    cases step with
    | run _ | runAll => exact (List.append_nil _).symm
    | close other =>
      rw [Ledger.respond, history_close, List.filterMap_append]
      rfl
    | submit _ _ _ | discard _ | shutdown => exact List.filterMap_append
  | take _ _ _ _ ih => exact ih
  | conclude _ _ _ ih =>
    rw [← ih, Ledger.conclude, List.filterMap_append, filterMap_request?_ending, List.append_nil]

/-! ## What holds throughout -/

/-- The kinds of steps that an editor asks for, and those that run passes. -/
def StepKind.isEditing : StepKind → Bool
  | .submit | .close | .run | .runAll => true
  | .discard | .shutdown => false

/-- What was asked last for a document is shown, or the pass for it is still to end. -/
structure Displayed (analysis : String → List Diagnostic) (history : List Entry) (jobs : List Job) :
    Prop where
  /-- The latest pass for a document is for the text that was asked for last. -/
  latest : ∀ pass uri source, Latest history pass uri → .submitted pass uri source ∈ history →
    asked history uri = some (some source)
  shown : ∀ uri request, asked history uri = some request →
    shown history uri = some (wanted analysis request) ∨
      ∃ job ∈ jobs, job.uri = uri ∧ Latest history job.number uri ∧ request = some job.source

theorem displayed_empty : Displayed analysis [] [] where
  latest pass uri source _ h := by cases h
  shown uri request h := by cases h

namespace Displayed

variable {s : Schedule} {jobs : List Job} (h : Displayed analysis history jobs)

include h

theorem mono {jobs' : List Job} (hjobs : ∀ job ∈ jobs, job ∈ jobs') :
    Displayed analysis history jobs' where
  latest := h.latest
  shown uri request hasked := by
    refine (h.shown uri request hasked).imp_right ?_
    rintro ⟨job, hjob, hrest⟩
    exact ⟨job, hjobs job hjob, hrest⟩

theorem submit (hsound : Sound analysis s history jobs) (uri source : String)
    (i : Interruptions) :
    Displayed analysis (history ++ [.submitted s.submitted uri source])
      (⟨s.submitted, uri, source, i⟩ :: jobs) := by
  have hnew : Latest (history ++ [.submitted s.submitted uri source]) s.submitted uri :=
    latest_append_singleton.2 (.inl ⟨source, rfl⟩)
  have hasked :
      asked (history ++ [.submitted s.submitted uri source]) uri = some (some source) := by
    simp [asked_append, asked_submitted]
  -- Other documents are not concerned.
  have hothers {u : String} (hu : uri ≠ u) :
      asked (history ++ [.submitted s.submitted uri source]) u = asked history u ∧
      Session.shown (history ++ [.submitted s.submitted uri source]) u = Session.shown history u ∧
      ∀ n, Latest (history ++ [.submitted s.submitted uri source]) n u ↔ Latest history n u := by
    refine ⟨?_, ?_, fun n => latest_append (by simpa [Entry.supersedes] using hu)⟩
    · rw [asked_append, asked_submitted, if_neg hu, Option.none_or]
    · rw [shown_append]
      rfl
  constructor
  · intro n u src hlatest hmem
    by_cases hu : uri = u
    · subst hu
      obtain rfl := hlatest.unique hnew
      have hstanding := hsound.standing.submit uri source
      obtain ⟨-, rfl⟩ := hstanding.submitted_unique hmem (List.mem_append_right _ (.head _))
      exact hasked
    · obtain ⟨heq, -, hsame⟩ := hothers hu
      rw [heq]
      refine h.latest n u src ((hsame n).1 hlatest) ?_
      simpa [Ne.symm hu] using hmem
  · intro u request hrequest
    by_cases hu : uri = u
    · subst hu
      rw [hasked] at hrequest
      cases hrequest
      exact .inr ⟨_, .head _, rfl, hnew, rfl⟩
    · obtain ⟨heq, hshown, hsame⟩ := hothers hu
      rw [heq] at hrequest
      rw [hshown]
      refine (h.shown u request hrequest).imp_right ?_
      rintro ⟨job, hjob, huri, hlatest, hsource⟩
      exact ⟨job, .tail _ hjob, huri, (hsame _).2 hlatest, hsource⟩

theorem close (uri : String) :
    Displayed analysis (history ++ [.discarded uri, .withdrawn uri]) jobs := by
  have hnone (n : Nat) : ¬ Latest (history ++ [.discarded uri, .withdrawn uri]) n uri := by
    have hdiscarded : ¬ Latest (history ++ [.discarded uri]) n uri := by
      simp [latest_append_singleton, Entry.supersedes]
    have hquiet : ∀ e ∈ [Entry.withdrawn uri], e.supersedes uri = false := by
      simp [Entry.supersedes]
    rwa [← latest_append hquiet, List.append_assoc] at hdiscarded
  have hothers {u : String} (hu : uri ≠ u) :
      asked (history ++ [.discarded uri, .withdrawn uri]) u = asked history u ∧
      Session.shown (history ++ [.discarded uri, .withdrawn uri]) u = Session.shown history u ∧
      ∀ n, Latest (history ++ [.discarded uri, .withdrawn uri]) n u ↔ Latest history n u := by
    refine ⟨?_, ?_, fun n => latest_append (by simpa [Entry.supersedes] using hu)⟩
    · rw [asked_append, asked_closed, if_neg hu, Option.none_or]
    · rw [shown_append, shown_closed, if_neg hu, Option.none_or]
  constructor
  · intro n u src hlatest hmem
    have hu : uri ≠ u := by
      rintro rfl
      exact hnone n hlatest
    obtain ⟨heq, -, hsame⟩ := hothers hu
    rw [heq]
    exact h.latest n u src ((hsame n).1 hlatest) (by simpa using hmem)
  · intro u request hrequest
    by_cases hu : uri = u
    · subst hu
      have hasked : asked (history ++ [.discarded uri, .withdrawn uri]) uri = some none := by
        simp [asked_append, asked_closed]
      rw [hasked] at hrequest
      cases hrequest
      exact .inl (by simp [shown_append, shown_closed, wanted])
    · obtain ⟨heq, hshown, hsame⟩ := hothers hu
      rw [heq] at hrequest
      rw [hshown]
      refine (h.shown u request hrequest).imp_right ?_
      rintro ⟨job, hjob, huri, hlatest, hsource⟩
      exact ⟨job, hjob, huri, (hsame _).2 hlatest, hsource⟩

theorem conclude {job : Job} {others : List Job} (hjobs : jobs = job :: others)
    (hsound : Sound analysis s history jobs) :
    Displayed analysis (history ++ ending job.number ⟨job.uri, analysis job.source⟩
      (s.isCurrent job.uri job.number)) others := by
  subst hjobs
  have hlatest (n : Nat) (u : String) : Latest (history ++ ending job.number
      ⟨job.uri, analysis job.source⟩ (s.isCurrent job.uri job.number)) n u ↔ Latest history n u :=
    latest_append fun _ => supersedes_of_mem_ending
  have hmem := mem_of_account (hsound.waiting job (.head _))
  constructor
  · intro n u source hn hsubmitted
    rw [asked_append, asked_ending, Option.none_or]
    refine h.latest n u source ((hlatest n u).1 hn) ?_
    cases hcurrent : s.isCurrent job.uri job.number <;>
      simpa [ending, hcurrent] using hsubmitted
  · intro u request hrequest
    rw [asked_append, asked_ending, Option.none_or] at hrequest
    rw [shown_append, shown_ending]
    by_cases hpublished : s.isCurrent job.uri job.number = true ∧ job.uri = u
    · -- The pass is for the text that was asked for last, and now it is shown.
      obtain ⟨hcurrent, rfl⟩ := hpublished
      have hasked := h.latest _ _ _ (hsound.isCurrent_iff_latest.1 hcurrent) hmem
      rw [hasked] at hrequest
      cases hrequest
      exact .inl (by simp [hcurrent, wanted])
    · rw [if_neg hpublished, Option.none_or]
      refine (h.shown u request hrequest).imp_right ?_
      rintro ⟨other, hother, rfl, hother_latest, hsource⟩
      rcases List.mem_cons.1 hother with rfl | hother
      · exact absurd ⟨hsound.isCurrent_iff_latest.2 hother_latest, rfl⟩ hpublished
      · exact ⟨other, hother, rfl, (hlatest _ _).2 hother_latest, hsource⟩

end Displayed

theorem Interleaving.displayed {steps : List Step} {l : Ledger} {jobs : List Job}
    (h : Interleaving analysis steps l jobs)
    (hsteps : ∀ step ∈ steps, step.kind.isEditing = true) :
    l.refusing = false ∧ Displayed analysis l.history (l.queue ++ jobs) := by
  induction h with
  | start => exact ⟨rfl, displayed_empty⟩
  | @respond steps l jobs step hbefore ih =>
    obtain ⟨hrefusing, hdisplayed⟩ := ih fun x hx => hsteps x (List.mem_append_left _ hx)
    have hkind := hsteps step (List.mem_append_right _ (.head _))
    cases step with
    | submit uri source i =>
      refine ⟨hrefusing, ?_⟩
      refine (hdisplayed.submit hbefore.sound uri source i).mono fun job hjob => ?_
      simp only [Ledger.respond, Ledger.submit, hrefusing, Bool.false_eq_true, ↓reduceIte,
        List.mem_append, List.mem_cons, List.not_mem_nil, or_false] at hjob ⊢
      tauto
    | run _ => exact ⟨hrefusing, hdisplayed⟩
    | runAll => exact ⟨hrefusing, hdisplayed⟩
    | close uri =>
      refine ⟨hrefusing, ?_⟩
      rw [Ledger.respond, history_close]
      exact hdisplayed.close uri
    | discard _ => cases hkind
    | shutdown => cases hkind
  | @take steps l jobs job front behind hqueue _ ih =>
    obtain ⟨hrefusing, hdisplayed⟩ := ih hsteps
    refine ⟨hrefusing, hdisplayed.mono fun other hother => ?_⟩
    rw [hqueue] at hother
    simp only [List.mem_append, List.mem_cons] at hother ⊢
    tauto
  | @conclude steps l job front behind hbefore ih =>
    obtain ⟨hrefusing, hdisplayed⟩ := ih hsteps
    have hperm := perm_job l.queue front behind job
    refine ⟨hrefusing, ?_⟩
    exact (hdisplayed.mono fun other => hperm.mem_iff.1).conclude rfl (hbefore.sound.perm hperm)

/-- When no pass is left, what is asked last for a document is shown. -/
theorem Interleaving.shown_eq {steps : List Step} {l : Ledger}
    (h : Interleaving analysis steps l [])
    (hsteps : ∀ step ∈ steps, step.kind.isEditing = true) (hqueue : l.queue = [])
    {request : Option String} (hrequest : asked l.history uri = some request) :
    shown l.history uri = some (wanted analysis request) := by
  rcases (h.displayed hsteps).2.shown uri request hrequest with hshown | ⟨job, hjob, -⟩
  · exact hshown
  · rw [hqueue] at hjob
    cases hjob

end PineScript.Session

namespace PineScript.Editor

open Session

def Event.uri : Event → String
  | opened uri _ | changed uri _ | closed uri => uri

/-- The text of the document after the event; none if it is closed. -/
def Event.text? : Event → Option String
  | opened _ text | changed _ text => some text
  | closed _ => none

/-- The notifications of a document. -/
def notifications (deliveries : List Delivery) (uri : String) : List Notification :=
  (deliveries.map Notification.ofDelivery).filter (·.uri = uri)

/-- The notification that fits a document with this text, or one that is closed. -/
def Notification.fitting (digits : DigitLimit) (rules : List Rule) (uri : String)
    (text : Option String) : Notification :=
  ⟨uri, (wanted (analyzeWithin digits rules) text).map Issue.ofDiagnostic⟩

theorem notifications_eq (deliveries : List Delivery) (uri : String) :
    notifications deliveries uri =
      (deliveries.filterMap (Delivery.for? uri)).map
        fun ds => ⟨uri, ds.map Issue.ofDiagnostic⟩ := by
  induction deliveries with
  | nil => rfl
  | cons d more ih =>
    unfold notifications at ih ⊢
    by_cases huri : d.uri = uri
    · simp [Notification.ofDelivery, Delivery.for?, huri, ih]
    · simp [Notification.ofDelivery, Delivery.for?, huri, ih]

theorem getLast?_notifications {history : List Entry} {uri : String} {digits : DigitLimit}
    {rules : List Rule} {text : Option String}
    (h : shown history uri = some (wanted (analyzeWithin digits rules) text)) :
    (notifications (history.filterMap Entry.delivery?) uri).getLast? =
      some (.fitting digits rules uri text) := by
  rw [notifications_eq, List.getLast?_map]
  exact congrArg (Option.map _) h

theorem filterMap_request?_step (events : List Event) (uri : String) :
    (events.map Event.step).filterMap (Step.request? uri) =
      (events.filter (·.uri = uri)).map Event.text? := by
  induction events with
  | nil => rfl
  | cons e more ih =>
    by_cases huri : e.uri = uri
    · have hstep : e.step.request? uri = some e.text? := by
        cases e <;> exact if_pos huri
      simp [hstep, huri, ih]
    · have hstep : e.step.request? uri = none := by
        cases e <;> exact if_neg huri
      simp [hstep, huri, ih]

/-- However events come while passes wait or are under way, once no pass is left an editor was
notified last of the diagnostics of each document with its latest text, or of none if it is closed.
The same holds of a session whose steps are taken in the order that they are given in, with others
nested in them, for what its reports tell. -/
theorem editor_consistent (digits : DigitLimit) (rules : List Rule) (uri : String) :
    (∀ (events : List Event) (l : Ledger) (e : Event),
      Interleaving (analyzeWithin digits rules) (events.map Event.step) l [] → l.queue = [] →
      (events.filter (·.uri = uri)).getLast? = some e →
      (notifications (l.history.filterMap Entry.delivery?) uri).getLast? =
        some (.fitting digits rules uri e.text?)) ∧
    (∀ immediate steps text, Step.arePlain StepKind.isEditing steps = true →
      (outcome ⟨rules, immediate, digits⟩ steps).queue = [] →
      asked (outcome ⟨rules, immediate, digits⟩ steps).history uri = some text →
      (notifications ((Report.allNews (replay ⟨rules, immediate, digits⟩ steps)).filterMap
        News.delivery?) uri).getLast? = some (.fitting digits rules uri text)) := by
  constructor
  · intro events l e hinterleaving hqueue hlast
    refine getLast?_notifications (hinterleaving.shown_eq ?_ hqueue ?_)
    · intro step hstep
      obtain ⟨e, -, rfl⟩ := List.mem_map.1 hstep
      cases e <;> rfl
    · rw [asked, hinterleaving.requests, filterMap_request?_step, List.getLast?_map, hlast]
      rfl
  · intro immediate steps text hsteps hqueue hasked
    obtain ⟨order, horder, hinterleaving⟩ := outcome_arises ⟨rules, immediate, digits⟩ hsteps
    rw [replay_deliveries ⟨rules, immediate, digits⟩ hsteps]
    exact getLast?_notifications (hinterleaving.shown_eq horder hqueue hasked)

/-- Passes that are run in the order opposite to that of the events, with the first one under way
while the second ends. Their texts have different diagnostics. -/
theorem editor_consistent_reversed :
    let events : List Event := [.opened "a" "", .changed "a" "("]
    let analysis := analyzeWithin .standard []
    let first : Job := ⟨0, "a", "", .none⟩
    let second : Job := ⟨1, "a", "(", .none⟩
    let l := { (Ledger.empty.submit "a" "" .none).submit "a" "(" .none with queue := [] }
    let l := (l.conclude second (analysis "(")).conclude first (analysis "")
    let steps : List Step := [.submit "a" "(" .none, .run 0, .close "a"]
    analysis "" ≠ analysis "(" ∧
    (Interleaving analysis (events.map Event.step) l [] ∧
      (notifications (l.history.filterMap Entry.delivery?) "a").getLast? =
        some (.fitting .standard [] "a" (some "("))) ∧
    Step.arePlain StepKind.isEditing steps = true ∧
      (notifications ((Report.allNews (replay ⟨[], false, .standard⟩ steps)).filterMap
        News.delivery?) "a").getLast? = some (.fitting .standard [] "a" none) := by
  intro events analysis first second l₀ l steps
  have hinterleaving : Interleaving analysis (events.map Event.step) l [] := by
    have hevents : Interleaving analysis (events.map Event.step)
        ((Ledger.empty.submit "a" "" .none).submit "a" "(" .none) [] :=
      .respond (Event.changed "a" "(").step (.respond (Event.opened "a" "").step .start)
    have hfirst := hevents.take [] [second] rfl
    have hboth := hfirst.take [] [] rfl
    exact (hboth.conclude [] [first]).conclude [] []
  have hshown := editor_consistent .standard [] "a"
  refine ⟨by decide +kernel,
    ⟨hinterleaving, hshown.1 events l (.changed "a" "(") hinterleaving rfl rfl⟩, rfl, ?_⟩
  exact hshown.2 false steps none rfl (List.isEmpty_iff.1 (by decide +kernel)) (by decide +kernel)

end PineScript.Editor
