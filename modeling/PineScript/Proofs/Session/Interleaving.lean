import PineScript.Proofs.Session.Standing

/-!
# Interleaved passes

Passes may start and end in any order, with steps between. `Interleaving` holds of the ledgers that
come about in this way. What they tell of a pass is settled when it ends: it publishes what the
analysis of its own text gives if nothing has taken its place until then, and nothing otherwise.
-/

namespace PineScript.Session

/-! ## What a history tells of a pass -/

namespace Entry

/-- The pass that an entry names. -/
def pass? : Entry → Option Nat
  | .submitted pass _ _ | .analysed pass | .published pass _ | .returned pass _ => some pass
  | .discarded _ | .shutDown | .withdrawn _ => none

/-- The pass that was submitted for a document. -/
def submissionFor? (uri : String) : Entry → Option Nat
  | .submitted pass other _ => if other = uri then some pass else none
  | _ => none

/-- The pass that published for a document. -/
def publicationFor? (uri : String) : Entry → Option Nat
  | .published pass delivery => if delivery.uri = uri then some pass else none
  | _ => none

end Entry

/-- All entries that name a pass. -/
def account (history : List Entry) (pass : Nat) : List Entry :=
  history.filter fun e => e.pass? = some pass

/-- What happens at the end of a pass. -/
def ending (pass : Nat) (delivery : Delivery) (published : Bool) : List Entry :=
  .analysed pass :: (if published then [.published pass delivery] else [])
    ++ [.returned pass published]

/-- A pass has come to its end, and published the analysis of its own text if and only if nothing
took its place between its submission and the end of its analysis. -/
def Settled (analysis : String → List Diagnostic) (history : List Entry) (pass : Nat)
    (published : Bool) : Prop :=
  ∃ uri source front between behind,
    history = front ++ .submitted pass uri source :: between ++ .analysed pass :: behind ∧
    (published = true ↔ ∀ e ∈ between, e.supersedes uri = false) ∧
    account history pass =
      .submitted pass uri source :: ending pass ⟨uri, analysis source⟩ published

variable {analysis : String → List Diagnostic} {history : List Entry} {e : Entry}
  {pass : Nat} {uri source : String} {delivery : Delivery} {published : Bool}

theorem account_append (front behind : List Entry) (pass : Nat) :
    account (front ++ behind) pass = account front pass ++ account behind pass :=
  List.filter_append ..

theorem account_append_of_ne {entries : List Entry} (h : ∀ e ∈ entries, e.pass? ≠ some pass) :
    account (history ++ entries) pass = account history pass := by
  have hnone : account entries pass = [] := by simpa [account, List.filter_eq_nil_iff] using h
  rw [account_append, hnone, List.append_nil]

theorem mem_account : e ∈ account history pass ↔ e ∈ history ∧ e.pass? = some pass := by
  simp [account]

/-- The only entry of a pass stands in the history. -/
theorem mem_of_account (h : account history pass = [e]) : e ∈ history := by
  have hmem : e ∈ account history pass := h ▸ List.mem_singleton_self e
  exact (mem_account.1 hmem).1

theorem pass?_of_mem_ending (h : e ∈ ending pass delivery published) : e.pass? = some pass := by
  cases published <;> grind [ending, Entry.pass?]

/-- The end of a pass takes no other's place. -/
theorem supersedes_of_mem_ending (h : e ∈ ending pass delivery published) :
    e.supersedes uri = false := by
  cases published <;> grind [ending, Entry.supersedes]

theorem account_ending : account (ending pass delivery published) pass =
    ending pass delivery published := by
  rw [account, List.filter_eq_self]
  intro e he
  exact decide_eq_true (pass?_of_mem_ending he)

theorem account_ending_of_ne {other : Nat} (h : other ≠ pass) :
    account (history ++ ending pass delivery published) other = account history other := by
  refine account_append_of_ne fun e he => ?_
  rw [pass?_of_mem_ending he]
  simpa using h.symm

namespace Settled

/-- What names another pass, or none, leaves a settled pass as it is. -/
theorem append (h : Settled analysis history pass published) {entries : List Entry}
    (hne : ∀ e ∈ entries, e.pass? ≠ some pass) :
    Settled analysis (history ++ entries) pass published := by
  obtain ⟨uri, source, front, between, behind, hsplit, hplace, haccount⟩ := h
  refine ⟨uri, source, front, between, behind ++ entries, ?_, hplace, ?_⟩
  · rw [hsplit]
    simp
  · rw [account_append_of_ne hne, haccount]

/-- A pass that ends is settled by whether it was still the latest for its document. -/
theorem of_ending (haccount : account history pass = [.submitted pass uri source])
    (hlatest : published = true ↔ Latest history pass uri) :
    Settled analysis (history ++ ending pass ⟨uri, analysis source⟩ published) pass published := by
  have hnew : account (history ++ ending pass ⟨uri, analysis source⟩ published) pass =
      .submitted pass uri source :: ending pass ⟨uri, analysis source⟩ published := by
    rw [account_append, haccount, account_ending, List.singleton_append]
  cases published with
  | true =>
    obtain ⟨front, source', behind, rfl, hbehind⟩ := hlatest.1 rfl
    -- The submission is the only entry of the pass so far, so the texts agree.
    have hsame : Entry.submitted pass uri source' ∈ [Entry.submitted pass uri source] :=
      haccount ▸ mem_account.2 ⟨List.mem_append_right _ (.head _), rfl⟩
    cases List.mem_singleton.1 hsame
    exact ⟨uri, source, front, behind, _, rfl, ⟨fun _ => hbehind, fun _ => rfl⟩, hnew⟩
  | false =>
    obtain ⟨front, between, rfl⟩ := List.append_of_mem (mem_of_account haccount)
    refine ⟨uri, source, front, between, _, rfl, ⟨nofun, fun hbetween => ?_⟩, hnew⟩
    exact hlatest.2 ⟨front, source, between, rfl, hbetween⟩

end Settled

/-! ## Order -/

/-- Passes publish for a document in the order in which they were submitted. -/
def Ordered (history : List Entry) (uri : String) : Prop :=
  (history.filterMap (Entry.publicationFor? uri)).Sublist
    (history.filterMap (Entry.submissionFor? uri))

/-- The latest pass for a document is the last one that was submitted for it. -/
theorem Latest.submissionFor (h : Latest history pass uri) :
    ∃ earlier, history.filterMap (Entry.submissionFor? uri) = earlier ++ [pass] := by
  obtain ⟨front, source, behind, rfl, hbehind⟩ := h
  have hnone : behind.filterMap (Entry.submissionFor? uri) = [] := by
    rw [List.filterMap_eq_nil_iff]
    intro e he
    have := hbehind e he
    cases e <;> grind [Entry.supersedes, Entry.submissionFor?]
  refine ⟨front.filterMap (Entry.submissionFor? uri), ?_⟩
  simp [Entry.submissionFor?, hnone]

namespace Ordered

variable (h : Ordered history uri)

include h

/-- What is not published does not disturb the order. -/
theorem append {entries : List Entry} (hnone : ∀ e ∈ entries, e.publicationFor? uri = none) :
    Ordered (history ++ entries) uri := by
  unfold Ordered
  rw [List.filterMap_append, List.filterMap_append, List.filterMap_eq_nil_iff.2 hnone,
    List.append_nil]
  exact h.trans (List.sublist_append_left ..)

theorem publish (hlatest : Latest history pass uri)
    (hfirst : account history pass = [.submitted pass uri source]) (ds : List Diagnostic) :
    Ordered (history ++ ending pass ⟨uri, ds⟩ true) uri := by
  obtain ⟨earlier, hearlier⟩ := hlatest.submissionFor
  have hnew : pass ∉ history.filterMap (Entry.publicationFor? uri) := by
    intro hmem
    obtain ⟨e, he, hpass⟩ := List.mem_filterMap.1 hmem
    have hin : e ∈ account history pass := mem_account.2 ⟨he, by
      cases e <;> grind [Entry.publicationFor?, Entry.pass?]⟩
    rw [hfirst, List.mem_singleton] at hin
    rw [hin] at hpass
    cases hpass
  have hsub : (history.filterMap (Entry.publicationFor? uri)).Sublist earlier := by
    have hboth := h
    unfold Ordered at hboth
    rw [hearlier, List.sublist_append_iff] at hboth
    obtain ⟨before, last, heq, hbefore, hlast⟩ := hboth
    cases hlast with
    | cons _ hnil =>
      rwa [heq, List.sublist_nil.1 hnil, List.append_nil]
    | cons_cons _ hnil =>
      exact absurd (heq ▸ List.mem_append_right before List.mem_cons_self) hnew
  have hpublished :
      (ending pass ⟨uri, ds⟩ true).filterMap (Entry.publicationFor? uri) = [pass] := by
    simp [ending, Entry.publicationFor?, List.filterMap]
  have hsubmitted : (ending pass ⟨uri, ds⟩ true).filterMap (Entry.submissionFor? uri) = [] := rfl
  unfold Ordered
  rw [List.filterMap_append, List.filterMap_append, hearlier, hpublished, hsubmitted,
    List.append_nil]
  exact hsub.append (.refl _)

end Ordered

/-! ## What holds throughout -/

/-- What holds of the passes at any time: `jobs` are those that wait or are under way. -/
structure Sound (analysis : String → List Diagnostic) (s : Schedule) (history : List Entry)
    (jobs : List Job) : Prop where
  standing : Standing s history
  /-- No entry names a pass that was not submitted. -/
  named : ∀ e ∈ history, ∀ pass, e.pass? = some pass → pass < s.submitted
  distinct : (jobs.map Job.number).Nodup
  /-- Nothing is known of a pass that has not ended but that it was submitted. -/
  waiting : ∀ job ∈ jobs,
    account history job.number = [.submitted job.number job.uri job.source]
  settled : ∀ pass published, .returned pass published ∈ history →
    Settled analysis history pass published
  ordered : ∀ uri, Ordered history uri

theorem sound_empty : Sound analysis .empty [] [] where
  standing := standing_empty
  named := by simp
  distinct := by simp
  waiting := by simp
  settled := by simp
  ordered _ := .slnil

namespace Sound

variable {s : Schedule} {job : Job} {jobs : List Job} 

theorem perm (h : Sound analysis s history jobs) {jobs' : List Job} (hperm : jobs.Perm jobs') :
    Sound analysis s history jobs' where
  standing := h.standing
  named := h.named
  distinct := (hperm.map _).nodup_iff.1 h.distinct
  waiting job hjob := h.waiting job (hperm.mem_iff.2 hjob)
  settled := h.settled
  ordered := h.ordered

theorem tail (h : Sound analysis s history (job :: jobs)) : Sound analysis s history jobs where
  standing := h.standing
  named := h.named
  distinct := (List.nodup_cons.1 h.distinct).2
  waiting other hother := h.waiting other (.tail _ hother)
  settled := h.settled
  ordered := h.ordered

/-- What happens to no pass in particular changes only where passes stand. -/
theorem aside (h : Sound analysis s history jobs) {s' : Schedule}
    (hstanding : Standing s' (history ++ [e])) (hsubmitted : s'.submitted = s.submitted)
    (hpass : e.pass? = none) : Sound analysis s' (history ++ [e]) jobs where
  standing := hstanding
  named x hx pass hnames := by
    rw [hsubmitted]
    rcases List.mem_append.1 hx with hx | hx
    · exact h.named x hx pass hnames
    · rw [List.mem_singleton.1 hx, hpass] at hnames
      cases hnames
  distinct := h.distinct
  waiting job hjob := by
    rw [account_append_of_ne (by simp [hpass]), h.waiting job hjob]
  settled pass published hreturned := by
    rcases List.mem_append.1 hreturned with hreturned | hreturned
    · exact (h.settled pass published hreturned).append (by simp [hpass])
    · rw [← List.mem_singleton.1 hreturned] at hpass
      cases hpass
  ordered uri := (h.ordered uri).append (by cases e <;> grind [Entry.pass?, Entry.publicationFor?])

theorem submit (h : Sound analysis s history jobs) (uri source : String) (i : Interruptions) :
    Sound analysis (s.submit uri) (history ++ [.submitted s.submitted uri source])
      (⟨s.submitted, uri, source, i⟩ :: jobs) := by
  have hnone : account history s.submitted = [] := by
    rw [account, List.filter_eq_nil_iff]
    intro e he hnames
    exact Nat.lt_irrefl _ (h.named e he _ (of_decide_eq_true hnames))
  have hold (job : Job) (hjob : job ∈ jobs) : job.number ≠ s.submitted := by
    intro heq
    have := h.waiting job hjob
    rw [heq, hnone] at this
    cases this
  refine ⟨h.standing.submit uri source, ?_, ?_, ?_, ?_, ?_⟩
  · intro e he pass hnames
    change pass < s.submitted + 1
    rcases List.mem_append.1 he with he | he
    · exact Nat.lt_succ_of_lt (h.named e he pass hnames)
    · rw [List.mem_singleton.1 he] at hnames
      cases hnames
      exact Nat.lt_succ_self _
  · rw [List.map_cons, List.nodup_cons]
    refine ⟨fun hmem => ?_, h.distinct⟩
    obtain ⟨job, hjob, heq⟩ := List.mem_map.1 hmem
    exact hold job hjob heq
  · intro job hjob
    rcases List.mem_cons.1 hjob with rfl | hjob
    · rw [account_append, hnone]
      simp [account, Entry.pass?]
    · have hne : some s.submitted ≠ some job.number := by simpa using (hold job hjob).symm
      rw [account_append_of_ne (by simpa [Entry.pass?] using hne), h.waiting job hjob]
  · intro pass published hreturned
    have hmem : .returned pass published ∈ history := by simpa using hreturned
    have hne : s.submitted ≠ pass := Nat.ne_of_gt (h.named _ hmem pass rfl)
    exact (h.settled pass published hmem).append (by simpa [Entry.pass?] using hne)
  · intro u
    exact (h.ordered u).append (by simp [Entry.publicationFor?])

/-- At its end a pass publishes just in case it is the latest. -/
theorem isCurrent_iff_latest (h : Sound analysis s history (job :: jobs)) :
    s.isCurrent job.uri job.number = true ↔ Latest history job.number job.uri := by
  have hopen : ¬ Ended history job.number := by
    rintro ⟨published, hreturned⟩
    have hin := mem_account.2 ⟨hreturned, rfl⟩
    rw [h.waiting job (.head _), List.mem_singleton] at hin
    cases hin
  rw [Schedule.isCurrent_iff, h.standing.current]
  constructor
  · exact fun hcurrent => hcurrent.1.1
  · intro hlatest
    refine ⟨⟨hlatest, hopen⟩, Bool.eq_false_iff.2 fun hcancelled => ?_⟩
    exact h.standing.cancelled _ hcancelled _ hlatest

/-- The end of a pass settles it and leaves all others as they are. -/
theorem finish (h : Sound analysis s history (job :: jobs)) {published : Bool}
    (hlatest : published = true ↔ Latest history job.number job.uri) :
    Sound analysis (s.finish job.uri job.number)
      (history ++ ending job.number ⟨job.uri, analysis job.source⟩ published) jobs := by
  have haccount := h.waiting job (.head _)
  have hsubmitted : (s.finish job.uri job.number).submitted = s.submitted := by
    unfold Schedule.finish
    split <;> rfl
  have hothers : ∀ other ∈ jobs, other.number ≠ job.number := by
    intro other hother heq
    exact (List.nodup_cons.1 h.distinct).1 (heq ▸ List.mem_map_of_mem hother)
  refine ⟨?_, ?_, ?_, ?_, ?_, ?_⟩
  · have hmem := mem_of_account haccount
    have hanalysed := h.standing.aside (e := .analysed job.number) rfl (fun _ => rfl) nofun
    cases published with
    | false =>
      simpa [ending] using hanalysed.finish (List.mem_append_left _ hmem) false
    | true =>
      have hpublished := hanalysed.aside
        (e := .published job.number ⟨job.uri, analysis job.source⟩) rfl (fun _ => rfl) nofun
      simpa [ending] using
        hpublished.finish (List.mem_append_left _ (List.mem_append_left _ hmem)) true
  · intro e he pass hnames
    rw [hsubmitted]
    rcases List.mem_append.1 he with he | he
    · exact h.named e he pass hnames
    · rw [pass?_of_mem_ending he] at hnames
      cases hnames
      exact h.named _ (mem_of_account haccount) _ rfl
  · exact (List.nodup_cons.1 h.distinct).2
  · intro other hother
    rw [account_ending_of_ne (hothers other hother)]
    exact h.waiting other (.tail _ hother)
  · intro pass b hreturned
    rcases List.mem_append.1 hreturned with hreturned | hreturned
    · -- A pass that has ended before is not the one that ends now, which has one entry only.
      have hne : job.number ≠ pass := by
        rintro rfl
        have hin := mem_account.2 ⟨hreturned, rfl⟩
        rw [haccount, List.mem_singleton] at hin
        cases hin
      refine (h.settled pass b hreturned).append fun e he => ?_
      rw [pass?_of_mem_ending he]
      simpa using hne
    · obtain ⟨rfl, rfl⟩ : job.number = pass ∧ published = b := by
        cases published <;> simpa [ending, eq_comm] using hreturned
      exact .of_ending haccount hlatest
  · intro uri
    cases published with
    | false => exact (h.ordered uri).append (by simp [ending, Entry.publicationFor?])
    | true =>
      by_cases huri : job.uri = uri
      · subst huri
        exact (h.ordered job.uri).publish (hlatest.1 rfl) haccount _
      · exact (h.ordered uri).append (by simp [ending, Entry.publicationFor?, huri])

end Sound

/-! ## Interleavings -/

namespace Ledger

/-- What a step does by itself, without running any pass. -/
def respond (l : Ledger) : Step → Ledger
  | .submit uri source i => l.submit uri source i
  | .discard uri => l.discard uri
  | .close uri => l.close uri
  | .shutdown => l.shutdown
  | .run _ | .runAll => l

/-- The end of a pass: it publishes its result if it is the one that counts. -/
def conclude (l : Ledger) (job : Job) (ds : List Diagnostic) : Ledger :=
  let current := l.schedule.isCurrent job.uri job.number
  { l with
    schedule := if current then l.schedule.finish job.uri job.number else l.schedule
    history := l.history ++ ending job.number ⟨job.uri, ds⟩ current }

end Ledger

/-- Steps come one after the other, and meanwhile passes are taken from the queue and end, in any
order. The last argument holds the passes under way. -/
inductive Interleaving (analysis : String → List Diagnostic) : List Step → Ledger → List Job → Prop
  | start : Interleaving analysis [] .empty []
  | respond {steps : List Step} {l : Ledger} {jobs : List Job} (step : Step) :
    Interleaving analysis steps l jobs →
      Interleaving analysis (steps ++ [step]) (l.respond step) jobs
  | take {steps : List Step} {l : Ledger} {jobs : List Job} {job : Job} (front behind : List Job) :
    l.queue = front ++ job :: behind → Interleaving analysis steps l jobs →
    Interleaving analysis steps { l with queue := front ++ behind } (job :: jobs)
  | conclude {steps : List Step} {l : Ledger} {job : Job} (front behind : List Job) :
    Interleaving analysis steps l (front ++ job :: behind) →
    Interleaving analysis steps (l.conclude job (analysis job.source)) (front ++ behind)

namespace Sound

variable {l : Ledger} {job : Job} {jobs : List Job}

theorem respond (h : Sound analysis l.schedule l.history (l.queue ++ jobs)) (step : Step) :
    Sound analysis (l.respond step).schedule (l.respond step).history
      ((l.respond step).queue ++ jobs) := by
  have hdiscard (uri : String) :
      Sound analysis (l.discard uri).schedule (l.discard uri).history (l.queue ++ jobs) :=
    h.aside (h.standing.discard uri) rfl rfl
  cases step with
  | submit uri source i =>
    have hsubmit := h.submit uri source i
    cases hrefusing : l.refusing with
    | true => simpa [Ledger.respond, Ledger.submit, hrefusing] using hsubmit.tail
    | false =>
      have hperm : (⟨l.schedule.submitted, uri, source, i⟩ :: (l.queue ++ jobs)).Perm
          ((l.queue ++ [⟨l.schedule.submitted, uri, source, i⟩]) ++ jobs) := by
        rw [List.append_assoc]
        exact List.perm_middle.symm
      simpa [Ledger.respond, Ledger.submit, hrefusing] using hsubmit.perm hperm
  | run _ => exact h
  | runAll => exact h
  | discard uri => exact hdiscard uri
  | close uri =>
    have hstanding := (hdiscard uri).standing.aside (e := .withdrawn uri) rfl (fun _ => rfl) nofun
    exact (hdiscard uri).aside hstanding rfl rfl
  | shutdown => exact h.aside h.standing.shutdown rfl rfl

theorem conclude (h : Sound analysis l.schedule l.history (job :: jobs)) :
    Sound analysis (l.conclude job (analysis job.source)).schedule
      (l.conclude job (analysis job.source)).history jobs := by
  have hlatest := h.isCurrent_iff_latest
  -- A pass that does not count has no mark on the schedule that its end could take away.
  have hschedule : (l.conclude job (analysis job.source)).schedule =
      l.schedule.finish job.uri job.number := by
    simp only [Ledger.conclude]
    split
    · rfl
    · rename_i hstale
      refine (if_neg fun hpass => hstale ?_).symm
      exact hlatest.2 ((h.standing.current _ _).1 hpass).1
  rw [hschedule]
  exact h.finish hlatest

end Sound

/-- The pass that ends is brought to the front. -/
theorem perm_job (queue front behind : List Job) (job : Job) :
    (queue ++ (front ++ job :: behind)).Perm (job :: (queue ++ (front ++ behind))) := by
  rw [← List.append_assoc, ← List.append_assoc]
  exact List.perm_middle

theorem Interleaving.sound {steps : List Step} {l : Ledger} {jobs : List Job}
    (h : Interleaving analysis steps l jobs) :
    Sound analysis l.schedule l.history (l.queue ++ jobs) := by
  induction h with
  | start => exact sound_empty
  | respond step _ ih => exact ih.respond step
  | @take steps l jobs job front behind hqueue _ ih =>
    rw [hqueue] at ih
    refine ih.perm ?_
    have hmiddle : (front ++ job :: behind).Perm (job :: (front ++ behind)) := List.perm_middle
    exact (hmiddle.append_right jobs).trans List.perm_middle.symm
  | @conclude steps l job front behind _ ih =>
    exact (ih.perm (perm_job l.queue front behind job)).conclude

end PineScript.Session
