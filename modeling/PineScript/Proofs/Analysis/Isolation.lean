import PineScript.Analysis.Engine
import PineScript.Proofs.Analysis.Run

/-!
# Rules on their own

A pass joins what its rules add, each on its own: a rule that fails in whatever way is replaced by
one error that names it, and nothing of what it gave before is left. Only the checkpoints in front
of the rules stop a pass. So the failure of a rule never does, and neither does a cancellation for
which no checkpoint is left.

Main statement: `Engine.run_isolates_rules`.
-/

namespace PineScript

/-! ## Verdicts -/

/-- The ways in which a verdict is not a list of diagnostics, each with the failure it counts as. -/
inductive Verdict.Fails : Verdict → Failure → Prop
  | failed (failure : Failure) : Fails (.failed failure) failure
  | broken (items : List Item) (failure : Failure) : Fails (.broken items failure) failure
  | value (kind : ScalarKind) : Fails (.value kind) (.notAList kind)
  | item (ds : List Diagnostic) (kind : ValueKind) (more : List Item) :
      Fails (.items (ds.map .diagnostic ++ .value kind :: more)) (.notADiagnostic kind)

/-- A list of items is read up to the first that is no diagnostic. -/
theorem Verdict.itemsToList_append (ds : List Diagnostic) (kind : ValueKind) (more : List Item) :
    itemsToList (ds.map .diagnostic ++ .value kind :: more) = .error (.notADiagnostic kind) := by
  induction ds with
  | nil => rfl
  | cons d ds ih =>
    rw [List.map_cons, List.cons_append, itemsToList, ih]
    rfl

theorem Verdict.Fails.diagnostics_eq {verdict : Verdict} {failure : Failure}
    (h : verdict.Fails failure) : verdict.diagnostics = .error failure := by
  cases h with
  | failed => rfl
  | broken => rfl
  | value => rfl
  | item ds kind more => exact itemsToList_append ds kind more

theorem Item.all_or_first_value (items : List Item) :
    (∃ ds : List Diagnostic, items = ds.map .diagnostic) ∨
      ∃ (ds : List Diagnostic) (kind : ValueKind) (more : List Item),
        items = ds.map .diagnostic ++ .value kind :: more := by
  induction items with
  | nil => exact .inl ⟨[], rfl⟩
  | cons first items ih =>
    cases first with
    | value kind => exact .inr ⟨[], kind, items, rfl⟩
    | diagnostic d =>
      rcases ih with ⟨ds, rfl⟩ | ⟨ds, kind, more, rfl⟩
      · exact .inl ⟨d :: ds, rfl⟩
      · exact .inr ⟨d :: ds, kind, more, rfl⟩

/-- A verdict is a list of diagnostics, or it fails. -/
theorem Verdict.whole_or_fails (verdict : Verdict) :
    (∃ ds, verdict = .ofDiagnostics ds) ∨ ∃ failure, verdict.Fails failure := by
  cases verdict with
  | items items =>
    rcases Item.all_or_first_value items with ⟨ds, rfl⟩ | ⟨ds, kind, more, rfl⟩
    · exact .inl ⟨ds, rfl⟩
    · exact .inr ⟨_, .item ds kind more⟩
  | value kind => exact .inr ⟨_, .value kind⟩
  | failed failure => exact .inr ⟨_, .failed failure⟩
  | broken items failure => exact .inr ⟨_, .broken items failure⟩

namespace Engine

/-- The error that reports the failure of a rule, at the start of the document. -/
structure Reports (id : String) (failure : Failure) (d : Diagnostic) : Prop where
  code : d.code = "RULE_INTERNAL_ERROR"
  severity : d.severity = .error
  range : d.range = ⟨⟨0, 0⟩, ⟨0, 0⟩⟩
  message : d.message = "Rule `" ++ id ++ "` failed: " ++ failure.describe

theorem reports_internalError (id : String) (failure : Failure) :
    Reports id failure (internalError id failure) where
  code := rfl
  severity := rfl
  range := rfl
  message := by simp [internalError, toString, String.append_assoc]

/-- What a rule adds to the result: its diagnostics if it hands back nothing else, and otherwise one
error that names it. -/
structure Contributes (id : String) (verdict : Verdict) (own : List Diagnostic) : Prop where
  whole : ∀ ds, verdict = .ofDiagnostics ds → own = ds
  otherwise : (∀ ds, verdict ≠ .ofDiagnostics ds) →
    ∃ failure d, verdict.Fails failure ∧ Reports id failure d ∧ own = [d]

section

variable {σ : Type} (host : Host σ)

theorem contributes_contribution (id : String) (verdict : Verdict) (s : σ) :
    Contributes id verdict (contribution host id verdict s).1 where
  whole := by
    rintro ds rfl
    rw [contribution, Verdict.diagnostics_ofDiagnostics]
  otherwise hpartial := by
    obtain ⟨ds, hwhole⟩ | ⟨failure, hfails⟩ := verdict.whole_or_fails
    · exact absurd hwhole (hpartial ds)
    · refine ⟨failure, _, hfails, reports_internalError id failure, ?_⟩
      rw [contribution, hfails.diagnostics_eq]

/-- The state has no part in what a verdict adds. -/
theorem contribution_fst (id : String) (verdict : Verdict) (s t : σ) :
    (contribution host id verdict s).1 = (contribution host id verdict t).1 := by
  rw [contribution, contribution]
  cases verdict.diagnostics <;> rfl

/-! ## Rules one after the other -/

variable (program : Program) (tokens : List Token)

/-- Runs one rule. -/
def step (entry : String × Check σ) (s : σ) : List Diagnostic × σ :=
  contribution host entry.1 (entry.2 program tokens s).1 (entry.2 program tokens s).2

/-- The state when some rules have run. -/
def after (registry : Registry σ) (s : σ) : σ :=
  registry.foldl (fun s entry => (step host program tokens entry s).2) s

/-- What each of the rules adds. -/
def parts : Registry σ → σ → List (List Diagnostic)
  | [], _ => []
  | entry :: more, s =>
    (step host program tokens entry s).1 :: parts more (step host program tokens entry s).2

/-- No checkpoint in front of a rule sees that the pass is cancelled. -/
def Unstopped (registry : Registry σ) (s : σ) : Prop :=
  ∀ front entry back, registry = front ++ entry :: back →
    host.cancelled (after host program tokens front s) = false

theorem run_cons (entry : String × Check σ) (more : Registry σ) (s : σ) :
    run host program tokens (entry :: more) s =
      if host.cancelled s then (.error (.before entry.1), s)
      else
        (((step host program tokens entry s).1 ++ ·) <$>
            (run host program tokens more (step host program tokens entry s).2).1,
          (run host program tokens more (step host program tokens entry s).2).2) :=
  rfl

variable {host program tokens}

theorem after_append (front back : Registry σ) (s : σ) :
    after host program tokens (front ++ back) s =
      after host program tokens back (after host program tokens front s) :=
  List.foldl_append

theorem parts_append (front back : Registry σ) (s : σ) :
    parts host program tokens (front ++ back) s =
      parts host program tokens front s ++
        parts host program tokens back (after host program tokens front s) := by
  induction front generalizing s with
  | nil => rfl
  | cons entry front ih => rw [List.cons_append, parts, ih, parts, List.cons_append]; rfl

/-- One rule among the others. -/
theorem parts_split (front : Registry σ) (entry : String × Check σ) (back : Registry σ) (s : σ) :
    parts host program tokens (front ++ entry :: back) s =
      parts host program tokens front s ++
        (step host program tokens entry (after host program tokens front s)).1 ::
          parts host program tokens back (after host program tokens (front ++ [entry]) s) := by
  rw [parts_append, parts, after_append]
  rfl

theorem unstopped_nil (s : σ) : Unstopped host program tokens [] s :=
  fun front entry back h => absurd h (by simp)

theorem unstopped_cons {entry : String × Check σ} {more : Registry σ} {s : σ} :
    Unstopped host program tokens (entry :: more) s ↔
      host.cancelled s = false ∧
        Unstopped host program tokens more (step host program tokens entry s).2 := by
  constructor
  · intro h
    refine ⟨h [] entry more rfl, fun front next back hmore => ?_⟩
    exact h (entry :: front) next back (by rw [hmore, List.cons_append])
  · rintro ⟨hfirst, hmore⟩ front next back heq
    cases front with
    | nil => exact hfirst
    | cons e front =>
      obtain ⟨rfl, rfl⟩ := List.cons.inj heq
      exact hmore front next back rfl

/-- A pass that no checkpoint stops joins what its rules add. -/
theorem run_of_unstopped {registry : Registry σ} {s : σ}
    (h : Unstopped host program tokens registry s) :
    run host program tokens registry s =
      (.ok (parts host program tokens registry s).flatten,
        after host program tokens registry s) := by
  induction registry generalizing s with
  | nil => rfl
  | cons entry more ih =>
    obtain ⟨hfirst, hmore⟩ := unstopped_cons.1 h
    rw [run_cons, hfirst, ih hmore]
    rfl

/-- A checkpoint that sees the pass cancelled ends it, and no rule behind it is called. -/
theorem run_of_stopped {front : Registry σ} {s : σ} (h : Unstopped host program tokens front s)
    (hcancelled : host.cancelled (after host program tokens front s) = true)
    (next : String × Check σ) (back : Registry σ) :
    run host program tokens (front ++ next :: back) s =
      (.error (.before next.1), after host program tokens front s) := by
  induction front generalizing s with
  | nil =>
    have hnow : host.cancelled s = true := hcancelled
    rw [List.nil_append, run_cons, if_pos hnow]
    rfl
  | cons entry front ih =>
    obtain ⟨hfirst, hmore⟩ := unstopped_cons.1 h
    rw [List.cons_append, run_cons, hfirst, ih hmore hcancelled]
    rfl

/-- Either no checkpoint stops a pass or there is a first one that does. -/
theorem unstopped_or_stopped (registry : Registry σ) (s : σ) :
    Unstopped host program tokens registry s ∨
      ∃ front next back, registry = front ++ next :: back ∧
        Unstopped host program tokens front s ∧
        host.cancelled (after host program tokens front s) = true := by
  induction registry generalizing s with
  | nil => exact .inl (unstopped_nil s)
  | cons entry more ih =>
    cases hnow : host.cancelled s with
    | true => exact .inr ⟨[], entry, more, rfl, unstopped_nil s, hnow⟩
    | false =>
      rcases ih (step host program tokens entry s).2 with h | ⟨front, next, back, rfl, h, hstop⟩
      · exact .inl (unstopped_cons.2 ⟨hnow, h⟩)
      · exact .inr ⟨entry :: front, next, back, rfl, unstopped_cons.2 ⟨hnow, h⟩, hstop⟩

/-- Rules whose verdicts do not depend on the state add the same from every state. -/
theorem parts_eq_of_verdicts {registry : Registry σ}
    (h : ∀ entry ∈ registry, ∀ s t, (entry.2 program tokens s).1 = (entry.2 program tokens t).1)
    (s t : σ) : parts host program tokens registry s = parts host program tokens registry t := by
  induction registry generalizing s t with
  | nil => rfl
  | cons entry more ih =>
    obtain ⟨hentry, hmore⟩ := List.forall_mem_cons.1 h
    have hown : (step host program tokens entry s).1 = (step host program tokens entry t).1 := by
      rw [step, step, hentry s t]
      exact contribution_fst host entry.1 _ _ _
    rw [parts, parts, hown, ih hmore]

/-- A rule in place of another leaves to such rules what they add. -/
theorem parts_replaced {back : Registry σ}
    (h : ∀ entry ∈ back, ∀ s t, (entry.2 program tokens s).1 = (entry.2 program tokens t).1)
    (front : Registry σ) (old new : String × Check σ) (s : σ) :
    parts host program tokens (front ++ new :: back) s =
      parts host program tokens front s ++
        (step host program tokens new (after host program tokens front s)).1 ::
          parts host program tokens back (after host program tokens (front ++ [old]) s) := by
  rw [parts_split, parts_eq_of_verdicts h]

end

/-! ## Calls -/

section

variable {σ : Type}

/-- The same rule, which notes its name in a list beside the state when it is called. -/
def noted (entry : String × Check σ) : String × Check (σ × List String) :=
  (entry.1, fun program tokens s =>
    ((entry.2 program tokens s.1).1, (entry.2 program tokens s.1).2, s.2 ++ [entry.1]))

/-- The same host, which leaves the list alone. -/
def noting (host : Host σ) : Host (σ × List String) where
  cancelled s := host.cancelled s.1
  log r s := (host.log r s.1, s.2)

/-- The names of the rules that a pass calls. -/
def calls (host : Host σ) (program : Program) (tokens : List Token) (registry : Registry σ)
    (s : σ) : List String :=
  (run (noting host) program tokens (registry.map noted) (s, [])).2.2

variable {host : Host σ} {program : Program} {tokens : List Token}

theorem step_noted (entry : String × Check σ) (s : σ) (names : List String) :
    (step (noting host) program tokens (noted entry) (s, names)).2 =
      ((step host program tokens entry s).2, names ++ [entry.1]) := by
  simp only [step, noted, contribution]
  cases (entry.2 program tokens s).1.diagnostics <;> rfl

theorem after_noted (registry : Registry σ) (s : σ) (names : List String) :
    after (noting host) program tokens (registry.map noted) (s, names) =
      (after host program tokens registry s, names ++ registry.map Prod.fst) := by
  induction registry generalizing s names with
  | nil => rw [List.map_nil, List.map_nil, List.append_nil]; rfl
  | cons entry more ih =>
    have hstep := ih (step host program tokens entry s).2 (names ++ [entry.1])
    rw [← step_noted, List.append_assoc] at hstep
    exact hstep

theorem unstopped_noted {registry : Registry σ} {s : σ} {names : List String}
    (h : Unstopped host program tokens registry s) :
    Unstopped (noting host) program tokens (registry.map noted) (s, names) := by
  induction registry generalizing s names with
  | nil => exact unstopped_nil _
  | cons entry more ih =>
    obtain ⟨hfirst, hmore⟩ := unstopped_cons.1 h
    refine unstopped_cons.2 ⟨hfirst, ?_⟩
    rw [step_noted]
    exact ih hmore

theorem calls_of_unstopped {registry : Registry σ} {s : σ}
    (h : Unstopped host program tokens registry s) :
    calls host program tokens registry s = registry.map Prod.fst := by
  rw [calls, run_of_unstopped (unstopped_noted h), after_noted, List.nil_append]

theorem calls_of_stopped {front : Registry σ} {s : σ} (h : Unstopped host program tokens front s)
    (hcancelled : host.cancelled (after host program tokens front s) = true)
    (next : String × Check σ) (back : Registry σ) :
    calls host program tokens (front ++ next :: back) s = front.map Prod.fst := by
  have hstop : (noting host).cancelled
      (after (noting host) program tokens (front.map noted) (s, [])) = true := by
    rw [after_noted]
    exact hcancelled
  rw [calls, List.map_append, List.map_cons, run_of_stopped (unstopped_noted h) hstop, after_noted,
    List.nil_append]

end

/-- Whatever the rules of a pass hand back or do to the state, each adds its own part. If no
checkpoint sees the pass cancelled, all rules are called and the result joins their parts, also if
the last rule cancels the pass. To put another rule in place of one changes no other part, as far as
the rules behind it judge nothing but the document. If the pass is cancelled by the time that some
rules have run, the next checkpoint ends it, and no further rule is called. -/
theorem run_isolates_rules {σ : Type} (host : Host σ) (program : Program) (tokens : List Token)
    (registry : Registry σ) (s : σ) :
    (∀ front entry back, registry = front ++ entry :: back →
      ∃ own,
        Contributes entry.1 (entry.2 program tokens (after host program tokens front s)).1 own ∧
        parts host program tokens registry s = parts host program tokens front s ++ own ::
          parts host program tokens back (after host program tokens (front ++ [entry]) s)) ∧
    (Unstopped host program tokens registry s →
      run host program tokens registry s =
        (.ok (parts host program tokens registry s).flatten,
          after host program tokens registry s) ∧
      calls host program tokens registry s = registry.map Prod.fst) ∧
    (∀ front old new back, registry = front ++ old :: back →
      (∀ entry ∈ back, ∀ t t', (entry.2 program tokens t).1 = (entry.2 program tokens t').1) →
      ∃ own own' behind,
        parts host program tokens registry s =
          parts host program tokens front s ++ own :: behind ∧
        parts host program tokens (front ++ new :: back) s =
          parts host program tokens front s ++ own' :: behind) ∧
    (∀ front next back, registry = front ++ next :: back →
      Unstopped host program tokens front s →
      host.cancelled (after host program tokens front s) = true →
      run host program tokens registry s =
        (.error (.before next.1), after host program tokens front s) ∧
      (Stage.before next.1).text = "before " ++ next.1 ∧
      calls host program tokens registry s = front.map Prod.fst) ∧
    (Unstopped host program tokens registry s ∨
      ∃ front next back, registry = front ++ next :: back ∧
        Unstopped host program tokens front s ∧
        host.cancelled (after host program tokens front s) = true) := by
  refine ⟨?_, fun h => ⟨run_of_unstopped h, calls_of_unstopped h⟩, ?_, ?_,
    unstopped_or_stopped registry s⟩
  · rintro front entry back rfl
    exact ⟨_, contributes_contribution host entry.1 _ _, parts_split front entry back s⟩
  · rintro front old new back rfl hback
    exact ⟨_, _, _, parts_split front old back s, parts_replaced hback front old new s⟩
  · rintro front next back rfl h hcancelled
    exact ⟨run_of_stopped h hcancelled next back, rfl, calls_of_stopped h hcancelled next back⟩

/-- A rule that fails with an error of cancellation is a rule that fails. A rule that cancels the
pass ends it in front of the next rule, if there is one. Another rule in the first place leaves the
second rule's part as it is. -/
theorem run_isolates_rules_cancelled :
    run ⟨fun s => s, fun _ s => s⟩ (Program.parse []).1 []
        [("A", fun _ _ s => (.broken [.diagnostic default] (.raised "AnalysisCancelled" []), s)),
          ("B", fun _ _ _ => (.ofDiagnostics [default], true)),
          ("C", fun _ _ s => (.value .none, s))]
        false = (.error (.before "C"), true) ∧
    run ⟨fun s => s, fun _ s => s⟩ (Program.parse []).1 []
        [("A", fun _ _ s => (.broken [.diagnostic default] (.raised "AnalysisCancelled" []), s)),
          ("B", fun _ _ _ => (.ofDiagnostics [default], true))]
        false = (.ok [internalError "A" (.raised "AnalysisCancelled" []), default], true) ∧
    ∃ own own' behind,
      parts ⟨fun s => s, fun _ s => s⟩ (Program.parse []).1 []
        [("A", fun _ _ s => (.broken [.diagnostic default] (.raised "AnalysisCancelled" []), s)),
          ("B", fun _ _ _ => (.ofDiagnostics [default], true))] false = [] ++ own :: behind ∧
      parts ⟨fun s => s, fun _ s => s⟩ (Program.parse []).1 []
        [("C", fun _ _ s => (.value .none, s)),
          ("B", fun _ _ _ => (.ofDiagnostics [default], true))] false = [] ++ own' :: behind := by
  have hclear : Unstopped ⟨fun s => s, fun _ s => s⟩ (Program.parse []).1 []
      [("A", fun _ _ s => (.broken [.diagnostic default] (.raised "AnalysisCancelled" []), s)),
        ("B", fun _ _ _ => (.ofDiagnostics [default], true))] false :=
    unstopped_cons.2 ⟨rfl, unstopped_cons.2 ⟨rfl, unstopped_nil _⟩⟩
  refine ⟨?_, ?_, ?_⟩
  · exact ((run_isolates_rules _ _ _ _ _).2.2.2.1 _ _ [] rfl hclear rfl).1
  · exact ((run_isolates_rules _ _ _ _ _).2.1 hclear).1
  · exact (run_isolates_rules _ _ _ _ _).2.2.1 [] _ ("C", fun _ _ s => (.value .none, s)) _ rfl
      (List.forall_mem_singleton.2 fun _ _ => rfl)

end Engine

end PineScript
