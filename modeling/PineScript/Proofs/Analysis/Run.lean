import PineScript.Analysis
import PineScript.Proofs.Rule.Code
import PineScript.Proofs.Rule.Lookup

/-!
# Passes that nothing cancels

A pass joins what its rules report (`Analysis.run_ofRules`). None of them fails on a script that was
read, whatever tokens it is given, but for a number that is too long to be printed
(`Engine.run_rules_fail_only_to_print`). Where there is none, the pass gives the diagnostics of
`analyze` (`analyzeWithin_eq_analyze`).
-/

namespace PineScript

@[simp] theorem Verdict.diagnostics_ofDiagnostics (ds : List Diagnostic) :
    (Verdict.ofDiagnostics ds).diagnostics = .ok ds := by
  induction ds with
  | nil => rfl
  | cons d more ih =>
    simp only [ofDiagnostics, diagnostics, List.map_cons, itemsToList] at ih ⊢
    rw [ih]
    rfl

section

variable (digits : DigitLimit) (program : Program) (tokens : List Token)

/-- What the failure of a rule leaves in the log. -/
def Rule.records (rule : Rule) : List LogRecord :=
  match rule.attempt digits program tokens with
  | .ok _ => []
  | .error failure => [Engine.failureRecord rule.id failure]

theorem Engine.contribution_verdict {σ : Type} (host : Host σ) (rule : Rule) (s : σ) :
    contribution host rule.id (rule.verdict digits program tokens) s =
      (rule.report digits program tokens,
        (rule.records digits program tokens).foldl (fun s r => host.log r s) s) := by
  unfold Rule.verdict Rule.report Rule.records
  cases rule.attempt digits program tokens with
  | ok ds => simp only [contribution, Verdict.diagnostics_ofDiagnostics, List.foldl_nil]
  | error failure => rfl

theorem Engine.run_ofRules {σ : Type} (host : Host σ) (never : ∀ s, host.cancelled s = false)
    (rules : List Rule) (s : σ) :
    Engine.run host program tokens (Registry.ofRules digits rules) s =
      (.ok (rules.flatMap fun rule => rule.report digits program tokens),
        (rules.flatMap fun rule => rule.records digits program tokens).foldl
          (fun s r => host.log r s) s) := by
  induction rules generalizing s with
  | nil => rfl
  | cons rule more ih =>
    simp only [Registry.ofRules] at ih
    simp only [Registry.ofRules, List.map_cons, Engine.run, never, Rule.toCheck,
      contribution_verdict, ih, List.flatMap_cons, List.foldl_append]
    rfl

theorem Analysis.run_ofRules (rules : List Rule) (source : String) (s : List LogRecord) :
    (Analysis.run Host.logging (Registry.ofRules digits rules) source s).1 =
      .ok (analyzeWithin digits rules source) := by
  have never : ∀ s, Host.logging.cancelled s = false := fun _ => rfl
  simp only [Analysis.run, never, Engine.run_ofRules digits _ _ Host.logging never, analyzeWithin]
  rfl

variable {digits program tokens}

/-- A rule reports what it finds if it can print it, and otherwise that it failed. -/
theorem Rule.attempt_cases (rule : Rule) :
    (∀ d ∈ rule.check program tokens, Printable digits rule d) ∧
        rule.attempt digits program tokens = .ok (rule.check program tokens) ∧
        rule.report digits program tokens = rule.check program tokens ∨
      (∃ d ∈ rule.check program tokens, ¬ Printable digits rule d) ∧
        rule.attempt digits program tokens = .error digits.exceeded ∧
        rule.report digits program tokens = [Engine.internalError rule.id digits.exceeded] := by
  have hyields := rule.yields_attempt digits program tokens
  unfold report
  generalize rule.attempt digits program tokens = result at hyields ⊢
  cases hyields with
  | reported h => exact .inl ⟨h, rfl, rfl⟩
  | failed hd h => exact .inr ⟨⟨_, hd, h⟩, rfl, rfl⟩

theorem Rule.report_of_printable {rule : Rule}
    (h : ∀ d ∈ rule.check program tokens, Printable digits rule d) :
    rule.report digits program tokens = rule.check program tokens := by
  rcases rule.attempt_cases with ⟨-, -, hreport⟩ | ⟨⟨d, hd, hprint⟩, -⟩
  · exact hreport
  · exact absurd (h d hd) hprint

theorem Rule.internalError_mem_report {rule : Rule} :
    (∃ d ∈ rule.report digits program tokens, d.code = "RULE_INTERNAL_ERROR") ↔
      ∃ d ∈ rule.check program tokens, ¬ Printable digits rule d := by
  rcases rule.attempt_cases with ⟨hall, -, hreport⟩ | ⟨hsome, -, hreport⟩
  · rw [hreport]
    refine ⟨?_, fun h => ?_⟩
    · rintro ⟨d, hd, hcode⟩
      rw [code_of_mem_check hd] at hcode
      exact absurd hcode (id_ne_of_not_mem (by decide) rule)
    · obtain ⟨d, hd, hprint⟩ := h
      exact absurd (hall d hd) hprint
  · rw [hreport]
    exact ⟨fun _ => hsome, fun _ => ⟨_, List.mem_singleton_self _, rfl⟩⟩

end

/-- Where all messages can be printed, the limit makes no difference. -/
theorem analyzeWithin_eq_analyze {digits : DigitLimit} {rules : List Rule} {source : String}
    (h : ∀ rule ∈ rules, ∀ d ∈ rule.check (Program.parse (tokenize source)).1 (tokenize source),
      rule.Printable digits d) : analyzeWithin digits rules source = analyze rules source := by
  have hrules : rules.flatMap (fun rule =>
      rule.report digits (Program.parse (tokenize source)).1 (tokenize source)) =
      rules.flatMap fun rule => rule.check (Program.parse (tokenize source)).1 (tokenize source) :=
    List.flatMap_congr fun rule hrule => Rule.report_of_printable (h rule hrule)
  simp only [analyzeWithin, analyze, hrules]

theorem analyzeWithin_none (rules : List Rule) (source : String) :
    analyzeWithin none rules source = analyze rules source :=
  analyzeWithin_eq_analyze fun _ _ _ _ _ _ => rfl

/-- On a script that was read from some tokens, no lookup of a rule fails, though the rule may be
given other tokens. A rule fails exactly if it finds something and cannot print a number in the
message. Then one error stands in the result in place of what it finds. So there is an internal
error in the result of a pass exactly if one of its rules fails that way. -/
theorem Engine.run_rules_fail_only_to_print (digits : DigitLimit) (ts ruleTokens : List Token)
    (rules : List Rule) (log : List LogRecord) :
    (∀ rule : Rule,
      (∀ d ∈ rule.check (Program.parse ts).1 ruleTokens, rule.Printable digits d) ∧
          rule.attempt digits (Program.parse ts).1 ruleTokens =
            .ok (rule.check (Program.parse ts).1 ruleTokens) ∧
          rule.report digits (Program.parse ts).1 ruleTokens =
            rule.check (Program.parse ts).1 ruleTokens ∨
        (∃ d ∈ rule.check (Program.parse ts).1 ruleTokens, ¬ rule.Printable digits d) ∧
          rule.attempt digits (Program.parse ts).1 ruleTokens = .error digits.exceeded ∧
          rule.report digits (Program.parse ts).1 ruleTokens =
            [internalError rule.id digits.exceeded]) ∧
      ∃ found, Engine.run Host.logging (Program.parse ts).1 ruleTokens
          (Registry.ofRules digits rules) log =
            (.ok found, log ++ rules.flatMap (·.records digits (Program.parse ts).1 ruleTokens)) ∧
        found = rules.flatMap (·.report digits (Program.parse ts).1 ruleTokens) ∧
        ((∃ d ∈ found, d.code = "RULE_INTERNAL_ERROR") ↔
          ∃ rule ∈ rules, ∃ d ∈ rule.check (Program.parse ts).1 ruleTokens,
            ¬ rule.Printable digits d) := by
  refine ⟨fun rule => rule.attempt_cases, _, ?_, rfl, ?_⟩
  · rw [Engine.run_ofRules digits _ ruleTokens Host.logging (fun _ => rfl) rules log]
    simp only [Host.logging]
    rw [List.foldl_append_eq_append, ← List.flatMap_def, List.flatMap_singleton']
  · simp only [← Rule.internalError_mem_report, List.mem_flatMap]
    constructor
    · rintro ⟨d, ⟨rule, hrule, hd⟩, hcode⟩
      exact ⟨rule, hrule, d, hd, hcode⟩
    · rintro ⟨rule, hrule, d, hd, hcode⟩
      exact ⟨d, ⟨rule, hrule, hd⟩, hcode⟩

/-- An indent of more digits than can be printed is one that a line can fall short of. -/
theorem Engine.run_rules_fail_only_to_print_indent :
    ∃ d log, Engine.run Host.logging (Program.parse (tokenize "f(\na)\n")).1 (tokenize "f(\na)\n")
        (Registry.ofRules .standard [.continuation (Nat.pow 10 4300)]) [] = (.ok [d], log) ∧
      d.code = "RULE_INTERNAL_ERROR" ∧ log.length = 1 := by
  refine ⟨internalError Rule.Continuation.id DigitLimit.standard.exceeded,
    [failureRecord Rule.Continuation.id DigitLimit.standard.exceeded], ?_, rfl, rfl⟩
  decide +kernel

end PineScript
