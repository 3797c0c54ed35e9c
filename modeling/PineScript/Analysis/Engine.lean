import PineScript.Analysis.Log
import PineScript.Diagnostic
import PineScript.Rule.Lookup

/-!
# Running rules

A registry is a list of named checks that run in order. What a check does besides judging a document
happens to a state that the engine only sees through a `Host`: whether the pass is cancelled, and a
log. A check that fails is reported by one diagnostic and the others still run.
-/

namespace PineScript

/-- What the engine asks of the state in which a pass runs. -/
structure Host (σ : Type) where
  cancelled : σ → Bool
  log : LogRecord → σ → σ

inductive Item where
  | diagnostic (d : Diagnostic)
  | value (kind : ValueKind)
deriving DecidableEq, Repr

/-- What a check hands back. -/
inductive Verdict where
  /-- Also a text or a table, by its parts. -/
  | items (items : List Item)
  /-- A value that has no parts. -/
  | value (kind : ScalarKind)
  | failed (failure : Failure)
  /-- Some items, and a failure in place of the next one. -/
  | broken (items : List Item) (failure : Failure)
deriving DecidableEq, Repr

namespace Verdict

def ofDiagnostics (ds : List Diagnostic) : Verdict := .items (ds.map .diagnostic)

def itemsToList : List Item → Except Failure (List Diagnostic)
  | [] => .ok []
  | .diagnostic d :: more => (d :: ·) <$> itemsToList more
  | .value kind :: _ => .error (.notADiagnostic kind)

/-- The diagnostics of a verdict, all of them or none. -/
def diagnostics : Verdict → Except Failure (List Diagnostic)
  | items xs => itemsToList xs
  | value kind => .error (.notAList kind)
  | failed failure => .error failure
  | broken _ failure => .error failure

end Verdict

abbrev Check (σ : Type) := Program → List Token → σ → Verdict × σ

abbrev Registry (σ : Type) := List (String × Check σ)

def Rule.verdict (digits : DigitLimit) (rule : Rule) (program : Program) (tokens : List Token) :
    Verdict :=
  match rule.attempt digits program tokens with
  | .ok ds => .ofDiagnostics ds
  | .error failure => .failed failure

/-- A rule as a check that leaves the state alone. -/
def Rule.toCheck (digits : DigitLimit) (rule : Rule) : Check σ := fun program tokens s =>
  (rule.verdict digits program tokens, s)

/-! ## Registration -/

/-- Two rules with one name. -/
structure DuplicateRule where
  id : String
deriving DecidableEq, Repr

def DuplicateRule.message (e : DuplicateRule) : String :=
  let id := e.id
  s!"Rule `{id}` is already registered"

namespace Registry

def register (registry : Registry σ) (id : String) (check : Check σ) :
    Except DuplicateRule (Registry σ) :=
  if registry.any (·.1 == id) then .error ⟨id⟩ else .ok (registry ++ [(id, check)])

def ofList (entries : List (String × Check σ)) : Except DuplicateRule (Registry σ) :=
  entries.foldlM (fun registry (id, check) => registry.register id check) []

def ofRules (digits : DigitLimit) (rules : List Rule) : Registry σ :=
  rules.map fun rule => (rule.id, rule.toCheck digits)

end Registry

/-! ## Passes -/

/-- The points at which a pass may be stopped. -/
inductive Stage where
  | lexing
  | parsing
  | before (id : String)
deriving DecidableEq, Repr

def Stage.text : Stage → String
  | lexing => "lexing"
  | parsing => "parsing"
  | before id => "before " ++ id

namespace Engine

def internalError (id : String) (failure : Failure) : Diagnostic :=
  let cause := failure.describe
  { code := "RULE_INTERNAL_ERROR"
    message := s!"Rule `{id}` failed: {cause}"
    severity := .error
    range := .origin }

def failureRecord (id : String) (failure : Failure) : LogRecord where
  level := .error
  source := .engine
  message := s!"Rule {id} raised while analysing a document"
  failure := some failure

/-- What a rule adds to the result, and the log after it. -/
def contribution (host : Host σ) (id : String) (verdict : Verdict) (s : σ) :
    List Diagnostic × σ :=
  match verdict.diagnostics with
  | .ok ds => (ds, s)
  | .error failure => ([internalError id failure], host.log (failureRecord id failure) s)

/-- Runs the rules in order until the pass is cancelled. -/
def run (host : Host σ) (program : Program) (tokens : List Token) :
    Registry σ → σ → Except Stage (List Diagnostic) × σ
  | [], s => (.ok [], s)
  | (id, check) :: more, s =>
    if host.cancelled s then (.error (.before id), s)
    else
      let (verdict, s) := check program tokens s
      let (own, s) := contribution host id verdict s
      let (rest, s) := run host program tokens more s
      ((own ++ ·) <$> rest, s)

end Engine

end PineScript
