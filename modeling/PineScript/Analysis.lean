import PineScript.Analysis.Engine
import PineScript.Diagnostic.Merge
import PineScript.Diagnostic.Suppression
import PineScript.Parser.Program
import PineScript.Token.Lexer

/-!
# Analysis

One pass over a document: scan, parse, run the rules, merge and suppress.

Of the limits of the machine that a pass runs on, only one is kept: that on the digits of a number
that is printed, which makes a rule fail (`DigitLimit`). How deep calls may be nested and how much
memory there is are left out, so that scripts of any size and depth are read and judged. `analyze`
leaves out the digits as well. It gives what `analyzeWithin` gives wherever all messages can be
printed.
-/

namespace PineScript

namespace Analysis

def summary (tokens parsed ruled : Nat) : LogRecord where
  level := .debug
  source := .analyzer
  message := s!"Analysed {tokens} tokens: {parsed} syntax and {ruled} rule diagnostics"

/-- A pass that may be cancelled at its checkpoints. -/
def run (host : Host σ) (registry : Registry σ) (source : String) (s : σ) :
    Except Stage (List Diagnostic) × σ :=
  let tokens := tokenize source
  if host.cancelled s then (.error .lexing, s)
  else
    let (program, faults) := Program.parse tokens
    let ofParser := faults.map Fault.diagnostic
    if host.cancelled s then (.error .parsing, s)
    else
      match Engine.run host program tokens registry s with
      | (.error stage, s) => (.error stage, s)
      | (.ok ofRules, s) =>
        let merged := Diagnostic.merge ofParser ofRules
        let s := host.log (summary tokens.length ofParser.length ofRules.length) s
        (.ok (Suppression.apply tokens merged), s)

end Analysis

/-- A state that is only a log; nothing cancels its passes. -/
def Host.logging : Host (List LogRecord) where
  cancelled _ := false
  log r s := s ++ [r]

/-- What a rule adds to a pass: its diagnostics, or one error if it fails. -/
def Rule.report (digits : DigitLimit) (rule : Rule) (program : Program) (tokens : List Token) :
    List Diagnostic :=
  match rule.attempt digits program tokens with
  | .ok ds => ds
  | .error failure => [Engine.internalError rule.id failure]

/-- The diagnostics of a script under the given rules. -/
def analyzeWithin (digits : DigitLimit) (rules : List Rule) (source : String) : List Diagnostic :=
  let tokens := tokenize source
  let (program, faults) := Program.parse tokens
  let ofRules := rules.flatMap fun rule => rule.report digits program tokens
  Suppression.apply tokens (Diagnostic.merge (faults.map Fault.diagnostic) ofRules)

/-- The diagnostics of a script under the given rules, if numbers of any length can be printed. -/
def analyze (rules : List Rule) (source : String) : List Diagnostic :=
  let tokens := tokenize source
  let (program, faults) := Program.parse tokens
  let ofRules := rules.flatMap fun rule => rule.check program tokens
  Suppression.apply tokens (Diagnostic.merge (faults.map Fault.diagnostic) ofRules)

end PineScript
