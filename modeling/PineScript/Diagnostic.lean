import PineScript.Tree.Fault

/-!
# Diagnostics

An issue found in a document. Codes are open: a rule from outside may use any.
-/

namespace PineScript

inductive Severity where
  | warning
  | error
deriving DecidableEq, Repr, Inhabited

/-- The number that stands for a severity in published output. -/
def Severity.number : Severity → Nat
  | warning => 1
  | error => 2

structure Diagnostic where
  code : String
  message : String
  severity : Severity
  range : Range
  source : String := "pine-lint"
deriving DecidableEq, Repr, Inhabited

def Diagnostic.isError (d : Diagnostic) : Bool := d.severity == .error

/-- The code of a statement that could not be read. -/
def syntaxErrorCode : String := "SYNTAX_ERROR"

def Fault.diagnostic (fault : Fault) : Diagnostic where
  code := syntaxErrorCode
  message := fault.message
  severity := .error
  range := fault.range

end PineScript
