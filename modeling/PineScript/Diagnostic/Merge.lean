import PineScript.Diagnostic
import PineScript.Sorted

/-!
# Merging diagnostics

Diagnostics that agree in code, range and message are one; the first is kept. The result is ordered
by start, and diagnostics that start together keep their order.
-/

namespace PineScript.Diagnostic

/-- Whether two diagnostics report the same. -/
def same (a b : Diagnostic) : Bool :=
  a.code == b.code && a.range == b.range && a.message == b.message

def distinct : List Diagnostic → List Diagnostic
  | [] => []
  | d :: more => d :: (distinct more).filter (!same d ·)

def startsBy (a b : Diagnostic) : Bool := a.range.start ≤ b.range.start

/-- The diagnostics of the parser and of the rules, for presentation. -/
def merge (ofParser ofRules : List Diagnostic) : List Diagnostic :=
  stableSort startsBy (distinct (ofParser ++ ofRules))

end PineScript.Diagnostic
