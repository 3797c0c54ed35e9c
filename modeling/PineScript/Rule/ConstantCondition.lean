import PineScript.Diagnostic
import PineScript.Tree.Walk

/-!
# Constant conditions

A condition that is the bare literal `true` or `false` decides nothing.
-/

namespace PineScript.Rule.ConstantCondition

def id : String := "LITERAL_BOOLEAN_MISUSE"

/-- The condition of a node that has one. -/
def condition? : Node → Option Expr
  | .stmt (.conditional b) => some b.condition
  | .stmt (.whileLoop _ condition _) => some condition
  | .expr (.ternary _ condition _ _) => some condition
  | _ => none

def message (value : Bool) : String :=
  let text := (Literal.bool value).text
  s!"Condition is always `{text}`; remove the check or use a real expression"

def judge (n : Node) : Option Diagnostic :=
  match condition? n with
  | some (.literal range (.bool value)) =>
    some { code := id, message := message value, severity := .warning, range }
  | _ => none

def check (program : Program) : List Diagnostic := program.walk.filterMap judge

end PineScript.Rule.ConstantCondition
