import PineScript.Diagnostic
import PineScript.Tree.Walk

/-!
# Unreachable code

Nothing behind a jump in the same body can run. One diagnostic covers all of it, from the first code
behind the jump on.
-/

namespace PineScript.Rule.Unreachable

def id : String := "UNREACHABLE_CODE"

/-- Bisection between `low` and `high` for the first start at or behind a position. -/
def lowerBound (starts : Array Position) (p : Position) (low high : Nat) : Nat :=
  if low < high then
    let middle := (low + high) / 2
    if starts.getD middle .origin < p then lowerBound starts p (middle + 1) high
    else lowerBound starts p low middle
  else low
termination_by high - low

/-- The first token of code at or behind a position. -/
def codeFrom (tokens : List Token) (p : Position) : Option Token :=
  let starts := (tokens.map (·.range.start)).toArray
  (tokens.drop (lowerBound starts p 0 starts.size)).find? (!·.isLayout)

/-- The first jump with a terminating key word, and what stands behind it. -/
def splitAtJump (terminators : List String) : List Stmt → Option (Range × JumpKind × List Stmt)
  | [] => none
  | .jump r kind _ :: more =>
    if kind.text ∈ terminators then some (r, kind, more) else splitAtJump terminators more
  | _ :: more => splitAtJump terminators more

def message (kind : JumpKind) : String :=
  let text := kind.text
  s!"Code after `{text}` is unreachable"

def judge (terminators : List String) (tokens : List Token) (body : List Stmt) :
    Option Diagnostic := do
  let (jump, kind, dead) ← splitAtJump terminators (body.filter (!·.isComment))
  let first ← dead.head?
  let last ← dead.getLast?
  let start := match codeFrom tokens jump.stop with
    | some t => t.range.start
    | none => first.range.start
  return {
    code := id
    message := message kind
    severity := .warning
    range := ⟨start, last.range.stop⟩ }

/-- The statements of a node that is a body. -/
def body? : Node → Option (List Stmt)
  | .program p => some p.body
  | .block b => some b.statements
  | _ => none

def check (terminators : List String) (program : Program) (tokens : List Token) :
    List Diagnostic :=
  (program.walk.filterMap body?).filterMap (judge terminators tokens)

end PineScript.Rule.Unreachable
