import PineScript.Tree.Expr
import PineScript.Tree.Fault

/-!
# Statements

The header of a statement is its logical line: for a statement with a block it ends before the
block, for any other it is the whole statement.
-/

namespace PineScript

mutual

inductive Stmt where
  /-- A comment with a line of its own. -/
  | comment (range : Range) (text : String)
  /-- The lines of a statement that could not be read. -/
  | malformed (range : Range) (cause : Fault.Cause)
  | expression (value : Expr)
  | declaration (range : Range) (modifier : Option Modifier) (typeName : Option String)
      (name : Name) (value : Expr)
  | assignment (range : Range) (target : Name) (op : AssignOp) (value : Expr)
  | jump (range : Range) (kind : JumpKind) (value : Option Expr)
  | conditional (branch : Branch)
  | countingLoop (range : Range) (counter : Name) (first last : Expr) (step : Option Expr)
      (body : Block)
  | iteratingLoop (range : Range) (element : Name) (collection : Expr) (body : Block)
  | whileLoop (range : Range) (condition : Expr) (body : Block)
  /-- A function whose value is given on the header's line. -/
  | lineFunction (range : Range) (name : Name) (parameters : List Parameter) (value : Expr)
  | blockFunction (range : Range) (name : Name) (parameters : List Parameter) (body : Block)

/-- An `if` with its block and all that hangs on it. -/
inductive Branch where
  | mk (range : Range) (condition : Expr) (body : Block) (otherwise : Otherwise)

inductive Otherwise where
  | nothing
  | block (body : Block)
  | elseIf (branch : Branch)

/-- The statements of one indentation below a header. -/
inductive Block where
  | mk (range : Range) (statements : List Stmt)

end

instance : Inhabited Stmt := ⟨.expression default⟩
instance : Inhabited Block := ⟨.mk default []⟩

namespace Block

def range : Block → Range
  | .mk r _ => r

def statements : Block → List Stmt
  | .mk _ ss => ss

end Block

namespace Branch

def range : Branch → Range
  | .mk r _ _ _ => r

def condition : Branch → Expr
  | .mk _ c _ _ => c

def body : Branch → Block
  | .mk _ _ b _ => b

def otherwise : Branch → Otherwise
  | .mk _ _ _ o => o

def header (b : Branch) : Range := ⟨b.range.start, b.condition.range.stop⟩

end Branch

namespace Stmt

def range : Stmt → Range
  | comment r _ | malformed r _ | declaration r _ _ _ _ | assignment r _ _ _ | jump r _ _
  | countingLoop r _ _ _ _ _ | iteratingLoop r _ _ _ | whileLoop r _ _ | lineFunction r _ _ _
  | blockFunction r _ _ _ => r
  | expression e => e.range
  | conditional b => b.range

def isComment : Stmt → Bool
  | comment _ _ => true
  | _ => false

/-- The statement's logical line. -/
def header : Stmt → Range
  | conditional b => b.header
  | countingLoop r _ _ last step _ => ⟨r.start, (step.getD last).range.stop⟩
  | iteratingLoop r _ collection _ => ⟨r.start, collection.range.stop⟩
  | whileLoop r condition _ => ⟨r.start, condition.range.stop⟩
  | blockFunction r name parameters _ =>
    match parameters.getLast? with
    | some last => ⟨r.start, last.range.stop⟩
    | none => ⟨r.start, name.range.stop⟩
  | s => s.range

end Stmt

/-- A whole script. -/
structure Program where
  range : Range
  body : List Stmt

end PineScript
