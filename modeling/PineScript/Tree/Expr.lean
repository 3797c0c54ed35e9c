import PineScript.Position
import PineScript.Tree.Operator

/-!
# Expressions
-/

namespace PineScript

/-- An occurrence of a name. -/
structure Name where
  range : Range
  text : String
deriving DecidableEq, Repr, Inhabited

/-- A literal in its source spelling, quotes included. -/
inductive Literal where
  | number (text : String)
  | string (text : String)
  | color (text : String)
  | bool (value : Bool)
deriving DecidableEq, Repr, Inhabited

namespace Literal

def kindName : Literal → String
  | number _ => "number"
  | string _ => "string"
  | color _ => "color"
  | bool _ => "bool"

def text : Literal → String
  | number s | string s | color s => s
  | bool true => "true"
  | bool false => "false"

end Literal

mutual

inductive Expr where
  | name (name : Name)
  | literal (range : Range) (value : Literal)
  | call (range : Range) (callee : Expr) (arguments : List Argument)
  | index (range : Range) (target subscript : Expr)
  | unary (range : Range) (op : UnaryOp) (operand : Expr)
  | binary (range : Range) (op : BinaryOp) (left right : Expr)
  | ternary (range : Range) (condition whenTrue whenFalse : Expr)

inductive Argument where
  | positional (value : Expr)
  | named (range : Range) (name : Name) (value : Expr)

end

instance : Inhabited Expr := ⟨.name default⟩

def Expr.range : Expr → Range
  | .name n => n.range
  | .literal r _ | .call r _ _ | .index r _ _ | .unary r _ _ | .binary r _ _ _
  | .ternary r _ _ _ => r

def Argument.range : Argument → Range
  | .positional e => e.range
  | .named r _ _ => r

/-- A parameter of a function; its type is written in front of its name. -/
structure Parameter where
  range : Range
  typeName : Option String
  name : Name
  default : Option Expr

end PineScript
