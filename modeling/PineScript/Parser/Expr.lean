import PineScript.Parser.Basic
import PineScript.Tree.Expr

/-!
# Reading expressions

From loose to tight: the ternary choice, the six levels of binary operators, signs and `not`, calls
and subscripts, and what stands alone. Each reader takes the reader of nested expressions as an
argument; `expression n` allows `n` levels of nesting.
-/

namespace PineScript.Parser

def nameOf (t : Token) : Name := ⟨t.range, t.text⟩

def literal? (t : Token) : Option Literal :=
  match t.kind with
  | .number => some (.number t.text)
  | .string => some (.string t.text)
  | .color => some (.color t.text)
  | .keyword =>
    if t.text = "true" then some (.bool true)
    else if t.text = "false" then some (.bool false)
    else none
  | _ => none

variable (nested : Parser Expr)

def primary : Parser Expr := do
  let t ← peek
  if let some value := literal? t then
    discard advance
    return .literal t.range value
  else if t.isIdentifier then
    discard advance
    return .name (nameOf t)
  else if t.isPunctuation "(" then
    discard advance
    bracketed do
      let inner ← nested
      discard <| expect (·.isPunctuation ")") .closeParen
      return inner
  else unexpected .expression

def argument : Parser Argument := do
  let t ← peek
  if t.isIdentifier && (← peekAt 1).isOperator "=" then
    discard advance
    discard advance
    let value ← nested
    return .named ⟨t.range.start, value.range.stop⟩ (nameOf t) value
  else return .positional (← nested)

/-- The next item of a list that a parenthesis closes; a comma may stand behind the last one. -/
def listItem (item : Parser α) : Parser (Option α) := do
  if (← peek).isPunctuation ")" then return none
  let a ← item
  let t ← peek
  if t.isPunctuation "," then
    discard advance
    return some a
  else if t.isPunctuation ")" then return some a
  else unexpected .listGoesOn

/-- The items of a list and the parenthesis that closes it. -/
def listItems (item : Parser α) : Parser (List α × Token) := bracketed do
  let items ← collect (listItem item)
  return (items, ← advance)

/-- A call or subscript behind an expression. -/
def suffix (e : Expr) : Parser (Option Expr) := do
  let t ← peek
  if t.isPunctuation "(" then
    discard advance
    let (arguments, close) ← listItems (argument nested)
    return some (.call ⟨e.range.start, close.range.stop⟩ e arguments)
  else if t.isPunctuation "[" then
    discard advance
    bracketed do
      let subscript ← nested
      let close ← expect (·.isPunctuation "]") .closeBracket
      return some (.index ⟨e.range.start, close.range.stop⟩ e subscript)
  else return none

def suffixed : Parser Expr := do iterate (suffix nested) (← primary nested)

/-- `not` is a key word and the signs are operators. -/
def unaryOp? (t : Token) : Option UnaryOp :=
  if t.isKeyword "not" then some .not
  else if t.isOperator "-" then some .minus
  else if t.isOperator "+" then some .plus
  else none

/-- The next sign, with its place. -/
def sign : Parser (Option (UnaryOp × Range)) := do
  let t ← peek
  match unaryOp? t with
  | none => return none
  | some op =>
    discard advance
    return some (op, t.range)

def signed : Parser Expr := do
  let signs ← collect sign
  let operand ← suffixed nested
  return signs.foldr (fun (op, r) e => .unary ⟨r.start, e.range.stop⟩ op e) operand

/-- An operator may be an operator token or a key word. -/
def binaryOp? (level : List BinaryOp) (t : Token) : Option BinaryOp :=
  if t.kind == .operator || t.kind == .keyword then level.find? (·.text == t.text) else none

/-- An operator of the level and its right side, behind the left one. -/
def operation (level : List BinaryOp) (tighter : Parser Expr) (left : Expr) :
    Parser (Option Expr) := do
  joinLine (level.map BinaryOp.text)
  match binaryOp? level (← peek) with
  | none => return none
  | some op =>
    discard advance
    passLayout
    let right ← tighter
    return some (.binary (left.range.span right.range) op left right)

def operations : List (List BinaryOp) → Parser Expr
  | [] => signed nested
  | level :: tighter => do
    iterate (operation level (operations tighter)) (← operations tighter)

def ternary : Parser Expr := do
  let condition ← operations nested BinaryOp.levels
  joinLine ["?"]
  if (← peek).isOperator "?" then
    discard advance
    passLayout
    let whenTrue ← nested
    joinLine [":"]
    discard <| expect (·.isOperator ":") .colon
    passLayout
    let whenFalse ← nested
    return .ternary (condition.range.span whenFalse.range) condition whenTrue whenFalse
  else return condition

/-- Reads an expression with at most so many levels of nesting. -/
def expression : Nat → Parser Expr
  | 0 => failHere .deepExpression
  | n + 1 => ternary (expression n)

end PineScript.Parser
