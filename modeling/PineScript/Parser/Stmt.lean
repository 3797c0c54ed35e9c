import PineScript.Parser.Expr
import PineScript.Parser.Recovery

/-!
# Reading statements

The body of a statement is read together with the faults inside it. If the statement then fails
itself, its own fault stands for them. `statement` takes the readers of expressions and of blocks as
arguments; `block n` allows `n` levels of blocks and nested expressions together.
-/

namespace PineScript.Parser

/-- What was read, and the faults that were mended on the way. -/
structure Mended (α : Type) where
  value : α
  faults : List Fault

variable (nested : Parser Expr) (block : Int → Parser (Mended Block))

/-! ## Simple statements -/

def jump (kind : JumpKind) : Parser Stmt := do
  let keyword ← advance
  if kind != .return || (← atLineEnd) then return .jump keyword.range kind none
  let value ← nested
  return .jump ⟨keyword.range.start, value.range.stop⟩ kind (some value)

def modifier? (t : Token) : Option Modifier :=
  if t.kind == .keyword then Modifier.ofText? t.text else none

def jumpKind? (t : Token) : Option JumpKind :=
  if t.kind == .keyword then JumpKind.ofText? t.text else none

def assignOp? (t : Token) : Option AssignOp :=
  if t.kind == .operator then AssignOp.ofText? t.text else none

def declaration : Parser Stmt := do
  let first ← peek
  let modifier := modifier? first
  if modifier.isSome then discard advance
  let typed := (← peek).isIdentifier && (← peekAt 1).isIdentifier
  let typeName ← if typed then (fun t => some t.text) <$> advance else pure none
  let name ← expect Token.isIdentifier .variableName
  discard <| expect (·.isOperator "=") .equals
  passLayout
  let value ← nested
  return .declaration ⟨first.range.start, value.range.stop⟩ modifier typeName (nameOf name) value

def assignment (op : AssignOp) : Parser Stmt := do
  let name ← advance
  discard advance
  passLayout
  let value ← nested
  return .assignment ⟨name.range.start, value.range.stop⟩ (nameOf name) op value

/-- Whether a declaration without modifier starts here. -/
def startsDeclaration : Parser Bool := do
  if !(← peek).isIdentifier then return false
  let second ← peekAt 1
  if second.isOperator "=" then return true
  return second.isIdentifier && (← peekAt 2).isOperator "="

def simpleForm : Parser Stmt := do
  let t ← peek
  if let some kind := jumpKind? t then jump nested kind
  else if (modifier? t).isSome || (← startsDeclaration) then declaration nested
  else match t.isIdentifier, assignOp? (← peekAt 1) with
    | true, some op => assignment nested op
    | _, _ => return .expression (← nested)

def endOfLine : Parser Unit := do
  if !(← atLineEnd) then unexpected .endOfLine

def simple (indent : Int) : Parser Stmt := do
  let s ← withMargin indent (simpleForm nested)
  endOfLine
  return s

/-! ## Statements with a block -/

/-- Goes to the `else` that carries on an `if` of this indentation. Only blank lines and the comment
behind the last line of the block may stand before it. -/
def elseAhead (indent : Int) : List Token → Option (List Token)
  | [] => none
  | t :: ts =>
    if t.kind == .newline || (t.kind == .comment && !t.isLineLeading) then elseAhead indent ts
    else if t.isKeyword "else" && t.indent == some indent then some (t :: ts)
    else none

def takeElse (indent : Int) : Parser Bool := fun ctx ts =>
  match elseAhead indent ts with
  | none => .ok false ts
  | some rest => (do discard advance; return true : Parser Bool) ctx rest

def Mended.stop (body : Mended Block) : Mended Otherwise → Position
  | ⟨.nothing, _⟩ => body.value.range.stop
  | ⟨.block b, _⟩ => b.range.stop
  | ⟨.elseIf b, _⟩ => b.range.stop

/-- The condition and block behind an `if`, with what `rest` reads behind them. -/
def branch (indent : Int) (rest : Parser (Mended Otherwise)) (keyword : Token) :
    Parser (Mended Branch) := do
  let condition ← nested
  let body ← block indent
  let otherwise ← rest
  let range : Range := ⟨keyword.range.start, body.stop otherwise⟩
  return ⟨.mk range condition body.value otherwise.value, body.faults ++ otherwise.faults⟩

/-- What hangs on an `if`; the list `bound` counts the branches of the chain. -/
def otherwiseFor (indent : Int) : List Token → Parser (Mended Otherwise)
  | [] => return ⟨.nothing, []⟩
  | _ :: bound => do
    if !(← takeElse indent) then return ⟨.nothing, []⟩
    if (← peek).isKeyword "if" then
      let b ← branch nested block indent (otherwiseFor indent bound) (← advance)
      return ⟨.elseIf b.value, b.faults⟩
    let b ← block indent
    return ⟨.block b.value, b.faults⟩

def otherwise (indent : Int) : Parser (Mended Otherwise) := fun ctx ts =>
  otherwiseFor nested block indent (ctx.endToken :: ts) ctx ts

def conditional (indent : Int) : Parser (Mended Stmt) := do
  let b ← branch nested block indent (otherwise nested block indent) (← advance)
  return ⟨.conditional b.value, b.faults⟩

def forLoop (indent : Int) : Parser (Mended Stmt) := do
  let keyword ← advance
  let name ← expect Token.isIdentifier .loopVariable
  let t ← peek
  if t.isOperator "=" then
    discard advance
    let first ← nested
    discard <| expect (·.isKeyword "to") .boundsEnd
    let last ← nested
    let step ← if (← peek).isKeyword "by" then (do discard advance; some <$> nested) else pure none
    let body ← block indent
    let range : Range := ⟨keyword.range.start, body.value.range.stop⟩
    return ⟨.countingLoop range (nameOf name) first last step body.value, body.faults⟩
  else if t.isKeyword "in" then
    discard advance
    let collection ← nested
    let body ← block indent
    let range : Range := ⟨keyword.range.start, body.value.range.stop⟩
    return ⟨.iteratingLoop range (nameOf name) collection body.value, body.faults⟩
  else unexpected .loopSource

def whileLoop (indent : Int) : Parser (Mended Stmt) := do
  let keyword ← advance
  let condition ← nested
  let body ← block indent
  let range : Range := ⟨keyword.range.start, body.value.range.stop⟩
  return ⟨.whileLoop range condition body.value, body.faults⟩

/-! ## Functions -/

/-- What follows the bracket that closes `depth` open ones. -/
def behindClosing : Nat → List Token → Option (List Token)
  | _, [] => none
  | depth, t :: ts =>
    if t.isPunctuation "(" || t.isPunctuation "[" then behindClosing (depth + 1) ts
    else if t.isPunctuation ")" || t.isPunctuation "]" then
      if depth ≤ 1 then some ts else behindClosing (depth - 1) ts
    else behindClosing depth ts

/-- Whether a name, a list in parentheses and, right behind it, an arrow stand here. -/
def startsFunction : Parser Bool := fun ctx ts =>
  let found :=
    match ts.dropWhile ctx.skips with
    | name :: rest =>
      match name.isIdentifier, rest.dropWhile ctx.skips with
      | true, first :: more =>
        if first.isPunctuation "(" then
          match behindClosing 1 more with
          | some (t :: _) => t.isOperator "=>"
          | _ => false
        else false
      | _, _ => false
    | [] => false
  .ok found ts

/-- The next word of a parameter. -/
def parameterWord : Parser (Option Token) := do
  if (← peek).isIdentifier then return some (← advance) else return none

/-- The words in front of a parameter's name make up its type. -/
def typeOf (words : List Token) : Option String :=
  let text := " ".intercalate (words.map (·.text))
  if text = "" then none else some text

def parameter : Parser Parameter := do
  let words ← collect parameterWord
  match words.head?, words.getLast? with
  | some first, some name =>
    let default ← if (← peek).isOperator "=" then (do discard advance; some <$> nested)
      else pure none
    let stop := match default with
      | some value => value.range.stop
      | none => name.range.stop
    return ⟨⟨first.range.start, stop⟩, typeOf words.dropLast, nameOf name, default⟩
  | _, _ => unexpected .parameterName

def function (indent : Int) : Parser (Mended Stmt) := do
  let name ← advance
  discard advance
  let (parameters, _) ← listItems (parameter nested)
  discard <| expect (·.isOperator "=>") .arrow
  if ← atLineEnd then
    let body ← block indent
    let range : Range := ⟨name.range.start, body.value.range.stop⟩
    return ⟨.blockFunction range (nameOf name) parameters body.value, body.faults⟩
  else
    let value ← nested
    endOfLine
    let range : Range := ⟨name.range.start, value.range.stop⟩
    return ⟨.lineFunction range (nameOf name) parameters value, []⟩

/-! ## Statements -/

def statement (indent : Int) : Parser (Mended Stmt) := do
  let t ← peek
  if t.isKeyword "if" then conditional nested block indent
  else if t.isKeyword "for" then forLoop nested block indent
  else if t.isKeyword "while" then whileLoop nested block indent
  else if t.isKeyword "else" then fail .strayElse t.range
  else if ← startsFunction then function nested block indent
  else return ⟨← simple nested indent, []⟩

end PineScript.Parser
