import PineScript.Analysis.Failure
import PineScript.Rule
import PineScript.Tree.Index

/-!
# Rules by lookup

What a rule reports is found by lookups: among the children of a node, the parameters of a function
and the tokens of a line, and from a node to those above it. A lookup that finds nothing fails, and
the rule with it. So does a message with a number that is too long to be printed. `Rule.attempt`
runs a rule this way.
-/

namespace PineScript

/-- The most digits that a number may have to be printed, if there is such a limit. -/
abbrev DigitLimit := Option Nat

namespace DigitLimit

/-- The limit that holds unless another one is asked for. -/
def standard : DigitLimit := some 4300

/-- A number has at most so many digits if it is below that power of ten. -/
def allows : DigitLimit → Int → Bool
  | none, _ => true
  | some most, n => n.natAbs < Nat.pow 10 most

def exceeded (digits : DigitLimit) : Failure :=
  let most := digits.getD 0
  let limit := s!"Exceeds the limit ({most} digits) for integer string conversion"
  .raised "ValueError"
    [.text (limit ++ "; use sys.set_int_max_str_digits() to increase the limit")]

/-- A text with some numbers in it, unless one of them is too long. -/
def print (digits : DigitLimit) (numbers : List Int) (text : String) : Except Failure String :=
  if numbers.all digits.allows then .ok text else .error digits.exceeded

end DigitLimit

namespace Rule

/-- Nothing stands at this place of a list. -/
def outOfRange : Failure := .raised "IndexError" [.text "list index out of range"]

/-- A node that hangs on none. -/
def unattached (number : Nat) : Failure := .raised "KeyError" [.number (toString number)]

def firstOf (l : List α) : Except Failure α :=
  match l.head? with
  | some a => .ok a
  | none => .error outOfRange

def lastOf (l : List α) : Except Failure α :=
  match l.getLast? with
  | some a => .ok a
  | none => .error outOfRange

/-- All that is found for the elements of a list, unless one of them fails. -/
def gather (f : α → Except Failure (List β)) : List α → Except Failure (List β)
  | [] => .ok []
  | a :: more => do
    let own ← f a
    let rest ← gather f more
    return own ++ rest

/-- The header of a statement. That of a loop ends with the last child before the body, that of a
function with its last parameter, if it has any. -/
def headerOf (s : Stmt) : Except Failure Range :=
  match s with
  | .countingLoop r .. | .iteratingLoop r .. => do
    let part ← lastOf s.children.dropLast
    return ⟨r.start, part.range.stop⟩
  | .blockFunction r name parameters _ =>
    if parameters.isEmpty then .ok ⟨r.start, name.range.stop⟩
    else do
      let last ← lastOf parameters
      return ⟨r.start, last.range.stop⟩
  | s => .ok s.header

namespace Continuation

def attemptLine (digits : DigitLimit) (required : Int) (line : List Token) :
    Except Failure (List Diagnostic) := do
  let code := line.filter (!·.isLayout)
  if code.isEmpty then return []
  let opening ← firstOf line
  let indent := opening.indent.getD 0
  if opening.isLayout || required ≤ indent then return []
  let text ← digits.print [indent, required] (message indent required)
  let first ← firstOf code
  let last ← lastOf code
  return [{
    code := id
    message := text
    severity := .error
    range := first.range.span last.range }]

def attemptStmt (digits : DigitLimit) (minIndent : Int) (tokens : List Token) (s : Stmt) :
    Except Failure (List Diagnostic) := do
  if !isJudged s then return []
  let extent ← headerOf s
  let line := onLine tokens extent.start.line
  if !extent.isMultiline || line.isEmpty then return []
  match (← firstOf line).indent with
  | none => return []
  | some indent =>
    gather (fun n => attemptLine digits (indent + minIndent) (onLine tokens n))
      (furtherLines tokens extent)

def attempt (digits : DigitLimit) (minIndent : Int) (program : Program) (tokens : List Token) :
    Except Failure (List Diagnostic) :=
  gather (attemptStmt digits minIndent tokens) program.statements

end Continuation

namespace Unreachable

def attemptBody (terminators : List String) (tokens : List Token) (body : List Stmt) :
    Except Failure (List Diagnostic) :=
  match splitAtJump terminators (body.filter (!·.isComment)) with
  | none => .ok []
  | some (jump, kind, dead) => do
    if dead.isEmpty then return []
    let start ← match codeFrom tokens jump.stop with
      | some t => .ok t.range.start
      | none => (·.range.start) <$> firstOf dead
    let last ← lastOf dead
    return [{
      code := id
      message := message kind
      severity := .warning
      range := ⟨start, last.range.stop⟩ }]

def attempt (terminators : List String) (program : Program) (tokens : List Token) :
    Except Failure (List Diagnostic) :=
  gather (attemptBody terminators tokens) (program.walk.filterMap body?)

end Unreachable

namespace Nesting

variable (digits : DigitLimit)

/-- Reports a statement that stands at the limit. -/
def attemptJudge (limit depth : Int) (s : Stmt) : Except Failure (List Diagnostic) :=
  if depth = limit then do
    let text ← digits.print [depth + 1, limit] (message (depth + 1) limit)
    let header ← headerOf s
    return [{ code := id, message := text, severity := .warning, range := header }]
  else .ok []

mutual

def attemptStmt (limit depth : Int) : Stmt → Except Failure (List Diagnostic)
  | s@(.conditional b) => do
    let own ← attemptJudge digits limit depth s
    return own ++ (← attemptBranch limit depth b)
  | s@(.countingLoop _ _ _ _ _ body) | s@(.iteratingLoop _ _ _ body) | s@(.whileLoop _ _ body) => do
    let own ← attemptJudge digits limit depth s
    return own ++ (← attemptBlock limit (depth + 1) body)
  | .blockFunction _ _ _ body => attemptBlock limit 0 body
  | _ => .ok []

def attemptBranch (limit depth : Int) : Branch → Except Failure (List Diagnostic)
  | .mk _ _ body otherwise => do
    let own ← attemptBlock limit (depth + 1) body
    return own ++ (← attemptOtherwise limit depth otherwise)

def attemptOtherwise (limit depth : Int) : Otherwise → Except Failure (List Diagnostic)
  | .nothing => .ok []
  | .block body => attemptBlock limit (depth + 1) body
  | .elseIf b => attemptBranch limit depth b

def attemptBlock (limit depth : Int) : Block → Except Failure (List Diagnostic)
  | .mk _ statements => attemptStmts limit depth statements

def attemptStmts (limit depth : Int) : List Stmt → Except Failure (List Diagnostic)
  | [] => .ok []
  | s :: more => do
    let own ← attemptStmt limit depth s
    return own ++ (← attemptStmts limit depth more)

end

def attempt (limit : Int) (program : Program) : Except Failure (List Diagnostic) :=
  attemptStmts digits limit 0 program.body

end Nesting

namespace Shadowing

open Node (nodeAt? parentAt? bodyAbove? bodyAbove?_lt)

/-- The names bound in one body, and the body around it. -/
structure Scope where
  frame : Frame
  around : Option Nat

/-- The scopes that were opened so far, each under the number of its body; the latest of one number
counts. -/
abbrev Scopes := List (Nat × Scope)

/-- What a statement binds in its block. -/
def headerFrame : Node → Frame
  | .stmt (.blockFunction _ _ parameters _) => ofParameters parameters
  | .stmt (.countingLoop _ counter ..) => ofLoop counter
  | .stmt (.iteratingLoop _ element ..) => ofLoop element
  | _ => []

/-- What is bound in a body before its first statement. -/
def implicitFrame (index : Array Node.Entry) (body : Nat) : Frame :=
  match nodeAt? index body, (parentAt? index body).bind (nodeAt? index) with
  | some (.block _), some holder => headerFrame holder
  | _, _ => []

/-- The scope of a body. If there is none yet, it is opened, after that of the body around it. -/
def openScope (index : Array Node.Entry) (body : Nat) (scopes : Scopes) :
    Except Failure (Scope × Scopes) :=
  match scopes.lookup body, nodeAt? index body with
  | some scope, _ => .ok (scope, scopes)
  | none, some (.program _) =>
    let scope : Scope := ⟨implicitFrame index body, none⟩
    .ok (scope, (body, scope) :: scopes)
  | none, _ =>
    match h : bodyAbove? index body with
    | none => .error (unattached body)
    | some around =>
      have : around < body := bodyAbove?_lt h
      match openScope index around scopes with
      | .error failure => .error failure
      | .ok (_, scopes) =>
        let scope : Scope := ⟨implicitFrame index body, some around⟩
        .ok (scope, (body, scope) :: scopes)
termination_by body

/-- Where the nearest of the scopes from a body outwards bound the name. -/
def lookupFrom (scopes : Scopes) (body : Nat) (name : String) : Option Int :=
  match scopes.lookup body with
  | none => none
  | some scope =>
    match scope.frame.lookup name, scope.around with
    | some line, _ => some line
    | none, none => none
    | none, some around => if around < body then lookupFrom scopes around name else none
termination_by body

/-- Reports a name that is bound further out only. -/
def attemptJudge (digits : DigitLimit) (inner outer : Option Int) (range : Range) (name : String) :
    Except Failure (List Diagnostic) :=
  match inner, outer with
  | none, some line => do
    let text ← digits.print [line + 1] (message name line)
    return [{ code := id, message := text, severity := .warning, range }]
  | _, _ => .ok []

/-- Judges a declaration and binds its name. -/
def attemptNode (digits : DigitLimit) (index : Array Node.Entry) (scopes : Scopes) (number : Nat) :
    Except Failure (List Diagnostic × Scopes) :=
  match nodeAt? index number with
  | some (.stmt (.declaration range _ _ name _)) =>
    match bodyAbove? index number with
    | none => .error (unattached number)
    | some body => do
      let (scope, scopes) ← openScope index body scopes
      let outer := scope.around.bind fun around => lookupFrom scopes around name.text
      let found ← attemptJudge digits (scope.frame.lookup name.text) outer range name.text
      let frame := scope.frame.bind name.text range.start.line
      return (found, (body, ⟨frame, scope.around⟩) :: scopes)
  | _ => .ok ([], scopes)

def attemptNodes (digits : DigitLimit) (index : Array Node.Entry) :
    Scopes → List Nat → Except Failure (List Diagnostic)
  | _, [] => .ok []
  | scopes, number :: more => do
    let (own, scopes) ← attemptNode digits index scopes number
    return own ++ (← attemptNodes digits index scopes more)

def attempt (digits : DigitLimit) (program : Program) : Except Failure (List Diagnostic) :=
  let index := program.index
  attemptNodes digits index [] (List.range index.size)

end Shadowing

/-- What a rule reports, unless a lookup fails or a number is too long. -/
def attempt (digits : DigitLimit) (rule : Rule) (program : Program) (tokens : List Token) :
    Except Failure (List Diagnostic) :=
  match rule with
  | continuation minIndent => Continuation.attempt digits minIndent program tokens
  | shadowing => Shadowing.attempt digits program
  | constantCondition => .ok (ConstantCondition.check program)
  | unreachable terminators => Unreachable.attempt terminators program tokens
  | nesting maxDepth => Nesting.attempt digits maxDepth program

end Rule

end PineScript
