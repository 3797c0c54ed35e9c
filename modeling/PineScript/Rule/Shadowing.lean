import PineScript.Diagnostic
import PineScript.Tree.Stmt

/-!
# Shadowing

Every block opens a scope below that of the script. A declaration in a block that repeats a name
which an enclosing scope has bound before makes a second variable. The parameters of a function and
the variable of a loop are bound in the body from its start; repeating a name within one scope is
not reported.
-/

namespace PineScript.Rule.Shadowing

def id : String := "VARIABLE_SHADOWING"

/-- The names bound in one scope, each with the line of its binding. -/
abbrev Frame := List (String × Int)

/-- Binds a name unless the scope has it. -/
def Frame.bind (frame : Frame) (name : String) (line : Int) : Frame :=
  match frame.lookup name with
  | some _ => frame
  | none => frame ++ [(name, line)]

/-- Where the nearest scope that has the name bound it. -/
def lookup (scopes : List Frame) (name : String) : Option Int :=
  scopes.findSome? (·.lookup name)

/-- The scope of a function's body; of two parameters with one name the last counts. -/
def ofParameters (parameters : List Parameter) : Frame :=
  parameters.reverse.foldl (fun frame p => frame.bind p.name.text p.range.start.line) []

def ofLoop (name : Name) : Frame := [(name.text, name.range.start.line)]

def declared (frame : Frame) : Stmt → Frame
  | .declaration r _ _ name _ => frame.bind name.text r.start.line
  | _ => frame

def message (name : String) (line : Int) : String :=
  s!"Declaration of `{name}` shadows the variable declared on line {line + 1}"

/-- Judges a declaration by its own scope and those around it. -/
def judge (frame : Frame) (outer : List Frame) (range : Range) (name : String) : List Diagnostic :=
  match frame.lookup name, lookup outer name with
  | none, some line => [{ code := id, message := message name line, severity := .warning, range }]
  | _, _ => []

mutual

def inStmt (frame : Frame) (outer : List Frame) : Stmt → List Diagnostic
  | .declaration r _ _ name _ => judge frame outer r name.text
  | .conditional b => inBranch (frame :: outer) b
  | .countingLoop _ counter _ _ _ body => inBlock (frame :: outer) (ofLoop counter) body
  | .iteratingLoop _ element _ body => inBlock (frame :: outer) (ofLoop element) body
  | .whileLoop _ _ body => inBlock (frame :: outer) [] body
  | .blockFunction _ _ parameters body => inBlock (frame :: outer) (ofParameters parameters) body
  | _ => []

def inBranch (outer : List Frame) : Branch → List Diagnostic
  | .mk _ _ body otherwise => inBlock outer [] body ++ inOtherwise outer otherwise

def inOtherwise (outer : List Frame) : Otherwise → List Diagnostic
  | .nothing => []
  | .block body => inBlock outer [] body
  | .elseIf b => inBranch outer b

def inBlock (outer : List Frame) (frame : Frame) : Block → List Diagnostic
  | .mk _ statements => inBody frame outer statements

def inBody (frame : Frame) (outer : List Frame) : List Stmt → List Diagnostic
  | [] => []
  | s :: more => inStmt frame outer s ++ inBody (declared frame s) outer more

end

def check (program : Program) : List Diagnostic := inBody [] [] program.body

end PineScript.Rule.Shadowing
