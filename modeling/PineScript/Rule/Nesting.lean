import PineScript.Diagnostic
import PineScript.Tree.Stmt

/-!
# Nesting depth

Conditionals and loops may be nested to a limit. A chain of `else if` counts once, and the body of a
function starts at depth zero. The first level past the limit is reported, deeper ones are not.
-/

namespace PineScript.Rule.Nesting

def id : String := "NESTING_DEPTH"

def message (depth limit : Int) : String :=
  s!"Nesting depth {depth} exceeds the maximum of {limit}; " ++
    "extract logic into a function to reduce nesting"

/-- Reports a statement that stands at the limit. -/
def judge (limit depth : Int) (header : Range) : List Diagnostic :=
  if depth = limit then
    [{ code := id, message := message (depth + 1) limit, severity := .warning, range := header }]
  else []

mutual

def inStmt (limit depth : Int) : Stmt → List Diagnostic
  | .conditional b => judge limit depth b.header ++ inBranch limit depth b
  | s@(.countingLoop _ _ _ _ _ body) =>
    judge limit depth s.header ++ inBlock limit (depth + 1) body
  | s@(.iteratingLoop _ _ _ body) => judge limit depth s.header ++ inBlock limit (depth + 1) body
  | s@(.whileLoop _ _ body) => judge limit depth s.header ++ inBlock limit (depth + 1) body
  | .blockFunction _ _ _ body => inBlock limit 0 body
  | _ => []

def inBranch (limit depth : Int) : Branch → List Diagnostic
  | .mk _ _ body otherwise => inBlock limit (depth + 1) body ++ inOtherwise limit depth otherwise

def inOtherwise (limit depth : Int) : Otherwise → List Diagnostic
  | .nothing => []
  | .block body => inBlock limit (depth + 1) body
  | .elseIf b => inBranch limit depth b

def inBlock (limit depth : Int) : Block → List Diagnostic
  | .mk _ statements => inBody limit depth statements

def inBody (limit depth : Int) : List Stmt → List Diagnostic
  | [] => []
  | s :: more => inStmt limit depth s ++ inBody limit depth more

end

def check (limit : Int) (program : Program) : List Diagnostic := inBody limit 0 program.body

end PineScript.Rule.Nesting
