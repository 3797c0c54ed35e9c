/-!
# Operators and key words of the tree

Each is a closed type with its spelling; `ofText?` reads the spelling back.
-/

namespace PineScript

inductive UnaryOp where
  | not | minus | plus
deriving DecidableEq, Repr, Inhabited

namespace UnaryOp

def all : List UnaryOp := [not, minus, plus]

def text : UnaryOp → String
  | not => "not"
  | minus => "-"
  | plus => "+"

def ofText? (s : String) : Option UnaryOp := all.find? (·.text == s)

end UnaryOp

inductive BinaryOp where
  | or | and
  | equal | notEqual
  | less | greater | lessEqual | greaterEqual
  | add | subtract
  | multiply | divide | modulo
deriving DecidableEq, Repr, Inhabited

namespace BinaryOp

/-- The operators by how tightly they bind, the loosest first. -/
def levels : List (List BinaryOp) :=
  [[or], [and], [equal, notEqual], [less, greater, lessEqual, greaterEqual], [add, subtract],
    [multiply, divide, modulo]]

def text : BinaryOp → String
  | or => "or"
  | and => "and"
  | equal => "=="
  | notEqual => "!="
  | less => "<"
  | greater => ">"
  | lessEqual => "<="
  | greaterEqual => ">="
  | add => "+"
  | subtract => "-"
  | multiply => "*"
  | divide => "/"
  | modulo => "%"

def ofText? (s : String) : Option BinaryOp := levels.flatten.find? (·.text == s)

theorem ofText?_text (op : BinaryOp) : ofText? op.text = some op := by cases op <;> decide

end BinaryOp

inductive AssignOp where
  | set | add | subtract | multiply | divide | modulo
deriving DecidableEq, Repr, Inhabited

namespace AssignOp

def all : List AssignOp := [set, add, subtract, multiply, divide, modulo]

def text : AssignOp → String
  | set => ":="
  | add => "+="
  | subtract => "-="
  | multiply => "*="
  | divide => "/="
  | modulo => "%="

def ofText? (s : String) : Option AssignOp := all.find? (·.text == s)

theorem ofText?_text (op : AssignOp) : ofText? op.text = some op := by cases op <;> decide

end AssignOp

/-- How control leaves a block. -/
inductive JumpKind where
  | «return» | «break» | «continue»
deriving DecidableEq, Repr, Inhabited

namespace JumpKind

def all : List JumpKind := [.return, .break, .continue]

def text : JumpKind → String
  | .return => "return"
  | .break => "break"
  | .continue => "continue"

def ofText? (s : String) : Option JumpKind := all.find? (·.text == s)

theorem ofText?_text (jump : JumpKind) : ofText? jump.text = some jump := by cases jump <;> decide

end JumpKind

/-- How long a variable lives. -/
inductive Modifier where
  | var | varip
deriving DecidableEq, Repr, Inhabited

namespace Modifier

def all : List Modifier := [var, varip]

def text : Modifier → String
  | var => "var"
  | varip => "varip"

def ofText? (s : String) : Option Modifier := all.find? (·.text == s)

theorem ofText?_text (m : Modifier) : ofText? m.text = some m := by cases m <;> decide

end Modifier

end PineScript
