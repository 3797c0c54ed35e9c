import PineScript.Tree.Stmt

/-!
# Nodes

The tree seen uniformly: whatever has a range and children is a node. `Node.children` lists the
children in source order and `Node.size` counts the nodes of a subtree; `size_eq` ties the two.
-/

namespace PineScript

inductive Node where
  | program (program : Program)
  | block (block : Block)
  | stmt (stmt : Stmt)
  | expr (expr : Expr)
  | namedArgument (range : Range) (name : Name) (value : Expr)
  | parameter (parameter : Parameter)

/-- A name as a node of its own. -/
def Name.node (n : Name) : Node := .expr (.name n)

def Argument.node : Argument → Node
  | .positional e => .expr e
  | .named r n e => .namedArgument r n e

/-- An expression that stands as a statement is the same node. -/
def Stmt.node : Stmt → Node
  | .expression e => .expr e
  | s => .stmt s

def Otherwise.nodes : Otherwise → List Node
  | .nothing => []
  | .block b => [.block b]
  | .elseIf b => [.stmt (.conditional b)]

namespace Node

def range : Node → Range
  | program p => p.range
  | block b => b.range
  | stmt s => s.range
  | expr e => e.range
  | namedArgument r _ _ => r
  | parameter p => p.range

def ofExpr? (e : Option Expr) : List Node := (e.map Node.expr).toList

end Node

def Expr.children : Expr → List Node
  | .name _ | .literal _ _ => []
  | .call _ callee arguments => .expr callee :: arguments.map Argument.node
  | .index _ target subscript => [.expr target, .expr subscript]
  | .unary _ _ operand => [.expr operand]
  | .binary _ _ left right => [.expr left, .expr right]
  | .ternary _ condition whenTrue whenFalse =>
    [.expr condition, .expr whenTrue, .expr whenFalse]

def Stmt.children : Stmt → List Node
  | .comment _ _ | .malformed _ _ => []
  | .expression e => e.children
  | .declaration _ _ _ name value => [name.node, .expr value]
  | .assignment _ target _ value => [target.node, .expr value]
  | .jump _ _ value => Node.ofExpr? value
  | .conditional b => .expr b.condition :: .block b.body :: b.otherwise.nodes
  | .countingLoop _ counter first last step body =>
    counter.node :: .expr first :: .expr last :: Node.ofExpr? step ++ [.block body]
  | .iteratingLoop _ element collection body => [element.node, .expr collection, .block body]
  | .whileLoop _ condition body => [.expr condition, .block body]
  | .lineFunction _ name parameters value =>
    name.node :: parameters.map .parameter ++ [.expr value]
  | .blockFunction _ name parameters body =>
    name.node :: parameters.map .parameter ++ [.block body]

def Node.children : Node → List Node
  | program p => p.body.map Stmt.node
  | block b => b.statements.map Stmt.node
  | stmt s => s.children
  | expr e => e.children
  | namedArgument _ name value => [name.node, .expr value]
  | parameter p => p.name.node :: Node.ofExpr? p.default

/-! ## Sizes -/

mutual

def Expr.size : Expr → Nat
  | .name _ | .literal _ _ => 1
  | .call _ callee arguments => 1 + callee.size + Argument.sizes arguments
  | .index _ target subscript => 1 + target.size + subscript.size
  | .unary _ _ operand => 1 + operand.size
  | .binary _ _ left right => 1 + left.size + right.size
  | .ternary _ condition whenTrue whenFalse =>
    1 + condition.size + whenTrue.size + whenFalse.size

def Argument.size : Argument → Nat
  | .positional e => e.size
  | .named _ _ e => 2 + e.size

def Argument.sizes : List Argument → Nat
  | [] => 0
  | a :: more => a.size + Argument.sizes more

end

def Expr.sizeOf? (e : Option Expr) : Nat := (e.map Expr.size).getD 0

def Parameter.size (p : Parameter) : Nat := 2 + Expr.sizeOf? p.default

def Parameter.sizes : List Parameter → Nat
  | [] => 0
  | p :: more => p.size + Parameter.sizes more

mutual

def Stmt.size : Stmt → Nat
  | .comment _ _ | .malformed _ _ => 1
  | .expression e => e.size
  | .declaration _ _ _ _ value => 2 + value.size
  | .assignment _ _ _ value => 2 + value.size
  | .jump _ _ value => 1 + Expr.sizeOf? value
  | .conditional b => b.size
  | .countingLoop _ _ first last step body =>
    2 + first.size + last.size + Expr.sizeOf? step + body.size
  | .iteratingLoop _ _ collection body => 2 + collection.size + body.size
  | .whileLoop _ condition body => 1 + condition.size + body.size
  | .lineFunction _ _ parameters value => 2 + Parameter.sizes parameters + value.size
  | .blockFunction _ _ parameters body => 2 + Parameter.sizes parameters + body.size

def Branch.size : Branch → Nat
  | .mk _ condition body otherwise => 1 + condition.size + body.size + otherwise.size

def Otherwise.size : Otherwise → Nat
  | .nothing => 0
  | .block b => b.size
  | .elseIf b => b.size

def Block.size : Block → Nat
  | .mk _ statements => 1 + Stmt.sizes statements

def Stmt.sizes : List Stmt → Nat
  | [] => 0
  | s :: more => s.size + Stmt.sizes more

end

namespace Node

def size : Node → Nat
  | program p => 1 + Stmt.sizes p.body
  | block b => b.size
  | stmt s => s.size
  | expr e => e.size
  | namedArgument _ _ value => 2 + value.size
  | parameter p => p.size

/-- The number of nodes in a list of subtrees. -/
def sizes : List Node → Nat
  | [] => 0
  | n :: more => n.size + sizes more

@[simp] theorem sizes_nil : sizes [] = 0 := rfl

@[simp] theorem sizes_cons (n : Node) (ns : List Node) : sizes (n :: ns) = n.size + sizes ns := rfl

@[simp] theorem sizes_append (ms ns : List Node) : sizes (ms ++ ns) = sizes ms + sizes ns := by
  induction ms with
  | nil => simp
  | cons m ms ih => simp [ih, Nat.add_assoc]

theorem size_argument (a : Argument) : a.node.size = a.size := by
  cases a <;> simp [Argument.node, Argument.size, size]

theorem size_stmt (s : Stmt) : s.node.size = s.size := by
  cases s <;> simp [Stmt.node, size, Stmt.size]

@[simp] theorem sizes_arguments (as : List Argument) :
    sizes (as.map Argument.node) = Argument.sizes as := by
  induction as with
  | nil => simp [Argument.sizes]
  | cons a more ih => simp [Argument.sizes, ih, size_argument]

@[simp] theorem sizes_stmts (ss : List Stmt) : sizes (ss.map Stmt.node) = Stmt.sizes ss := by
  induction ss with
  | nil => simp [Stmt.sizes]
  | cons s more ih => simp [Stmt.sizes, ih, size_stmt]

@[simp] theorem sizes_parameters (ps : List Parameter) :
    sizes (ps.map .parameter) = Parameter.sizes ps := by
  induction ps with
  | nil => simp [Parameter.sizes]
  | cons p more ih => simp [Parameter.sizes, ih, size]

@[simp] theorem sizes_ofExpr? (e : Option Expr) : sizes (ofExpr? e) = Expr.sizeOf? e := by
  cases e <;> simp [ofExpr?, Expr.sizeOf?, size]

@[simp] theorem sizes_otherwise (o : Otherwise) : sizes o.nodes = o.size := by
  cases o <;> simp [Otherwise.nodes, Otherwise.size, size, Stmt.size]

theorem size_eq_expr (e : Expr) : e.size = 1 + sizes e.children := by
  cases e <;> simp [Expr.size, Expr.children, size] <;> omega

theorem size_eq_stmt (s : Stmt) : s.size = 1 + sizes s.children := by
  cases s with
  | expression e => simpa [Stmt.size, Stmt.children] using size_eq_expr e
  | conditional b =>
    cases b
    simp [Stmt.size, Branch.size, Stmt.children, Branch.condition, Branch.body, Branch.otherwise,
      size]
    omega
  | _ => simp [Stmt.size, Stmt.children, size, Name.node, Expr.size]; try omega

/-- A node counts itself and the nodes below its children. -/
theorem size_eq (n : Node) : n.size = 1 + sizes n.children := by
  cases n with
  | program p => simp [size, children]
  | block b => cases b; simp [size, children, Block.size, Block.statements]
  | stmt s => exact size_eq_stmt s
  | expr e => exact size_eq_expr e
  | namedArgument r n v => simp [size, children, Name.node, Expr.size]; omega
  | parameter p => simp [size, children, Parameter.size, Name.node, Expr.size]; omega

theorem sizes_children_lt (n : Node) : sizes n.children < n.size := by
  rw [size_eq n]; omega

end Node

end PineScript
