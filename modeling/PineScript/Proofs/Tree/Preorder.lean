import PineScript.Proofs.Tree.Walk

/-!
# Pre-order

The nodes of a tree by recursion on the syntax: a node, then what is below it, part by part. Main
statement: the loop with a stack lists the same (`Node.walkFrom_eq`), so the children of a node are
all its parts, in their order.
-/

namespace PineScript

mutual

/-- The nodes under an expression. -/
def Expr.under : Expr → List Node
  | .name _ | .literal _ _ => []
  | .call _ callee arguments => .expr callee :: callee.under ++ Argument.preorder arguments
  | .index _ target subscript => .expr target :: target.under ++ .expr subscript :: subscript.under
  | .unary _ _ operand => .expr operand :: operand.under
  | .binary _ _ left right => .expr left :: left.under ++ .expr right :: right.under
  | .ternary _ condition whenTrue whenFalse =>
    .expr condition :: condition.under ++ .expr whenTrue :: whenTrue.under ++
      .expr whenFalse :: whenFalse.under

def Argument.preorder : List Argument → List Node
  | [] => []
  | .positional e :: more => .expr e :: e.under ++ Argument.preorder more
  | .named r n e :: more =>
    .namedArgument r n e :: n.node :: .expr e :: e.under ++ Argument.preorder more

end

def Expr.preorder (e : Expr) : List Node := .expr e :: e.under

def Parameter.under (p : Parameter) : List Node :=
  p.name.node :: p.default.toList.flatMap Expr.preorder

mutual

def Stmt.under : Stmt → List Node
  | .comment _ _ | .malformed _ _ => []
  | .expression e => e.under
  | .declaration _ _ _ name value | .assignment _ name _ value => name.node :: value.preorder
  | .jump _ _ value => value.toList.flatMap Expr.preorder
  | .conditional b => b.under
  | .countingLoop _ counter first last step body =>
    counter.node :: first.preorder ++ last.preorder ++ step.toList.flatMap Expr.preorder ++
      .block body :: body.under
  | .iteratingLoop _ element collection body =>
    element.node :: collection.preorder ++ .block body :: body.under
  | .whileLoop _ condition body => condition.preorder ++ .block body :: body.under
  | .lineFunction _ name parameters value =>
    name.node :: parameters.flatMap (fun p => .parameter p :: p.under) ++ value.preorder
  | .blockFunction _ name parameters body =>
    name.node :: parameters.flatMap (fun p => .parameter p :: p.under) ++ .block body :: body.under

def Branch.under : Branch → List Node
  | .mk _ condition body .nothing => condition.preorder ++ .block body :: body.under
  | .mk _ condition body (.block b) =>
    condition.preorder ++ .block body :: body.under ++ .block b :: b.under
  | .mk _ condition body (.elseIf b) =>
    condition.preorder ++ .block body :: body.under ++ .stmt (.conditional b) :: b.under

def Block.under : Block → List Node
  | .mk _ statements => Stmt.preorder statements

def Stmt.preorder : List Stmt → List Node
  | [] => []
  | s :: more => s.node :: s.under ++ Stmt.preorder more

end

namespace Node

def under : Node → List Node
  | program p => Stmt.preorder p.body
  | block b => b.under
  | stmt s => s.under
  | expr e => e.under
  | namedArgument _ name value => name.node :: value.preorder
  | parameter p => p.under

/-- A node and the nodes under it, each in front of those under it. -/
def preorder (n : Node) : List Node := n :: n.under

theorem preorder_stmt (s : Stmt) : s.node.preorder = s.node :: s.under := by
  cases s <;> simp [preorder, Stmt.node, under, Stmt.under]

@[simp] theorem flatMap_preorder_arguments (as : List Argument) :
    (as.map Argument.node).flatMap preorder = Argument.preorder as := by
  induction as with
  | nil => simp [Argument.preorder]
  | cons a more ih =>
    cases a <;> simp [Argument.preorder, Argument.node, preorder, under, Expr.preorder, ih]

@[simp] theorem flatMap_preorder_stmts (ss : List Stmt) :
    (ss.map Stmt.node).flatMap preorder = Stmt.preorder ss := by
  induction ss with
  | nil => simp [Stmt.preorder]
  | cons s more ih => simp [Stmt.preorder, preorder_stmt, ih]

@[simp] theorem flatMap_preorder_ofExpr? (e : Option Expr) :
    (ofExpr? e).flatMap preorder = e.toList.flatMap Expr.preorder := by
  cases e <;> rfl

theorem under_expr (e : Expr) : e.under = e.children.flatMap preorder := by
  cases e <;> simp [Expr.under, Expr.children, preorder, under]

theorem under_stmt (s : Stmt) : s.under = s.children.flatMap preorder := by
  cases s with
  | expression e => exact under_expr e
  | conditional b =>
    obtain ⟨range, condition, body, otherwise⟩ := b
    cases otherwise <;> simp [Stmt.under, Branch.under, Stmt.children, Branch.condition,
      Branch.body, Branch.otherwise, Otherwise.nodes, Expr.preorder, preorder, under]
  | _ =>
    simp [Stmt.under, Stmt.children, Expr.preorder, preorder, under, Name.node, Expr.under,
      List.flatMap_map]

/-- Under a node there are its children with the nodes under them. -/
theorem under_eq (n : Node) : n.under = n.children.flatMap preorder := by
  cases n with
  | program p => exact (flatMap_preorder_stmts p.body).symm
  | block b => cases b; exact (flatMap_preorder_stmts _).symm
  | stmt s => exact under_stmt s
  | expr e => exact under_expr e
  | namedArgument r n v => simp [under, children, preorder, Name.node, Expr.under, Expr.preorder]
  | parameter p => simp [under, children, preorder, Name.node, Expr.under, Parameter.under]

/-- The loop lists the subtrees on its stack one behind the other. -/
theorem walkFrom_eq (stack : List Node) : walkFrom stack = stack.flatMap preorder := by
  fun_induction walkFrom stack with
  | case1 => rfl
  | case2 n stack ih =>
    rw [ih, List.flatMap_append, ← under_eq]
    rfl

end Node

end PineScript
