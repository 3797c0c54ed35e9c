import PineScript.Proofs.Tree.Move
import PineScript.Proofs.Tree.Walk

/-!
# Visiting moved trees

A moved tree has the nodes, statements and headers of the tree, moved.
-/

namespace PineScript

variable (f : Position → Position)

def Program.move (p : Program) : Program := ⟨p.range.move f, p.body.map (Stmt.move f)⟩

def Node.move : Node → Node
  | program p => program (p.move f)
  | block b => block (b.move f)
  | stmt s => stmt (s.move f)
  | expr e => expr (e.move f)
  | namedArgument r n e => namedArgument (r.move f) (n.move f) (e.move f)
  | parameter p => parameter (p.move f)

/-! ## Parts -/

@[simp] theorem Block.statements_move (b : Block) :
    (b.move f).statements = b.statements.map (Stmt.move f) := by
  cases b with | mk r ss => rw [move, Stmt.moveAll_eq_map, statements, statements]

@[simp] theorem Branch.condition_move (b : Branch) :
    (b.move f).condition = b.condition.move f := by
  cases b with | mk r c b o => rw [move, condition, condition]

@[simp] theorem Branch.body_move (b : Branch) : (b.move f).body = b.body.move f := by
  cases b with | mk r c b o => rw [move, body, body]

@[simp] theorem Branch.otherwise_move (b : Branch) :
    (b.move f).otherwise = b.otherwise.move f := by
  cases b with | mk r c b o => rw [move, otherwise, otherwise]

@[simp] theorem Branch.header_move (b : Branch) : (b.move f).header = b.header.move f := by
  rw [header, range_move, condition_move, Expr.range_move]
  rfl

theorem Stmt.isComment_move (s : Stmt) : (s.move f).isComment = s.isComment := by
  cases s <;> rw [move] <;> rfl

@[simp] theorem Stmt.header_move (s : Stmt) : (s.move f).header = s.header.move f := by
  cases s with
  | conditional b => rw [move, header, header, Branch.header_move]
  | countingLoop r counter first last step body =>
    cases step <;> simp [move, header, Range.move]
  | iteratingLoop r element collection body => simp [move, header, Range.move]
  | whileLoop r condition body => simp [move, header, Range.move]
  | blockFunction r name parameters body =>
    rw [move, header, header, List.getLast?_map]
    cases parameters.getLast? <;> rfl
  | expression value => simp only [move, header, range, Expr.range_move]
  | _ => simp only [move, header, range]

/-! ## Nodes -/

theorem Stmt.node_move (s : Stmt) : (s.move f).node = s.node.move f := by
  cases s <;> simp only [move, node, Node.move]

theorem Argument.node_move (a : Argument) : (a.move f).node = a.node.move f := by
  cases a <;> simp only [move, node, Node.move]

theorem Node.ofExpr?_move (e : Option Expr) :
    ofExpr? (e.map (Expr.move f)) = (ofExpr? e).map (Node.move f) := by
  cases e <;> rfl

theorem Expr.children_move (e : Expr) : (e.move f).children = e.children.map (Node.move f) := by
  cases e with
  | call r callee arguments =>
    simp [move, children, Node.move, Function.comp_def, Argument.node_move]
  | _ => simp [move, children, Node.move]

theorem Otherwise.nodes_move (o : Otherwise) : (o.move f).nodes = o.nodes.map (Node.move f) := by
  cases o <;> simp [move, nodes, Node.move, Stmt.move]

theorem Stmt.children_move (s : Stmt) : (s.move f).children = s.children.map (Node.move f) := by
  cases s <;>
    simp [move, children, Node.move, Name.node, Expr.move, Expr.children_move,
      Otherwise.nodes_move, Node.ofExpr?_move, Function.comp_def]

namespace Node

theorem children_move (n : Node) : (n.move f).children = n.children.map (Node.move f) := by
  cases n with
  | program p => simp [move, Program.move, children, Function.comp_def, Stmt.node_move]
  | block b => simp [move, children, Function.comp_def, Stmt.node_move]
  | stmt s => exact Stmt.children_move f s
  | expr e => exact Expr.children_move f e
  | namedArgument r n e => simp [move, children, Name.node, Expr.move]
  | parameter p => simp [move, Parameter.move, children, Name.node, Expr.move, ofExpr?_move]

theorem walkFrom_move (ns : List Node) :
    walkFrom (ns.map (Node.move f)) = (walkFrom ns).map (Node.move f) := by
  fun_induction walkFrom ns with
  | case1 => rw [List.map_nil, walkFrom_nil]
  | case2 n stack ih =>
    rw [List.map_cons, walkFrom, children_move, ← List.map_append, ih, List.map_cons]

theorem ownStatements_move (n : Node) :
    (n.move f).ownStatements = n.ownStatements.map (Stmt.move f) := by
  cases n with
  | program p => rfl
  | block b => exact Block.statements_move f b
  | stmt s =>
    cases s with
    | conditional b =>
      simp only [move, Stmt.move, ownStatements, Branch.otherwise_move]
      cases b.otherwise <;> simp only [Otherwise.move, List.map_nil, List.map_cons, Stmt.move]
    | _ => simp only [move, Stmt.move, ownStatements, List.map_nil]
  | _ => rfl

end Node

namespace Program

theorem walk_move (p : Program) : (p.move f).walk = p.walk.map (Node.move f) :=
  Node.walkFrom_move f [p.node]

theorem statements_move (p : Program) :
    (p.move f).statements = p.statements.map (Stmt.move f) := by
  rw [statements, statements, walk_move, List.flatMap_map, List.map_flatMap]
  simp only [Node.ownStatements_move]

end Program

end PineScript
