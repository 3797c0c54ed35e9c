import PineScript.Tree.Walk

/-!
# Visiting a tree

The visits of a stack are those of its subtrees, one behind the other. The malformed statements of
a tree are read off its visits; expressions have none below them.
-/

namespace PineScript

@[simp] theorem Stmt.range_node (s : Stmt) : s.node.range = s.range := by
  cases s <;> rfl

@[simp] theorem Stmt.children_node (s : Stmt) : s.node.children = s.children := by
  cases s <;> rfl

namespace Node

@[simp] theorem walkFrom_nil : walkFrom [] = [] := by
  rw [walkFrom]

theorem walkFrom_append (ms ns : List Node) : walkFrom (ms ++ ns) = walkFrom ms ++ walkFrom ns := by
  fun_induction walkFrom ms with
  | case1 => rfl
  | case2 m stack ih =>
    rw [List.cons_append, walkFrom, ← List.append_assoc, ih, List.cons_append]

/-- A node is visited before what is below it, and that before what is beside it. -/
theorem walkFrom_cons (n : Node) (ns : List Node) :
    walkFrom (n :: ns) = n :: (walkFrom n.children ++ walkFrom ns) := by
  rw [walkFrom, walkFrom_append]

theorem length_walkFrom (stack : List Node) : (walkFrom stack).length = sizes stack := by
  fun_induction walkFrom stack with
  | case1 => rfl
  | case2 n stack ih =>
    rw [List.length_cons, ih, sizes_append, sizes_cons, size_eq]
    omega

theorem mem_walkFrom_of_mem {n : Node} {ns : List Node} (h : n ∈ ns) : n ∈ walkFrom ns := by
  obtain ⟨front, behind, rfl⟩ := List.append_of_mem h
  rw [walkFrom_append, walkFrom_cons]
  exact List.mem_append_right _ List.mem_cons_self

/-- With a node its children are visited. -/
theorem mem_walkFrom_of_child {n c : Node} {ns : List Node} (hn : n ∈ walkFrom ns)
    (hc : c ∈ n.children) : c ∈ walkFrom ns := by
  fun_induction walkFrom ns with
  | case1 => cases hn
  | case2 m stack ih =>
    rcases List.mem_cons.1 hn with rfl | hn
    · exact List.mem_cons_of_mem _ (mem_walkFrom_of_mem (List.mem_append_left _ hc))
    · exact List.mem_cons_of_mem _ (ih hn)

/-! ## Malformed statements -/

/-- The range and cause of a malformed statement. -/
def malformed? : Node → Option (Range × Fault.Cause)
  | stmt (.malformed range cause) => some (range, cause)
  | _ => none

/-- The malformed statements of some subtrees, in the order of visits. -/
def malformed (ns : List Node) : List (Range × Fault.Cause) := (walkFrom ns).filterMap malformed?

@[simp] theorem malformed_nil : malformed [] = [] := by
  simp [malformed]

@[simp] theorem malformed_append (ms ns : List Node) :
    malformed (ms ++ ns) = malformed ms ++ malformed ns := by
  simp [malformed, walkFrom_append]

theorem malformed_cons (n : Node) (ns : List Node) :
    malformed (n :: ns) = n.malformed?.toList ++ (malformed n.children ++ malformed ns) := by
  cases h : n.malformed? <;> simp [malformed, walkFrom_cons, h]

/-- Whether a node is an expression or part of one. -/
def isExpression : Node → Bool
  | expr _ | namedArgument _ _ _ | parameter _ => true
  | _ => false

theorem isExpression_argument (a : Argument) : a.node.isExpression = true := by
  cases a <;> rfl

theorem isExpression_ofExpr? {e : Option Expr} {c : Node} (h : c ∈ ofExpr? e) :
    c.isExpression = true := by
  cases e with
  | none => simp [ofExpr?] at h
  | some e =>
    rw [ofExpr?, Option.map_some, Option.toList_some, List.mem_singleton] at h
    rw [h]
    rfl

theorem isExpression_children_expr (e : Expr) : e.children.all isExpression = true := by
  cases e with
  | call range callee arguments =>
    refine List.all_eq_true.2 fun c hc => ?_
    rcases List.mem_cons.1 hc with rfl | hc
    · rfl
    · obtain ⟨a, -, rfl⟩ := List.mem_map.1 hc
      exact isExpression_argument a
  | _ => rfl

/-- Below an expression there are only expressions. -/
theorem isExpression_child {n c : Node} (hn : n.isExpression = true) (h : c ∈ n.children) :
    c.isExpression = true := by
  cases n with
  | expr e => exact List.all_eq_true.1 (isExpression_children_expr e) c h
  | namedArgument range name value =>
    rcases List.mem_cons.1 h with rfl | h
    · rfl
    · rw [List.mem_singleton.1 h]
      rfl
  | parameter p =>
    rcases List.mem_cons.1 h with rfl | h
    · rfl
    · exact isExpression_ofExpr? h
  | _ => cases hn

/-- All nodes below expressions are expressions. -/
theorem isExpression_of_mem_walkFrom {n : Node} {ns : List Node} (h : ∀ m ∈ ns, m.isExpression = true)
    (hn : n ∈ walkFrom ns) : n.isExpression = true := by
  fun_induction walkFrom ns with
  | case1 => cases hn
  | case2 m stack ih =>
    have hm : m.isExpression = true := h m List.mem_cons_self
    rcases List.mem_cons.1 hn with rfl | hn
    · exact hm
    · refine ih (fun c hc => ?_) hn
      rcases List.mem_append.1 hc with hc | hc
      · exact isExpression_child hm hc
      · exact h c (List.mem_cons_of_mem m hc)

theorem malformed_of_isExpression {ns : List Node} (h : ∀ n ∈ ns, n.isExpression = true) :
    malformed ns = [] := by
  refine List.filterMap_eq_nil_iff.2 fun n hn => ?_
  have hexpr := isExpression_of_mem_walkFrom h hn
  cases n with
  | stmt s => cases hexpr
  | _ => rfl

@[simp] theorem malformed_expr (e : Expr) (ns : List Node) : malformed (.expr e :: ns) = malformed ns := by
  rw [← List.singleton_append, malformed_append, malformed_of_isExpression (by simp [isExpression])]
  rfl

@[simp] theorem malformed_name (n : Name) (ns : List Node) : malformed (n.node :: ns) = malformed ns :=
  malformed_expr (.name n) ns

@[simp] theorem malformed_ofExpr? (e : Option Expr) : malformed (ofExpr? e) = [] :=
  malformed_of_isExpression fun _ => isExpression_ofExpr?

@[simp] theorem malformed_parameters (ps : List Parameter) : malformed (ps.map .parameter) = [] := by
  refine malformed_of_isExpression fun n hn => ?_
  obtain ⟨p, -, rfl⟩ := List.mem_map.1 hn
  rfl

@[simp] theorem malformed_block (b : Block) (ns : List Node) :
    malformed (.block b :: ns) = malformed (b.statements.map Stmt.node) ++ malformed ns := by
  rw [malformed_cons]
  rfl

theorem malformed?_stmt (s : Stmt) : s.node.malformed? = (stmt s).malformed? := by
  cases s <;> rfl

/-- A statement that is not malformed itself has the malformed statements below it. -/
theorem malformed_stmt {s : Stmt} (h : (stmt s).malformed? = none) :
    malformed [s.node] = malformed s.children := by
  rw [malformed_cons, malformed?_stmt, h, s.children_node, malformed_nil, List.append_nil]
  rfl

theorem malformed_conditional (b : Branch) :
    malformed [.stmt (.conditional b)] = malformed ([.block b.body] ++ b.otherwise.nodes) :=
  (malformed_stmt (s := .conditional b) rfl).trans (by simp [Stmt.children])

theorem malformed_malformed (r : Range) (cause : Fault.Cause) :
    malformed [(Stmt.malformed r cause).node] = [(r, cause)] := by
  rw [malformed_cons, Stmt.children_node, Stmt.children, malformed_nil]
  rfl

end Node

/-- The malformed statements of a script, in the order of visits. -/
def Program.malformed (p : Program) : List (Range × Fault.Cause) := p.walk.filterMap Node.malformed?

theorem Program.malformed_eq (p : Program) : p.malformed = Node.malformed (p.body.map Stmt.node) := by
  rw [malformed, walk, Node.walk, node]
  change Node.malformed [.program p] = _
  rw [Node.malformed_cons, Node.malformed_nil, List.append_nil]
  rfl

end PineScript
