import PineScript.Proofs.Tree.Index
import PineScript.Proofs.Tree.Walk

/-!
# Paths and levels

A path leads from a node to one of the nodes below it. It comes to a new level with each block, and
with each expression that stands where a whole expression is read: as the value of a statement, a
header or a parameter, as an argument, as a subscript, or as a branch of a choice. A subtree fits in
a number of levels if no path in it comes to more.
-/

namespace PineScript

/-- An edge from a node to one of its children. -/
structure Edge where
  node : Node
  /-- Whether the child stands where a whole expression is read. -/
  enters : Bool

namespace Node

def isBlock : Node → Bool
  | block _ => true
  | _ => false

end Node

namespace Edge

def plain (n : Node) : Edge := ⟨n, false⟩

def entered (e : Expr) : Edge := ⟨.expr e, true⟩

def ofExpr? (e : Option Expr) : List Edge := (e.map entered).toList

/-- The new levels that an edge leads to. -/
def levels (s : Edge) : Nat := s.node.isBlock.toNat + s.enters.toNat

end Edge

def Argument.edge : Argument → Edge
  | .positional e => .entered e
  | .named r n e => .plain (.namedArgument r n e)

def Stmt.edge : Stmt → Edge
  | .expression e => .entered e
  | s => .plain (.stmt s)

def Expr.edges : Expr → List Edge
  | .name _ | .literal _ _ => []
  | .call _ callee arguments => .plain (.expr callee) :: arguments.map Argument.edge
  | .index _ target subscript => [.plain (.expr target), .entered subscript]
  | .unary _ _ operand => [.plain (.expr operand)]
  | .binary _ _ left right => [.plain (.expr left), .plain (.expr right)]
  | .ternary _ condition whenTrue whenFalse =>
    [.plain (.expr condition), .entered whenTrue, .entered whenFalse]

def Stmt.edges : Stmt → List Edge
  | .comment _ _ | .malformed _ _ => []
  | .expression e => e.edges
  | .declaration _ _ _ name value => [.plain name.node, .entered value]
  | .assignment _ target _ value => [.plain target.node, .entered value]
  | .jump _ _ value => Edge.ofExpr? value
  | .conditional b =>
    .entered b.condition :: .plain (.block b.body) :: b.otherwise.nodes.map .plain
  | .countingLoop _ counter first last step body =>
    .plain counter.node :: .entered first :: .entered last :: Edge.ofExpr? step ++
      [.plain (.block body)]
  | .iteratingLoop _ element collection body =>
    [.plain element.node, .entered collection, .plain (.block body)]
  | .whileLoop _ condition body => [.entered condition, .plain (.block body)]
  | .lineFunction _ name parameters value =>
    .plain name.node :: parameters.map (fun p => .plain (.parameter p)) ++ [.entered value]
  | .blockFunction _ name parameters body =>
    .plain name.node :: parameters.map (fun p => .plain (.parameter p)) ++ [.plain (.block body)]

/-- The edges to the children of a node, in source order. -/
def Node.edges : Node → List Edge
  | program p => p.body.map Stmt.edge
  | block b => b.statements.map Stmt.edge
  | stmt s => s.edges
  | expr e => e.edges
  | namedArgument _ name value => [.plain name.node, .entered value]
  | parameter p => .plain p.name.node :: Edge.ofExpr? p.default

namespace Edge

@[simp] theorem node_plain (n : Node) : (plain n).node = n := rfl

@[simp] theorem node_entered (e : Expr) : (entered e).node = .expr e := rfl

@[simp] theorem node_argument (a : Argument) : a.edge.node = a.node := by
  cases a <;> rfl

@[simp] theorem node_stmt (s : Stmt) : s.edge.node = s.node := by
  cases s <;> rfl

@[simp] theorem map_node_ofExpr? (e : Option Expr) : (ofExpr? e).map node = Node.ofExpr? e := by
  cases e <;> rfl

end Edge

/-- The edges from a node lead to its children. -/
theorem Node.map_node_edges (n : Node) : n.edges.map Edge.node = n.children := by
  cases n with
  | program p => simp [edges, children, Function.comp_def]
  | block b => simp [edges, children, Function.comp_def]
  | stmt s => cases s with
    | expression e => cases e <;> simp [edges, children, Stmt.edges, Stmt.children, Expr.edges,
        Expr.children, Function.comp_def]
    | _ => simp [edges, children, Stmt.edges, Stmt.children, Function.comp_def]
  | expr e => cases e <;> simp [edges, children, Expr.edges, Expr.children, Function.comp_def]
  | namedArgument r n v => rfl
  | parameter p => simp [edges, children]

theorem Node.mem_children_of_edge {n : Node} {s : Edge} (h : s ∈ n.edges) : s.node ∈ n.children :=
  n.map_node_edges ▸ List.mem_map_of_mem h

/-- A path from one node to another that comes to so many new levels. -/
inductive Path : Node → Nat → Node → Prop
  | here {n : Node} : Path n 0 n
  | down {n m : Node} {s : Edge} {levels : Nat} (hedge : s ∈ n.edges)
      (hpath : Path s.node levels m) : Path n (s.levels + levels) m

namespace Path

/-- A path leads to each node that is visited. -/
theorem of_mem_walkFrom {m : Node} {ns : List Node} (h : m ∈ Node.walkFrom ns) :
    ∃ n ∈ ns, ∃ levels, Path n levels m := by
  fun_induction Node.walkFrom ns with
  | case1 => cases h
  | case2 n stack ih =>
    rcases List.mem_cons.1 h with rfl | h
    · exact ⟨m, List.mem_cons_self, 0, .here⟩
    obtain ⟨c, hc, levels, hpath⟩ := ih h
    rcases List.mem_append.1 hc with hchild | hbeside
    · rw [← n.map_node_edges] at hchild
      obtain ⟨s, hs, rfl⟩ := List.mem_map.1 hchild
      exact ⟨n, List.mem_cons_self, _, .down hs hpath⟩
    · exact ⟨c, List.mem_cons_of_mem n hbeside, levels, hpath⟩

theorem mem_walkFrom {n m : Node} {levels : Nat} {ns : List Node} (h : Path n levels m)
    (hn : n ∈ Node.walkFrom ns) : m ∈ Node.walkFrom ns := by
  induction h with
  | here => exact hn
  | down hedge _ ih => exact ih (Node.mem_walkFrom_of_child hn (Node.mem_children_of_edge hedge))

theorem isExpression {n m : Node} {levels : Nat} (h : Path n levels m)
    (hn : n.isExpression = true) : m.isExpression = true := by
  induction h with
  | here => exact hn
  | down hedge _ ih => exact ih (Node.isExpression_child hn (Node.mem_children_of_edge hedge))

/-- No path leads down to a script. -/
theorem eq_program {n m : Node} {levels : Nat} {p : Program} (h : Path n levels m)
    (hm : m = .program p) : n = .program p := by
  induction h with
  | here => exact hm
  | down hedge _ ih =>
    have hchild := Node.mem_children_of_edge hedge
    rw [ih hm] at hchild
    exact absurd hchild (Node.program_not_mem_children p _)

end Path

/-! ## Subtrees that fit -/

namespace Edge

/-- No path that begins with the edge comes to more than `n` levels, and each block it comes to is as
`R` says for the levels that are left there. -/
def Fits (R : Nat → Block → Prop) (n : Nat) (s : Edge) : Prop :=
  ∀ levels m, Path s.node levels m → s.levels + levels ≤ n ∧
    ∀ b, m = .block b → R (n - (s.levels + levels)) b

variable {R : Nat → Block → Prop} {n : Nat} {s : Edge} {e : Expr}

/-- What an edge leads to fits if there is a level for it and all below it fits in the others. -/
theorem fits_iff :
    Fits R n s ↔ s.levels ≤ n ∧
      (∀ b, s.node = .block b → R (n - s.levels) b) ∧
      ∀ c ∈ s.node.edges, Fits R (n - s.levels) c := by
  constructor
  · intro h
    have hself := h 0 s.node .here
    refine ⟨hself.1, hself.2, fun c hc levels m hpath => ?_⟩
    obtain ⟨hle, hblock⟩ := h _ m (.down hc hpath)
    rw [Nat.sub_sub]
    exact ⟨by omega, hblock⟩
  · rintro ⟨hle, hself, hbelow⟩ levels m hpath
    cases hpath with
    | here => exact ⟨hle, hself⟩
    | down hedge hpath =>
      obtain ⟨hmore, hblock⟩ := hbelow _ hedge _ m hpath
      rw [Nat.sub_sub] at hblock
      exact ⟨by omega, hblock⟩

theorem fits_plain {node : Node} (h : node.isBlock = false) :
    Fits R n (plain node) ↔ ∀ c ∈ node.edges, Fits R n c := by
  have hlevels : (plain node).levels = 0 := by simp [levels, plain, h]
  have hblock (b : Block) : node ≠ .block b := by
    rintro rfl
    cases h
  rw [fits_iff, hlevels]
  simp [hblock]

@[simp] theorem fits_expr :
    Fits R n (plain (.expr e)) ↔ ∀ c ∈ e.edges, Fits R n c := fits_plain rfl

@[simp] theorem fits_name (name : Name) : Fits R n (plain name.node) :=
  (fits_plain rfl).2 fun _ hc => absurd hc List.not_mem_nil

@[simp] theorem fits_entered :
    Fits R (n + 1) (entered e) ↔ ∀ c ∈ e.edges, Fits R n c := by
  rw [fits_iff]
  simp [levels, entered, Node.isBlock, Node.edges]

@[simp] theorem fits_block {b : Block} :
    Fits R (n + 1) (plain (.block b)) ↔
      R n b ∧ ∀ t ∈ b.statements, Fits R n t.edge := by
  rw [fits_iff]
  simp [levels, plain, Node.isBlock, Node.edges]

/-- There are no blocks below an expression, so more levels do no harm. -/
theorem Fits.mono {k : Nat} (h : Fits R n s) (hs : s.node.isExpression = true) (hle : n ≤ k) :
    Fits R k s := by
  intro levels m hpath
  refine ⟨Nat.le_trans (h levels m hpath).1 hle, ?_⟩
  rintro b rfl
  exact absurd (hpath.isExpression hs) Bool.false_ne_true

/-- An expression in parentheses is entered once for itself and once for what is around it. -/
theorem Fits.unwrap (h : Fits R n (entered e)) : ∀ c ∈ e.edges, Fits R n c := by
  obtain ⟨hle, -, hbelow⟩ := fits_iff.1 h
  intro c hc
  have hexpr := Node.isExpression_child (n := .expr e) rfl
    (Node.mem_children_of_edge (n := .expr e) hc)
  exact (hbelow c hc).mono hexpr (Nat.sub_le _ _)

end Edge

end PineScript
