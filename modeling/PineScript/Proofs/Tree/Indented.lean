import PineScript.Proofs.Lexer.Rows
import PineScript.Proofs.Tree.Walk

/-!
# Trees that follow the indentation

The indentation of a line is that of its first token. Below a header the statements open lines of one
indentation, deeper than that of the line that the header begins on, and each `else` opens a line with
the indentation of its `if`. `Node.Aligned` says so of one node of a tree.
-/

namespace PineScript

variable {tokens : List Token} {outer : Int}

/-- The indentation of the line that a position is on. -/
def lineIndent? (tokens : List Token) (p : Position) : Option Int :=
  (tokens.find? (·.range.start.line == p.line)).bind Token.indent

theorem lineIndent?_eq {t : Token} {p : Position} (hrows : Token.Rows tokens) (ht : t ∈ tokens)
    (hindent : t.indent = some outer) (hline : p.line = t.range.start.line) :
    lineIndent? tokens p = some outer := by
  have hlead : t.isLineLeading = true := by simp [Token.isLineLeading, hindent]
  obtain ⟨more, hmore⟩ := hrows.filter_line_of_leading ht hlead
  rw [lineIndent?, hline, ← List.head?_filter, hmore]
  exact hindent

/-- A token that opens a line with this indentation begins at the position. -/
def Leads (tokens : List Token) (indent : Int) (p : Position) : Prop :=
  ∃ t ∈ tokens, t.range.start = p ∧ t.indent = some indent

/-- Declarations, assignments, jumps, conditionals, loops and functions. -/
def Stmt.isAnchored : Stmt → Bool
  | comment _ _ | malformed _ _ | expression _ => false
  | _ => true

/-- The statements open lines of one indentation, deeper than the one given. -/
def Block.Indented (tokens : List Token) (outer : Int) (b : Block) : Prop :=
  ∃ indent, outer < indent ∧
    ∀ s ∈ b.statements, s.isAnchored = true → Leads tokens indent s.range.start

/-! ## Chains of conditionals -/

mutual

/-- An `if` and those that hang on it. -/
def Branch.chain : Branch → List Branch
  | .mk range condition body otherwise => .mk range condition body otherwise :: otherwise.chain

def Otherwise.chain : Otherwise → List Branch
  | .elseIf b => b.chain
  | _ => []

end

/-- Only layout and parentheses that open stand in front of the token that begins at the position. -/
def OpensAt (ts : List Token) (p : Position) : Prop :=
  ∃ front t behind, ts = front ++ t :: behind ∧ t.range.start = p ∧
    ∀ u ∈ front, u.isLayout = true ∨ u.isPunctuation "(" = true

/-- An `else` of this indentation stands between the end of a block and what hangs on its `if`. -/
def Joins (tokens : List Token) (outer : Int) (stop start : Position) : Prop :=
  ∃ front e behind, tokens = front ++ e :: behind ∧ e.isKeyword "else" = true ∧
    e.indent = some outer ∧ stop ≤ e.range.start ∧ OpensAt behind start

/-- What hangs on the `if` does so by an `else` of this indentation. -/
def Branch.Hangs (tokens : List Token) (outer : Int) (b : Branch) : Prop :=
  ∀ n ∈ b.otherwise.nodes, Joins tokens outer b.body.range.stop n.range.start

namespace Node

/-! ## Nodes -/

/-- The blocks of the node are indented deeper than the line that it begins on, and every `else` in the
chain that an `if` begins has the indentation of that line, so that the block of an `else` is deeper
than the `else` as well. -/
structure Aligned (tokens : List Token) (n : Node) : Prop where
  blocks : ∀ b, .block b ∈ n.children →
    ∃ outer, lineIndent? tokens n.range.start = some outer ∧ b.Indented tokens outer
  chains : ∀ b, n = .stmt (.conditional b) →
    ∃ outer, lineIndent? tokens n.range.start = some outer ∧ ∀ link ∈ b.chain, link.Hangs tokens outer

/-- All nodes of the subtrees follow the indentation. -/
def AlignedBelow (tokens : List Token) (ns : List Node) : Prop := ∀ n ∈ walkFrom ns, n.Aligned tokens

theorem Aligned.of_no_block {n : Node} (hblocks : ∀ b, .block b ∉ n.children)
    (hchains : ∀ b, n ≠ .stmt (.conditional b)) : n.Aligned tokens :=
  ⟨fun b hb => absurd hb (hblocks b), fun b hb => absurd hb (hchains b)⟩

theorem node_ne_conditional {s : Stmt} (hs : ∀ b, s ≠ .conditional b) (b : Branch) :
    s.node ≠ .stmt (.conditional b) := by
  intro h
  cases s with
  | conditional b => exact hs b rfl
  | _ => cases h

namespace AlignedBelow

variable {n : Node} {ms ns : List Node}

theorem nil : AlignedBelow tokens [] := by
  simp [AlignedBelow]

theorem append (hms : AlignedBelow tokens ms) (hns : AlignedBelow tokens ns) :
    AlignedBelow tokens (ms ++ ns) := by
  rw [AlignedBelow, walkFrom_append]
  exact List.forall_mem_append.2 ⟨hms, hns⟩

theorem node (hn : n.Aligned tokens) (h : AlignedBelow tokens n.children) : AlignedBelow tokens [n] := by
  rw [AlignedBelow, walkFrom_cons, walkFrom_nil, List.append_nil]
  exact List.forall_mem_cons.2 ⟨hn, h⟩

/-- A script or a block is aligned if its statements are. -/
theorem body {ss : List Stmt} (hchildren : n.children = ss.map Stmt.node)
    (hn : ∀ b, n ≠ .stmt (.conditional b)) (h : AlignedBelow tokens (ss.map Stmt.node)) :
    AlignedBelow tokens [n] := by
  refine node (.of_no_block (fun b hb => ?_) hn) (hchildren ▸ h)
  rw [hchildren] at hb
  obtain ⟨s, -, hs⟩ := List.mem_map.1 hb
  cases s <;> cases hs

/-- There are no blocks in expressions. -/
theorem of_isExpression (h : ∀ n ∈ ns, n.isExpression = true) : AlignedBelow tokens ns := by
  intro n hn
  have hexpr := isExpression_of_mem_walkFrom h hn
  refine .of_no_block (fun b hb => ?_) fun b hb => ?_
  · cases isExpression_child hexpr hb
  · rw [hb] at hexpr
    cases hexpr

theorem stmts {ss : List Stmt} (h : ∀ s ∈ ss, AlignedBelow tokens [s.node]) :
    AlignedBelow tokens (ss.map Stmt.node) := by
  induction ss with
  | nil => exact nil
  | cons s ss ih =>
    rw [List.forall_mem_cons] at h
    exact h.1.append (ih h.2)

/-- A statement without a block has only expressions below it. -/
theorem plain {s : Stmt} (hs : ∀ b, s ≠ .conditional b)
    (h : ∀ n ∈ s.children, n.isExpression = true) : AlignedBelow tokens [s.node] := by
  rw [← s.children_node] at h
  refine node (.of_no_block (fun b hb => ?_) (node_ne_conditional hs)) (of_isExpression h)
  cases h _ hb

/-- A statement whose block is indented deeper than its line. -/
theorem statement {s : Stmt} {parts : List Node} {body : Block}
    (hline : lineIndent? tokens s.range.start = some outer) (hs : ∀ b, s ≠ .conditional b)
    (hchildren : s.children = parts ++ [.block body]) (hparts : ∀ n ∈ parts, n.isExpression = true)
    (hbody : body.Indented tokens outer) (hbelow : AlignedBelow tokens [.block body]) :
    AlignedBelow tokens [s.node] := by
  rw [← s.children_node] at hchildren
  rw [← s.range_node] at hline
  refine node ⟨fun b hb => ⟨outer, hline, ?_⟩, fun b hb => absurd hb (node_ne_conditional hs b)⟩ ?_
  · rw [hchildren] at hb
    rcases List.mem_append.1 hb with hb | hb
    · cases hparts _ hb
    · obtain rfl : b = body := by simpa using hb
      exact hbody
  · rw [hchildren]
    exact (of_isExpression hparts).append hbelow

end AlignedBelow

/-- What hangs on an `if` of this indentation whose block ends at `stop`. -/
structure Hung (tokens : List Token) (outer : Int) (stop : Position) (o : Otherwise) : Prop where
  joined : ∀ n ∈ o.nodes, Joins tokens outer stop n.range.start
  indented : ∀ b, .block b ∈ o.nodes → b.Indented tokens outer
  chain : ∀ link ∈ o.chain, link.Hangs tokens outer
  below : AlignedBelow tokens o.nodes

theorem Hung.nothing (stop : Position) : Hung tokens outer stop .nothing where
  joined := by simp [Otherwise.nodes]
  indented := by simp [Otherwise.nodes]
  chain := by simp [Otherwise.chain]
  below := .nil

theorem Hung.block {stop : Position} {b : Block} (hjoins : Joins tokens outer stop b.range.start)
    (hindented : b.Indented tokens outer) (hbelow : AlignedBelow tokens [.block b]) :
    Hung tokens outer stop (.block b) where
  joined n hn := by
    rw [List.mem_singleton.1 hn]
    exact hjoins
  indented c hc := by
    obtain rfl : c = b := by simpa [Otherwise.nodes] using hc
    exact hindented
  chain := by simp [Otherwise.chain]
  below := hbelow

theorem Hung.elseIf {stop : Position} {b : Branch} (hjoins : Joins tokens outer stop b.range.start)
    (hchain : ∀ link ∈ b.chain, link.Hangs tokens outer)
    (hbelow : AlignedBelow tokens [.stmt (.conditional b)]) : Hung tokens outer stop (.elseIf b) where
  joined n hn := by
    rw [List.mem_singleton.1 hn]
    exact hjoins
  indented := by simp [Otherwise.nodes]
  chain := hchain
  below := hbelow

/-- The chain that an `if` begins goes on with what hangs on it. -/
theorem Hung.hangs {b : Branch} (h : Hung tokens outer b.body.range.stop b.otherwise) :
    ∀ link ∈ b.chain, link.Hangs tokens outer := by
  obtain ⟨range, condition, body, otherwise⟩ := b
  rw [Branch.chain]
  exact List.forall_mem_cons.2 ⟨h.joined, h.chain⟩

theorem Hung.aligned {b : Branch} (h : Hung tokens outer b.body.range.stop b.otherwise)
    (hline : lineIndent? tokens b.range.start = some outer) (hbody : b.body.Indented tokens outer)
    (hbelow : AlignedBelow tokens [.block b.body]) :
    AlignedBelow tokens [.stmt (.conditional b)] := by
  refine .node ⟨fun c hc => ⟨outer, hline, ?_⟩, fun c hc => ⟨outer, hline, ?_⟩⟩ ?_
  · rcases List.mem_cons.1 hc with hc | hc
    · cases hc
    · rcases List.mem_cons.1 hc with hc | hc
      · obtain rfl : c = b.body := by simpa using hc
        exact hbody
      · exact h.indented c hc
  · obtain rfl : b = c := by simpa using hc
    exact h.hangs
  · have hcondition : AlignedBelow tokens [.expr b.condition] := .of_isExpression (by simp [isExpression])
    exact hcondition.append (hbelow.append h.below)

end Node

end PineScript
