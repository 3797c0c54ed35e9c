import Mathlib.Data.List.Basic
import PineScript.Proofs.Grammar.Statement
import PineScript.Proofs.Tree.Walk

/-!
# Lines and statements

Every statement that is no comment begins on one line of the script, and every line but that of a
plain `else` begins a statement. The lines of a body stand together.
-/

namespace PineScript

namespace Node

/-- The lines below a node; those of a body are all below it. -/
def heads : Node → List Head
  | program p => p.heads
  | block b => b.heads
  | stmt s => s.headsBelow
  | _ => []

theorem heads_node (s : Stmt) : s.node.heads = s.headsBelow := by
  cases s <;> rfl

theorem heads_of_isExpression {n : Node} (h : n.isExpression = true) : n.heads = [] := by
  cases n with
  | expr | namedArgument | parameter => rfl
  | _ => cases h

theorem heads_block (b : Block) : (block b).heads = Stmt.headsOf b.statements := by
  cases b
  rfl

/-! ## Children -/

theorem flatMap_heads_of_isExpression {ns : List Node} (h : ∀ n ∈ ns, n.isExpression = true) :
    ns.flatMap heads = [] :=
  List.flatMap_eq_nil_iff.2 fun n hn => heads_of_isExpression (h n hn)

theorem flatMap_heads_parameters (ps : List Parameter) : (ps.map parameter).flatMap heads = [] := by
  refine flatMap_heads_of_isExpression fun n hn => ?_
  obtain ⟨p, -, rfl⟩ := List.mem_map.1 hn
  rfl

theorem flatMap_heads_body (ss : List Stmt) :
    (ss.map Stmt.node).flatMap heads = ss.flatMap Stmt.headsBelow := by
  rw [List.flatMap_map]
  exact List.flatMap_congr fun s _ => heads_node s

/-- The lines below a statement are those of its block; only an `else` has a line of its own. -/
theorem flatMap_heads_children {s : Stmt} (h : ∀ b, s ≠ .conditional b) :
    s.children.flatMap heads = s.headsBelow := by
  have hname : ∀ x : Name, x.node.heads = [] := fun _ => rfl
  have hexpr : ∀ e : Expr, (expr e).heads = [] := fun _ => rfl
  have hblock : ∀ b : Block, (block b).heads = b.heads := fun _ => rfl
  have hoption : ∀ e : Option Expr, (ofExpr? e).flatMap heads = [] := fun _ =>
    flatMap_heads_of_isExpression fun _ => isExpression_ofExpr?
  cases s with
  | conditional b => exact absurd rfl (h b)
  | expression e =>
    exact flatMap_heads_of_isExpression (List.all_eq_true.1 (isExpression_children_expr e))
  | _ => simp [Stmt.children, Stmt.headsBelow, hname, hexpr, hblock, hoption, flatMap_heads_parameters]

/-! ## Lines that stand together -/

theorem infix_headsOf {s : Stmt} {ss : List Stmt} (h : s ∈ ss) :
    s.headsBelow <:+: Stmt.headsOf ss := by
  obtain ⟨front, behind, rfl⟩ := List.append_of_mem h
  rw [Stmt.headsOf_append, Stmt.headsOf]
  cases hs : s.isComment with
  | true =>
    cases s with
    | comment => exact List.nil_infix
    | _ => cases hs
  | false => exact ⟨Stmt.headsOf front ++ [.statement s], Stmt.headsOf behind, by simp⟩

theorem infix_of_mem_flatMap {ns : List Node} {c : Node} (h : c ∈ ns) :
    c.heads <:+: ns.flatMap heads := by
  obtain ⟨front, behind, rfl⟩ := List.append_of_mem h
  exact ⟨front.flatMap heads, behind.flatMap heads, by simp⟩

theorem infix_heads_child {n c : Node} (h : c ∈ n.children) : c.heads <:+: n.heads := by
  have hbody : ∀ {ss : List Stmt}, c ∈ ss.map Stmt.node → c.heads <:+: Stmt.headsOf ss := by
    intro ss hc
    obtain ⟨s, hs, rfl⟩ := List.mem_map.1 hc
    rw [heads_node]
    exact infix_headsOf hs
  cases n with
  | program p => exact hbody h
  | block b =>
    rw [heads_block]
    exact hbody h
  | expr | namedArgument | parameter =>
    rw [heads_of_isExpression (isExpression_child rfl h)]
    exact List.nil_infix
  | stmt s =>
    change c.heads <:+: s.headsBelow
    cases s with
    | conditional b =>
      obtain ⟨r, condition, body, otherwise⟩ := b
      rcases List.mem_cons.1 h with rfl | h
      · exact List.nil_infix
      · rcases List.mem_cons.1 h with rfl | h
        · exact (List.prefix_append _ _).isInfix
        · refine List.IsInfix.trans ?_ (List.suffix_append body.heads otherwise.heads).isInfix
          cases otherwise with
          | nothing => cases h
          | block b =>
            rw [List.mem_singleton.1 h]
            exact (List.suffix_cons _ _).isInfix
          | elseIf b =>
            rw [List.mem_singleton.1 h]
            exact (List.suffix_cons _ _).isInfix
    | _ =>
      rw [← flatMap_heads_children (by simp)]
      exact infix_of_mem_flatMap h

/-- The lines below any node of a tree stand together. -/
theorem infix_heads_of_mem_walkFrom {n : Node} {ns : List Node} (h : n ∈ walkFrom ns) {all : List Head}
    (hns : ∀ m ∈ ns, m.heads <:+: all) : n.heads <:+: all := by
  fun_induction walkFrom ns with
  | case1 => cases h
  | case2 m stack ih =>
    rcases List.mem_cons.1 h with rfl | h
    · exact hns n List.mem_cons_self
    · refine ih h fun c hc => ?_
      rcases List.mem_append.1 hc with hc | hc
      · exact (infix_heads_child hc).trans (hns m List.mem_cons_self)
      · exact hns c (List.mem_cons_of_mem m hc)

/-! ## The statements of lines -/

/-- The statements that begin on the lines of a body, in another order. -/
theorem perm_headsOf (ss : List Stmt) :
    ((Stmt.headsOf ss).filterMap Head.stmt?).Perm
      (ss.filter (!·.isComment) ++ (ss.flatMap Stmt.headsBelow).filterMap Head.stmt?) := by
  induction ss with
  | nil => rfl
  | cons s ss ih =>
    rw [Stmt.headsOf, List.flatMap_cons, List.filterMap_append, List.filterMap_append]
    cases hs : s.isComment with
    | true =>
      cases s with
      | comment =>
        rw [List.filter_cons_of_neg (by simp [Stmt.isComment])]
        exact ih
      | _ => cases hs
    | false =>
      rw [List.filter_cons_of_pos (by simp [hs])]
      simp only [Bool.false_eq_true, ↓reduceIte, List.filterMap_cons, Head.stmt?, List.cons_append]
      refine .cons s ?_
      -- What is below the statement comes before the statements behind it, or the other way round.
      exact ((List.Perm.append_left _ ih).trans (List.perm_append_comm_assoc _ _ _))

theorem perm_heads (n : Node) :
    (n.heads.filterMap Head.stmt?).Perm (n.ownStatements.filter (!·.isComment) ++
      (n.children.flatMap heads).filterMap Head.stmt?) := by
  cases n with
  | program p =>
    change ((Stmt.headsOf p.body).filterMap Head.stmt?).Perm
      (_ ++ List.filterMap _ (List.flatMap _ (p.body.map _)))
    rw [flatMap_heads_body]
    exact perm_headsOf p.body
  | block b =>
    rw [heads_block]
    change (List.filterMap _ _).Perm (_ ++ List.filterMap _ (List.flatMap _ (b.statements.map _)))
    rw [flatMap_heads_body]
    exact perm_headsOf b.statements
  | expr | namedArgument | parameter =>
    rw [flatMap_heads_of_isExpression fun c hc => isExpression_child rfl hc]
    rfl
  | stmt s =>
    by_cases hs : ∃ b, s = .conditional b
    · obtain ⟨⟨r, condition, body, otherwise⟩, rfl⟩ := hs
      cases otherwise <;>
        simp [heads, Stmt.headsBelow, Branch.headsBelow, Otherwise.heads, children, Stmt.children,
          Otherwise.nodes, ownStatements, Branch.otherwise, Branch.body, Head.stmt?, Stmt.isComment,
          List.filterMap_cons]
    · have hown : (stmt s).ownStatements = [] := by
        cases s with
        | conditional b => exact absurd ⟨b, rfl⟩ hs
        | _ => rfl
      change (s.headsBelow.filterMap _).Perm (_ ++ (s.children.flatMap heads).filterMap _)
      rw [flatMap_heads_children fun b hb => hs ⟨b, hb⟩, hown]
      rfl

theorem perm_walkFrom (ns : List Node) :
    ((ns.flatMap heads).filterMap Head.stmt?).Perm
      (((walkFrom ns).flatMap ownStatements).filter (!·.isComment)) := by
  fun_induction walkFrom ns with
  | case1 => rfl
  | case2 n stack ih =>
    rw [List.flatMap_append, List.filterMap_append] at ih
    rw [List.flatMap_cons, List.filterMap_append, List.flatMap_cons, List.filter_append]
    refine ((perm_heads n).append_right _).trans ?_
    rw [List.append_assoc]
    exact ih.append_left _

end Node

namespace Program

/-- The statements that begin on the lines of a script are all its statements but the comments. -/
theorem perm_heads (p : Program) :
    (p.heads.filterMap Head.stmt?).Perm (p.statements.filter (!·.isComment)) := by
  have h := Node.perm_walkFrom [p.node]
  rwa [List.flatMap_singleton] at h

/-- The lines of a body stand together. -/
theorem infix_heads {p : Program} {n : Node} (h : n ∈ p.walk) : n.heads <:+: p.heads :=
  Node.infix_heads_of_mem_walkFrom h fun m hm => by
    rw [List.mem_singleton.1 hm]
    exact List.infix_refl _

theorem mem_heads_of_isSimple {p : Program} {s : Stmt} (h : s ∈ p.statements) (hs : s.isSimple = true) :
    .statement s ∈ p.heads := by
  have hcomment : s.isComment = false := by
    cases s <;> first | rfl | cases hs
  have hmem : s ∈ p.heads.filterMap Head.stmt? :=
    p.perm_heads.mem_iff.2 (List.mem_filter.2 ⟨h, by simp [hcomment]⟩)
  obtain ⟨head, hhead, hstmt⟩ := List.mem_filterMap.1 hmem
  cases head with
  | statement s' =>
    cases hstmt
    exact hhead
  | elseIf b =>
    cases hstmt
    cases hs
  | «else» => cases hstmt

end Program

end PineScript
