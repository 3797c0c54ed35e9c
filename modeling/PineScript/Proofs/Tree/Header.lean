import Mathlib.Data.List.Pairwise
import PineScript.Proofs.Tree.Placed

/-!
# Headers in a tree

The header of a statement ends with an expression or a name, behind which there are only blocks and
the `if` behind an `else`. So in nodes that are placed the headers of all statements follow one
another: where one statement is below another, its header is behind the other's.
-/

namespace PineScript

open Range (Chain)

namespace Stmt

theorem header_start (s : Stmt) : s.header.start = s.range.start := by
  cases s with
  | blockFunction range name parameters body =>
    rw [header]
    split <;> rfl
  | _ => rfl

/-- The header of a statement is all of it, or ends with one of its children; only expressions stand
up to there. -/
theorem header_cases (s : Stmt) :
    (s.header = s.range ∧ ∀ c ∈ s.children, c.isExpression = true) ∨
      ∃ front last behind, s.children = front ++ last :: behind ∧
        s.header.stop = last.range.stop ∧ ∀ c ∈ front ++ [last], c.isExpression = true := by
  have hname (name : Name) : name.node.isExpression = true := rfl
  have hexpr (e : Expr) : (Node.expr e).isExpression = true := rfl
  have hparameter (p : Parameter) : (Node.parameter p).isExpression = true := rfl
  cases s with
  | comment | malformed => exact .inl ⟨rfl, List.forall_mem_nil _⟩
  | expression e => exact .inl ⟨rfl, List.all_eq_true.1 (Node.isExpression_children_expr e)⟩
  | declaration | assignment => exact .inl ⟨rfl, by simp [children, hname, hexpr]⟩
  | jump => exact .inl ⟨rfl, fun _ => Node.isExpression_ofExpr?⟩
  | lineFunction =>
    exact .inl ⟨rfl, by simp [children, hname, hexpr, hparameter, or_imp, forall_and]⟩
  | conditional b => exact .inr ⟨[], _, _, rfl, rfl, by simp [hexpr]⟩
  | whileLoop => exact .inr ⟨[], _, _, rfl, rfl, by simp [hexpr]⟩
  | iteratingLoop range element collection body =>
    exact .inr ⟨[element.node], _, _, rfl, rfl, by simp [hname, hexpr]⟩
  | countingLoop range counter first last step body =>
    cases step with
    | none => exact .inr ⟨[counter.node, .expr first], _, _, rfl, rfl, by simp [hname, hexpr]⟩
    | some step =>
      exact .inr ⟨[counter.node, .expr first, .expr last], _, _, rfl, rfl, by simp [hname, hexpr]⟩
  | blockFunction range name parameters body =>
    rcases List.eq_nil_or_concat parameters with rfl | ⟨front, last, rfl⟩
    · exact .inr ⟨[], name.node, [.block body], rfl, rfl, by simp [hname]⟩
    · refine .inr ⟨name.node :: front.map .parameter, .parameter last, [.block body], ?_, ?_, ?_⟩
      · simp [children]
      · simp [header, Node.range]
      · simp [hname, hparameter, or_imp, forall_and]

/-- The header of a statement is a part of it and ends before what is no expression. -/
structure HeadFirst (s : Stmt) : Prop where
  proper : s.header.start ≤ s.header.stop
  within : s.header.stop ≤ s.range.stop
  ahead : ∀ c ∈ s.children, c.isExpression = false → s.header.stop ≤ c.range.start

theorem headFirst_of_chain {s : Stmt}
    (h : Chain s.range.start s.range.stop (s.children.map Node.range)) : s.HeadFirst := by
  rcases s.header_cases with ⟨hheader, hexpr⟩ | ⟨front, last, behind, hchildren, hstop, hexpr⟩
  · refine ⟨hheader ▸ h.le, hheader ▸ Position.le_refl _, fun c hc hno => ?_⟩
    rw [hexpr c hc] at hno
    cases hno
  · rw [hchildren, List.map_append, Range.chain_append] at h
    obtain ⟨mid, hfront, hstart, hproper, hbehind⟩ := h
    refine ⟨?_, hstop ▸ hbehind.le, fun c hc hno => ?_⟩
    · rw [header_start, hstop]
      exact Position.le_trans hfront.le (Position.le_trans hstart hproper)
    · rw [hchildren, List.append_cons] at hc
      rcases List.mem_append.1 hc with hc | hc
      · rw [hexpr c hc] at hno
        cases hno
      · rw [hstop]
        exact (hbehind.of_mem (List.mem_map_of_mem hc)).1

/-- One of the headers ends before the other starts. -/
def Follow (s t : Stmt) : Prop :=
  s.header.stop ≤ t.header.start ∨ t.header.stop ≤ s.header.start

theorem Follow.symm {s t : Stmt} (h : s.Follow t) : t.Follow s := Or.symm h

/-- Statements beside each other. -/
theorem HeadFirst.follow {s t : Stmt} (hs : s.HeadFirst) (h : s.range.stop ≤ t.range.start) :
    s.Follow t :=
  .inl (t.header_start ▸ Position.le_trans hs.within h)

end Stmt

namespace Node

variable {n : Node} {ns : List Node} {lo hi : Position} {s t : Stmt}

theorem size_le_sizes (h : n ∈ ns) : n.size ≤ sizes ns := by
  obtain ⟨front, behind, rfl⟩ := List.append_of_mem h
  rw [sizes_append, sizes_cons]
  omega

theorem size_lt_of_child {c : Node} (h : c ∈ n.children) : c.size < n.size :=
  Nat.lt_of_le_of_lt (size_le_sizes h) n.sizes_children_lt

/-- The statements of a body stand for the nodes below it. -/
theorem sublist_ownStatements (n : Node) : (n.ownStatements.map Stmt.node).Sublist n.children := by
  cases n with
  | program | block => exact List.Sublist.refl _
  | expr | namedArgument | parameter => exact List.nil_sublist _
  | stmt s =>
    cases s with
    | conditional b =>
      rw [ownStatements]
      split
      · rename_i next hnext
        rw [children, Stmt.children, hnext]
        exact .cons _ (.cons _ (List.Sublist.refl _))
      · exact List.nil_sublist _
    | _ => exact List.nil_sublist _

theorem node_mem_children (h : s ∈ n.ownStatements) : s.node ∈ n.children :=
  n.sublist_ownStatements.subset (List.mem_map_of_mem h)

theorem ownStatements_of_isExpression (h : n.isExpression = true) : n.ownStatements = [] := by
  cases n with
  | expr | namedArgument | parameter => rfl
  | _ => cases h

/-- The statements that hang on some nodes and on all below them. -/
def statementsBelow (ns : List Node) : List Stmt := (walkFrom ns).flatMap ownStatements

theorem statementsBelow_append (ms ns : List Node) :
    statementsBelow (ms ++ ns) = statementsBelow ms ++ statementsBelow ns := by
  simp [statementsBelow, walkFrom_append]

theorem statementsBelow_cons (n : Node) (ns : List Node) :
    statementsBelow (n :: ns) = n.ownStatements ++ statementsBelow (n.children ++ ns) := by
  rw [statementsBelow, walkFrom, List.flatMap_cons]
  rfl

/-- Each of the statements is below one of the nodes. -/
theorem exists_of_mem_statementsBelow (h : t ∈ statementsBelow ns) :
    ∃ c ∈ ns, t ∈ statementsBelow [c] := by
  induction ns with
  | nil => simp [statementsBelow] at h
  | cons c ns ih =>
    rw [← List.singleton_append, statementsBelow_append, List.mem_append] at h
    rcases h with h | h
    · exact ⟨c, List.mem_cons_self, h⟩
    · obtain ⟨d, hd, ht⟩ := ih h
      exact ⟨d, List.mem_cons_of_mem c hd, ht⟩

theorem node_mem_walkFrom (h : t ∈ statementsBelow ns) : t.node ∈ walkFrom ns := by
  obtain ⟨n, hn, ht⟩ := List.mem_flatMap.1 h
  exact mem_walkFrom_of_child hn (node_mem_children ht)

/-- There is no statement below an expression. -/
theorem isExpression_of_mem_statementsBelow (h : t ∈ statementsBelow [n]) :
    n.isExpression = false := by
  rw [← Bool.not_eq_true]
  intro hexpr
  obtain ⟨m, hm, ht⟩ := List.mem_flatMap.1 h
  have hm := isExpression_of_mem_walkFrom (List.forall_mem_singleton.2 hexpr) hm
  rw [ownStatements_of_isExpression hm] at ht
  cases ht

theorem isExpression_of_mem_ownStatements (h : t ∈ s.node.ownStatements) :
    t.node.isExpression = false := by
  cases s with
  | conditional b =>
    change t ∈ ownStatements (.stmt (.conditional b)) at h
    rw [ownStatements] at h
    split at h
    · rw [List.mem_singleton.1 h]
      rfl
    · cases h
  | _ => cases h

namespace Placed

theorem headFirst (h : Placed lo hi ns) (hs : s.node ∈ walkFrom ns) : s.HeadFirst := by
  have hchain := h.2 s.node hs
  rw [Stmt.range_node, Stmt.children_node] at hchain
  exact Stmt.headFirst_of_chain hchain

/-- What is below some nodes is in their place. -/
theorem bounds (h : Placed lo hi ns) (ht : t ∈ statementsBelow ns) :
    lo ≤ t.range.start ∧ t.range.stop ≤ hi := by
  have hmem := node_mem_walkFrom ht
  rw [← Stmt.range_node]
  exact ⟨h.walk_start.1 _ hmem, h.walk_stop _ hmem⟩

theorem of_mem (h : Placed lo hi ns) (hn : n ∈ ns) :
    Placed n.range.start n.range.stop [n] := by
  obtain ⟨front, behind, rfl⟩ := List.append_of_mem hn
  obtain ⟨mid, -, hbehind⟩ := placed_append.1 h
  obtain ⟨-, hchildren, -⟩ := placed_cons.1 hbehind
  exact placed_cons.2 ⟨Position.le_refl _, hchildren, placed_nil.2 (Position.le_refl _)⟩

/-- The header of a statement ends before all statements below it. -/
theorem header_le (h : Placed lo hi [s.node]) (ht : t ∈ statementsBelow [s.node]) :
    s.header.stop ≤ t.header.start := by
  have hs := h.headFirst (mem_walkFrom_of_mem List.mem_cons_self)
  obtain ⟨-, hchildren, -⟩ := placed_cons.1 h
  rw [Stmt.children_node] at hchildren
  rw [statementsBelow_cons, List.append_nil, Stmt.children_node] at ht
  rw [t.header_start]
  rcases List.mem_append.1 ht with hown | hbelow
  · have hchild := node_mem_children hown
    rw [Stmt.children_node] at hchild
    rw [← t.range_node]
    exact hs.ahead _ hchild (isExpression_of_mem_ownStatements hown)
  · obtain ⟨c, hc, ht⟩ := exists_of_mem_statementsBelow hbelow
    have hstart := hs.ahead c hc (isExpression_of_mem_statementsBelow ht)
    exact Position.le_trans hstart ((hchildren.of_mem hc).bounds ht).1

/-- The headers of a body follow one another. -/
theorem follow_own (h : Placed lo hi n.children) : n.ownStatements.Pairwise Stmt.Follow := by
  have hsub := (List.pairwise_map.1 h.1.pairwise).sublist n.sublist_ownStatements
  refine (List.pairwise_map.1 hsub).imp_of_mem fun hs _ hst => ?_
  rw [Stmt.range_node, Stmt.range_node] at hst
  exact (h.headFirst (mem_walkFrom_of_mem (node_mem_children hs))).follow hst

/-- The headers of a body and of what is below its statements follow one another. -/
theorem follow_below (h : Placed lo hi n.children) (hs : s ∈ n.ownStatements)
    (ht : t ∈ statementsBelow n.children) : s.Follow t := by
  have hchild := node_mem_children hs
  obtain ⟨c, hc, ht⟩ := exists_of_mem_statementsBelow ht
  have hfirst := h.headFirst (mem_walkFrom_of_mem hchild)
  have hbounds := (h.of_mem hc).bounds ht
  have hapart : n.children.Pairwise fun a b =>
      a.range.stop ≤ b.range.start ∨ b.range.stop ≤ a.range.start :=
    (List.pairwise_map.1 h.1.pairwise).imp .inl
  have : Std.Symm fun a b : Node => a.range.stop ≤ b.range.start ∨ b.range.stop ≤ a.range.start :=
    ⟨fun _ _ => Or.symm⟩
  by_cases hsame : s.node = c
  · subst hsame
    exact .inl ((h.of_mem hchild).header_le ht)
  rcases hapart.forall hchild hc hsame with hbefore | hbehind
  · rw [Stmt.range_node] at hbefore
    exact hfirst.follow (Position.le_trans hbefore hbounds.1)
  · have hbelow : t.node ∈ walkFrom n.children := by
      obtain ⟨front, behind, heq⟩ := List.append_of_mem hc
      rw [heq, walkFrom_append, ← List.singleton_append, walkFrom_append]
      exact List.mem_append_right _ (List.mem_append_left _ (node_mem_walkFrom ht))
    rw [Stmt.range_node] at hbehind
    exact ((h.headFirst hbelow).follow (Position.le_trans hbounds.2 hbehind)).symm

/-- The headers of all statements below some nodes follow one another. -/
theorem pairwise_follow (h : Placed lo hi ns) : (statementsBelow ns).Pairwise Stmt.Follow := by
  unfold statementsBelow
  fun_induction walkFrom ns generalizing lo with
  | case1 => exact .nil
  | case2 n stack ih =>
    obtain ⟨-, hbelow, hbeside⟩ := placed_cons.1 h
    rw [List.flatMap_cons]
    refine List.pairwise_append.2 ⟨hbelow.follow_own, ih (hbelow.append hbeside), ?_⟩
    intro s hs t ht
    change t ∈ statementsBelow _ at ht
    rw [statementsBelow_append] at ht
    rcases List.mem_append.1 ht with ht | ht
    · exact hbelow.follow_below hs ht
    · have hmem := mem_walkFrom_of_mem (node_mem_children hs)
      refine (hbelow.headFirst hmem).follow (Position.le_trans ?_ (hbeside.bounds ht).1)
      rw [← s.range_node]
      exact hbelow.walk_stop _ hmem

end Placed

end Node

end PineScript
