import PineScript.Proofs.Tree.Walk
import PineScript.Tree.Index

/-!
# Numbers of nodes

The index of a script is followed along the visits: at each number the nodes still to be visited
stand on a stack, and the rest of the index is what visiting them gives. The same node may occur
twice in a tree. An occurrence is told by its address, the positions among their siblings of the
node and of the nodes above it. Main statements: the nodes of a subtree have successive numbers
(`Pending.skip`), each occurrence is visited under its number and nothing else is
(`getElem?_walk`), and a node hangs on an earlier one, of which it is a child
(`Program.parent_of_index`).
-/

namespace PineScript

namespace Node

variable {index : Array Entry} {i j k depth p : Nat} {a b : List Nat} {parent : Option Nat}
  {e : Entry} {n m c : Node} {ms ns : List Node} {es stack : List Entry}

/-- From a number on, the index holds the visits of a stack. -/
def Pending (index : Array Entry) (k : Nat) (stack : List Entry) : Prop :=
  index.toList.drop k = outlineFrom k stack

/-- Nodes that hang on the node with some number, as they are put on the stack. -/
def hung (ns : List Node) (depth number : Nat) : List Entry := ns.map (⟨·, depth, some number⟩)

@[simp] theorem map_node_hung : (hung ns depth p).map (·.node) = ns := by
  simp [hung, Function.comp_def]

theorem hung_append : hung (ms ++ ns) depth p = hung ms depth p ++ hung ns depth p :=
  List.map_append

theorem mem_hung : e ∈ hung ns depth p ↔ ∃ n ∈ ns, e = ⟨n, depth, some p⟩ := by
  simp only [hung, List.mem_map, eq_comm]

theorem Pending.getElem? (h : Pending index k (e :: stack)) : index[k]? = some e := by
  have hhead : (index.toList.drop k)[0]? = some e := by
    rw [h, outlineFrom]
    rfl
  rwa [List.getElem?_drop, Nat.add_zero, Array.getElem?_toList] at hhead

theorem Pending.nodeAt? (h : Pending index k (e :: stack)) : nodeAt? index k = some e.node := by
  rw [Node.nodeAt?, h.getElem?]
  rfl

theorem Pending.next (h : Pending index k (⟨n, depth, parent⟩ :: stack)) :
    Pending index (k + 1) (hung n.children (depth + 1) k ++ stack) := by
  unfold Pending at h ⊢
  rw [← List.drop_drop, h, outlineFrom]
  rfl

/-- The subtrees on top of a stack have successive numbers. What holds at each number of nodes that
are closed under children holds there. -/
theorem Pending.walk {P : Nat → Prop} {Q : Node → Prop} (hchild : ∀ n, Q n → ∀ c ∈ n.children, Q c)
    (hvisit : ∀ j e stack, Pending index j (e :: stack) → Q e.node → P j)
    (h : Pending index k (es ++ stack)) (hes : ∀ e ∈ es, Q e.node) :
    Pending index (k + sizes (es.map (·.node))) stack ∧
      ∀ j, k ≤ j → j < k + sizes (es.map (·.node)) → P j := by
  induction hsize : sizes (es.map (·.node)) using Nat.strongRecOn generalizing k es with
  | ind size ih =>
    cases es with
    | nil =>
      subst hsize
      exact ⟨h, fun j hle hlt => absurd (Nat.lt_of_le_of_lt hle hlt) (Nat.lt_irrefl _)⟩
    | cons e es =>
      rw [List.map_cons, sizes_cons, size_eq] at hsize
      rw [List.cons_append] at h
      have hself := hvisit k e (es ++ stack) h (hes e List.mem_cons_self)
      have hnext := h.next
      rw [← List.append_assoc] at hnext
      have hsizes : sizes ((hung e.node.children (e.depth + 1) k ++ es).map (·.node)) =
          sizes e.node.children + sizes (es.map (·.node)) := by
        rw [List.map_append, sizes_append, map_node_hung]
      have hbelow : ∀ e' ∈ hung e.node.children (e.depth + 1) k ++ es, Q e'.node := by
        intro e' he'
        rcases List.mem_append.1 he' with he' | he'
        · obtain ⟨child, hmem, rfl⟩ := mem_hung.1 he'
          exact hchild e.node (hes e List.mem_cons_self) child hmem
        · exact hes e' (List.mem_cons_of_mem e he')
      obtain ⟨hrest, hall⟩ := ih _ (by omega) hnext hbelow hsizes
      refine ⟨?_, fun j hle hlt => ?_⟩
      · have hend : k + 1 + (sizes e.node.children + sizes (es.map (·.node))) = k + size := by omega
        rwa [hend] at hrest
      · rcases Nat.lt_or_eq_of_le hle with hle | rfl
        · exact hall j hle (by omega)
        · exact hself

theorem Pending.skip (h : Pending index k (hung ns depth p ++ stack)) :
    Pending index (k + sizes ns) stack := by
  have hrest := (h.walk (P := fun _ => True) (Q := fun _ => True) (fun _ _ _ _ => trivial)
    (fun _ _ _ _ _ => trivial) fun _ _ => trivial).1
  rwa [map_node_hung] at hrest

theorem map_node_outlineFrom (k : Nat) (stack : List Entry) :
    (outlineFrom k stack).map (·.node) = walkFrom (stack.map (·.node)) := by
  fun_induction outlineFrom k stack with
  | case1 => rw [List.map_nil, walkFrom_nil]
  | case2 k e stack ih =>
    rw [List.map_cons, ih, List.map_cons, walkFrom, List.map_append, List.map_map]
    simp [Function.comp_def]

/-! ## Occurrences -/

/-- The node at an address, which begins with the node's own position. -/
def at? (n : Node) : List Nat → Option Node
  | [] => some n
  | i :: a => (n.at? a).bind (·.children[i]?)

/-- Before a node come its parent with all before it, and all that is below earlier siblings. -/
def number (n : Node) : List Nat → Nat
  | [] => 0
  | i :: a => n.number a + 1 + sizes (((n.at? a).elim [] children).take i)

theorem at?_cons (h : n.at? a = some m) : n.at? (i :: a) = m.children[i]? := by
  simp [at?, h]

theorem number_cons (h : n.at? a = some m) :
    n.number (i :: a) = n.number a + 1 + sizes (m.children.take i) := by
  simp [number, h]

theorem sizes_take_lt (hc : ns[i]? = some c) (hlt : i < j) :
    sizes (ns.take i) < sizes (ns.take j) := by
  have hnext : ns.take (i + 1) = ns.take i ++ [c] := by
    rw [List.take_add_one, hc]
    rfl
  obtain ⟨more, hmore⟩ := List.take_prefix_take_left (l := ns) (Nat.succ_le_of_lt hlt)
  rw [← hmore, hnext, sizes_append, sizes_append, sizes_cons, size_eq]
  omega

/-- The nodes of a stack occur in the tree, with numbers from `k` on if all below them is counted. -/
def Standing (n : Node) (k : Nat) (ns : List Node) : Prop :=
  ∀ i c, ns[i]? = some c → ∃ a, n.at? a = some c ∧ n.number a = k + sizes (ns.take i)

theorem Standing.next (h : Standing n k (m :: ns)) : Standing n (k + 1) (m.children ++ ns) := by
  intro i c hc
  rcases Nat.lt_or_ge i m.children.length with hlt | hge
  · obtain ⟨a, hat, hnumber⟩ := h 0 m rfl
    rw [List.getElem?_append_left hlt] at hc
    refine ⟨i :: a, (at?_cons hat).trans hc, ?_⟩
    rw [number_cons hat, hnumber, List.take_append_of_le_length (Nat.le_of_lt hlt)]
    rfl
  · rw [List.getElem?_append_right hge] at hc
    obtain ⟨a, hat, hnumber⟩ := h (i - m.children.length + 1) c hc
    refine ⟨a, hat, ?_⟩
    rw [hnumber, List.take_succ_cons, sizes_cons, size_eq, List.take_append,
      List.take_of_length_le hge, sizes_append]
    omega

theorem Standing.walkFrom (h : Standing n k ns) (hget : (walkFrom ns)[j]? = some c) :
    ∃ a, n.at? a = some c ∧ n.number a = k + j := by
  fun_induction Node.walkFrom ns generalizing k j with
  | case1 => cases hget
  | case2 m stack ih =>
    cases j with
    | zero => exact h 0 c hget
    | succ j =>
      obtain ⟨a, hat, hnumber⟩ := ih h.next hget
      exact ⟨a, hat, by omega⟩

theorem Pending.child (h : Pending index k (⟨n, depth, parent⟩ :: stack))
    (hc : n.children[i]? = some c) : ∃ stack',
      Pending index (k + 1 + sizes (n.children.take i)) (⟨c, depth + 1, some k⟩ :: stack') := by
  obtain ⟨hlt, rfl⟩ := List.getElem?_eq_some_iff.1 hc
  have hnext := h.next
  rw [← List.take_append_drop i n.children, hung_append, List.append_assoc] at hnext
  have hskip := hnext.skip
  rw [List.drop_eq_getElem_cons hlt] at hskip
  exact ⟨_, hskip⟩

theorem pending_number (h : n.at? a = some m) : ∃ depth parent stack,
    Pending n.outline.toArray (n.number a) (⟨m, depth, parent⟩ :: stack) := by
  induction a generalizing m with
  | nil =>
    cases h
    exact ⟨0, none, [], rfl⟩
  | cons i a ih =>
    obtain ⟨m', hm, hc⟩ := Option.bind_eq_some_iff.1 h
    obtain ⟨depth, parent, stack, hpending⟩ := ih hm
    obtain ⟨stack', hchild⟩ := hpending.child hc
    rw [number_cons hm]
    exact ⟨_, _, stack', hchild⟩

theorem nodeAt?_outline (n : Node) (k : Nat) : nodeAt? n.outline.toArray k = n.walk[k]? := by
  have hwalk : n.outline.map (·.node) = n.walk := map_node_outlineFrom 0 _
  rw [nodeAt?, List.getElem?_toArray, ← hwalk, List.getElem?_map]

/-- Each occurrence is visited under its number, and nothing else is. -/
theorem getElem?_walk : n.walk[k]? = some m ↔ ∃ a, n.at? a = some m ∧ n.number a = k := by
  constructor
  · intro h
    have hstart : Standing n 0 [n] := by
      intro i c hc
      cases i with
      | zero => exact ⟨[], hc, rfl⟩
      | succ i => cases hc
    obtain ⟨a, hat, hnumber⟩ := hstart.walkFrom h
    exact ⟨a, hat, hnumber.trans (Nat.zero_add k)⟩
  · rintro ⟨a, hat, rfl⟩
    obtain ⟨_, _, _, hpending⟩ := pending_number hat
    rw [← nodeAt?_outline, hpending.nodeAt?]

theorem getElem?_number (h : n.at? (i :: a) = some c) :
    ∃ depth, n.outline.toArray[n.number (i :: a)]? = some ⟨c, depth, some (n.number a)⟩ := by
  obtain ⟨m, hm, hc⟩ := Option.bind_eq_some_iff.1 h
  obtain ⟨_, _, _, hpending⟩ := pending_number hm
  obtain ⟨_, hchild⟩ := hpending.child hc
  rw [number_cons hm]
  exact ⟨_, hchild.getElem?⟩

theorem number_inj (ha : n.at? a = some m) (hb : n.at? b = some c)
    (h : n.number a = n.number b) : a = b := by
  induction a generalizing b m c with
  | nil =>
    cases b with
    | nil => rfl
    | cons j b =>
      simp only [number] at h
      omega
  | cons i a ih =>
    cases b with
    | nil =>
      simp only [number] at h
      omega
    | cons j b =>
      obtain ⟨_, hget⟩ := getElem?_number ha
      obtain ⟨_, hget'⟩ := getElem?_number hb
      rw [h, hget', Option.some_inj, Entry.mk.injEq, Option.some_inj] at hget
      obtain ⟨m, hm, hc⟩ := Option.bind_eq_some_iff.1 ha
      obtain ⟨m', hm', hd⟩ := Option.bind_eq_some_iff.1 hb
      obtain rfl := ih hm hm' hget.2.2.symm
      cases hm.symm.trans hm'
      rw [number_cons hm, number_cons hm] at h
      -- As much is below the siblings before the one as before the other.
      rcases Nat.lt_trichotomy i j with hlt | rfl | hlt
      · have := sizes_take_lt hc hlt
        omega
      · rfl
      · have := sizes_take_lt hd hlt
        omega

/-! ## Parents -/

theorem bodyAbove?_of_parentAt? {j : Nat} (h : parentAt? index j = some p) :
    bodyAbove? index j = if isBodyAt index p then some p else bodyAbove? index p := by
  rw [bodyAbove?]
  split
  · rename_i hnone
    rw [h] at hnone
    cases hnone
  · rename_i hsome
    rw [h, Option.some_inj] at hsome
    rw [hsome]

theorem bodyAbove?_of_root {j : Nat} (h : parentAt? index j = none) : bodyAbove? index j = none := by
  rw [bodyAbove?]
  split
  · rfl
  · rename_i hsome
    rw [h] at hsome
    cases hsome

/-- The entry hangs on an earlier one, of which it is a child. -/
def Attached (index : Array Entry) (k : Nat) (e : Entry) : Prop :=
  ∃ p e', e.parent = some p ∧ p < k ∧ index[p]? = some e' ∧ e.node ∈ e'.node.children

/-- Only the root is a script. -/
theorem program_not_mem_children (p : Program) (n : Node) : .program p ∉ n.children := by
  have hstmt (ss : List Stmt) : program p ∉ ss.map Stmt.node := by
    intro h
    obtain ⟨s, -, hs⟩ := List.mem_map.1 h
    cases s <;> cases hs
  have hexpr {ns : List Node} (hns : ∀ c ∈ ns, c.isExpression = true) : program p ∉ ns :=
    fun h => by cases hns _ h
  cases n with
  | program | block => exact hstmt _
  | expr | namedArgument | parameter => exact hexpr fun c hc => isExpression_child rfl hc
  | stmt s =>
    cases s with
    | conditional b =>
      obtain ⟨range, condition, body, otherwise⟩ := b
      cases otherwise <;> simp [Node.children, Stmt.children, Branch.otherwise, Otherwise.nodes]
    | expression e => exact hexpr fun c hc => isExpression_child (n := .expr e) rfl hc
    | jump range kind value | countingLoop range counter first last value body =>
      cases value <;> simp [Node.children, Stmt.children, Node.ofExpr?, Name.node]
    | _ => simp [Node.children, Stmt.children, Name.node]

end Node

namespace Program

open Node (Pending Attached)

/-- Under every number there is a node that is visited. -/
theorem mem_walk_of_nodeAt? {p : Program} {n : Nat} {m : Node}
    (h : Node.nodeAt? p.index n = some m) : m ∈ p.walk :=
  List.mem_of_getElem? ((Node.nodeAt?_outline p.node n).symm.trans h)

theorem pending_index (p : Program) : Pending p.index 0 [⟨p.node, 0, none⟩] := rfl

theorem index_zero (p : Program) : p.index[0]? = some ⟨p.node, 0, none⟩ := p.pending_index.getElem?

theorem size_index (p : Program) : p.index.size = 1 + Stmt.sizes p.body := by
  have hwalk := congrArg List.length (Node.map_node_outlineFrom 0 [⟨p.node, 0, none⟩])
  rw [List.length_map, Node.length_walkFrom] at hwalk
  exact hwalk

/-- Only the script itself hangs on nothing. -/
theorem parent_of_index (p : Program) {n : Nat} {e : Node.Entry} (hpos : 0 < n)
    (h : p.index[n]? = some e) : Attached p.index n e := by
  obtain ⟨c, depth, parent⟩ := e
  have hnode : Node.nodeAt? p.index n = some c := by
    rw [Node.nodeAt?, h]
    rfl
  obtain ⟨a, hat, rfl⟩ := Node.getElem?_walk.1 ((Node.nodeAt?_outline p.node n).symm.trans hnode)
  cases a with
  | nil => exact absurd hpos (Nat.lt_irrefl 0)
  | cons i a =>
    obtain ⟨m, hm, hc⟩ := Option.bind_eq_some_iff.1 hat
    obtain ⟨_, _, _, hpending⟩ := Node.pending_number hm
    obtain ⟨_, hget⟩ := Node.getElem?_number hat
    cases h.symm.trans hget
    refine ⟨_, _, rfl, ?_, hpending.getElem?, List.mem_of_getElem? hc⟩
    rw [Node.number_cons hm]
    omega

/-- A parent is visited first, so every link upwards is followed. -/
theorem parentAt?_index (p : Program) (n : Nat) :
    Node.parentAt? p.index n = p.index[n]?.bind (·.parent) := by
  unfold Node.parentAt?
  cases hget : p.index[n]? with
  | none => rfl
  | some e =>
    rcases Nat.eq_zero_or_pos n with rfl | hpos
    · rw [p.index_zero, Option.some_inj] at hget
      rw [← hget]
      rfl
    · obtain ⟨parent, -, hparent, hlt, -⟩ := p.parent_of_index hpos hget
      simp [hparent, hlt]

theorem index_of_parentAt? {p : Program} {n q : Nat} {m : Node}
    (hnode : Node.nodeAt? p.index n = some m) (hparent : Node.parentAt? p.index n = some q) :
    ∃ depth, p.index[n]? = some ⟨m, depth, some q⟩ := by
  obtain ⟨⟨node, depth, parent⟩, hget, rfl⟩ := Option.map_eq_some_iff.1 hnode
  rw [parentAt?_index, hget] at hparent
  obtain rfl : parent = some q := hparent
  exact ⟨depth, hget⟩

theorem child_of_index {p : Program} {n q depth : Nat} {m : Node}
    (h : p.index[n]? = some ⟨m, depth, some q⟩) :
    ∃ parent, Node.nodeAt? p.index q = some parent ∧ m ∈ parent.children := by
  have hpos : 0 < n := by
    rcases Nat.eq_zero_or_pos n with rfl | hpos
    · rw [p.index_zero] at h
      cases h
    · exact hpos
  obtain ⟨_, e, hparent, -, hget, hchild⟩ := p.parent_of_index hpos h
  cases hparent
  exact ⟨e.node, by rw [Node.nodeAt?, hget]; rfl, hchild⟩

theorem eq_zero_of_program {p q : Program} {n : Nat}
    (h : Node.nodeAt? p.index n = some (.program q)) : n = 0 := by
  rcases Nat.eq_zero_or_pos n with rfl | hpos
  · rfl
  · obtain ⟨e, hget, hnode⟩ := Option.map_eq_some_iff.1 h
    obtain ⟨-, holder, -, -, -, hchild⟩ := p.parent_of_index hpos hget
    rw [hnode] at hchild
    exact absurd hchild (Node.program_not_mem_children q holder.node)

/-- All but the script itself stand in some body. -/
theorem exists_bodyAbove? (p : Program) {n : Nat} (hpos : 0 < n) (hlt : n < p.index.size) :
    ∃ b, Node.bodyAbove? p.index n = some b := by
  induction n using Nat.strongRecOn with
  | ind n ih =>
    obtain ⟨parent, e, hparent, hbefore, hget, -⟩ :=
      p.parent_of_index hpos (Array.getElem?_eq_getElem hlt)
    have hparentAt : Node.parentAt? p.index n = some parent := by
      rw [parentAt?_index, Array.getElem?_eq_getElem hlt]
      exact hparent
    rw [Node.bodyAbove?_of_parentAt? hparentAt]
    split
    · exact ⟨parent, rfl⟩
    · rename_i hbody
      refine ih parent hbefore (Nat.pos_of_ne_zero ?_) (Nat.lt_trans hbefore hlt)
      rintro rfl
      rw [Node.isBodyAt, Node.nodeAt?, p.index_zero] at hbody
      exact hbody rfl

end Program

end PineScript
