import PineScript.Proofs.Tree.Index
import PineScript.Rule.Lookup

/-!
# Scopes by number

What is bound in a body when a node is visited can be read off the index: what its header binds, and
then the declarations that were visited before and hang on the body. Main statement: the rule on
shadowing judges each declaration by the names that are bound in its body and in those around it
when it is visited (`Shadowing.check_eq_judgeAt`).
-/

namespace PineScript.Rule.Shadowing

open Node (Pending hung nodeAt? parentAt? isBodyAt bodyAbove? bodyAbove?_lt sizes)

/-! ## Names that are bound at a visit -/

section

variable (index : Array Node.Entry)

/-- A frame with the name that a node declares, if it declares one. -/
def declaredAt (frame : Frame) (number : Nat) : Frame :=
  match nodeAt? index number with
  | some (.stmt s) => declared frame s
  | _ => frame

/-- What is bound in a body when a node is visited. -/
def frameAt (body number : Nat) : Frame :=
  (List.range number).foldl
    (fun frame d => if bodyAbove? index d = some body then declaredAt index frame d else frame)
    (implicitFrame index body)

/-- What is bound in the bodies around a body, from the nearest on. -/
def framesAround (body number : Nat) : List Frame :=
  match h : bodyAbove? index body with
  | none => []
  | some around =>
    have : around < body := bodyAbove?_lt h
    frameAt index around number :: framesAround around number
termination_by body

/-- Judges the node with some number by what is bound when it is visited. -/
def judgeAt (number : Nat) : List Diagnostic :=
  match nodeAt? index number, bodyAbove? index number with
  | some (.stmt (.declaration range _ _ name _)), some body =>
    judge (frameAt index body number) (framesAround index body number) range name.text
  | _, _ => []

/-- The diagnostics of successive numbers. -/
def judgedFrom (number size : Nat) : List Diagnostic :=
  (List.range' number size).flatMap (judgeAt index)

end

variable {index : Array Node.Entry} {body k m n : Nat} {depth p : Nat} {stack : List Node.Entry}

theorem judgedFrom_add : judgedFrom index k (m + n) =
    judgedFrom index k m ++ judgedFrom index (k + m) n := by
  rw [judgedFrom, judgedFrom, judgedFrom, ← List.flatMap_append, List.range'_append_1]

theorem judgedFrom_one : judgedFrom index k 1 = judgeAt index k := by
  simp [judgedFrom]

theorem frameAt_succ : frameAt index body (k + 1) =
    if bodyAbove? index k = some body then declaredAt index (frameAt index body k) k
    else frameAt index body k := by
  rw [frameAt, List.range_succ, List.foldl_append]
  rfl

theorem framesAround_eq {around : Nat} (h : bodyAbove? index body = some around) :
    framesAround index body k = frameAt index around k :: framesAround index around k := by
  rw [framesAround]
  split
  · rename_i hnone
    rw [h] at hnone
    cases hnone
  · rename_i hsome
    rw [h, Option.some_inj] at hsome
    rw [hsome]

theorem framesAround_eq_nil (h : bodyAbove? index body = none) : framesAround index body k = [] := by
  rw [framesAround]
  split
  · rfl
  · rename_i hsome
    rw [h] at hsome
    cases hsome

/-- Only the frames of the bodies around a body are looked at. -/
theorem framesAround_congr (h : ∀ b, b < body → frameAt index b m = frameAt index b n) :
    framesAround index body m = framesAround index body n := by
  fun_induction framesAround index body m with
  | case1 body hnone => rw [framesAround_eq_nil hnone]
  | case2 body around hsome hlt ih =>
    rw [framesAround_eq hsome, h around hlt, ih fun b hb => h b (Nat.lt_trans hb hlt)]

/-- Nothing is bound in a body before it is visited but what its header binds. -/
theorem frameAt_of_le (h : k ≤ body + 1) : frameAt index body k = implicitFrame index body := by
  induction k with
  | zero => rfl
  | succ k ih =>
    have hbefore : bodyAbove? index k ≠ some body := fun hbody => by
      have := bodyAbove?_lt hbody
      omega
    rw [frameAt_succ, if_neg hbefore, ih (by omega)]

/-! ## Parts of a script that bind nothing outside -/

/-- Whether a node declares a name. -/
def declares : Node → Bool
  | .stmt (.declaration ..) => true
  | _ => false

/-- The nodes from a number on are judged with a result, and bind nothing in an earlier body. -/
structure Judged (index : Array Node.Entry) (k size : Nat) (found : List Diagnostic) : Prop where
  found_eq : found = judgedFrom index k size
  frames : ∀ b, b < k → frameAt index b (k + size) = frameAt index b k

namespace Judged

variable {found more : List Diagnostic}

theorem append (h : Judged index k m found) (h' : Judged index (k + m) n more) :
    Judged index k (m + n) (found ++ more) where
  found_eq := by rw [judgedFrom_add, ← h.found_eq, ← h'.found_eq]
  frames b hb := by
    rw [← Nat.add_assoc, h'.frames b (Nat.lt_of_lt_of_le hb (Nat.le_add_right k m)), h.frames b hb]

theorem around (h : Judged index k m found) (hbody : body < k) :
    frameAt index body (k + m) :: framesAround index body (k + m) =
      frameAt index body k :: framesAround index body k := by
  rw [h.frames body hbody, framesAround_congr fun b hb => h.frames b (Nat.lt_trans hb hbody)]

end Judged

section

variable {node : Node} (hnode : nodeAt? index k = some node) (hdeclares : declares node = false)
include hnode hdeclares

theorem judgeAt_of_not_declares : judgeAt index k = [] := by
  unfold judgeAt
  rw [hnode]
  split
  · rename_i heq _
    cases heq
    cases hdeclares
  · rfl

theorem declaredAt_of_not_declares (frame : Frame) : declaredAt index frame k = frame := by
  unfold declaredAt
  rw [hnode]
  split
  · rename_i s heq
    cases heq
    cases s with
    | declaration => cases hdeclares
    | _ => rfl
  · rfl

/-- A node that declares nothing is passed over. -/
theorem judged_of_not_declares : Judged index k 1 [] where
  found_eq := by rw [judgedFrom_one, judgeAt_of_not_declares hnode hdeclares]
  frames b _ := by rw [frameAt_succ, declaredAt_of_not_declares hnode hdeclares, ite_self]

end

theorem judged_nil : Judged index k 0 [] := ⟨rfl, fun _ _ => rfl⟩

theorem judged_of_quiet (h : ∀ j, k ≤ j → j < k + n → Judged index j 1 []) : Judged index k n [] := by
  induction n with
  | zero => exact judged_nil
  | succ n ih =>
    have hfront := ih fun j hle hlt => h j hle (Nat.lt_succ_of_lt hlt)
    exact hfront.append (h (k + n) (Nat.le_add_right k n) (Nat.lt_succ_self _))

theorem not_declares_of_isExpression {n : Node} (h : n.isExpression = true) :
    declares n = false := by
  cases n with
  | stmt s => cases h
  | _ => rfl

/-- Expressions declare nothing. -/
theorem judged_of_isExpression {ns : List Node} (h : Pending index k (hung ns depth p ++ stack))
    (hns : ∀ n ∈ ns, n.isExpression = true) :
    Pending index (k + sizes ns) stack ∧ Judged index k (sizes ns) [] := by
  obtain ⟨hrest, hall⟩ := h.walk (P := fun j => Judged index j 1 [])
    (fun _ hn _ => Node.isExpression_child hn)
    (fun j e _ hj he => judged_of_not_declares hj.nodeAt? (not_declares_of_isExpression he))
    fun e he => by
      obtain ⟨n, hn, rfl⟩ := Node.mem_hung.1 he
      exact hns n hn
  rw [Node.map_node_hung] at hrest hall
  exact ⟨hrest, judged_of_quiet hall⟩

/-- A statement without a block, other than a declaration, is passed over. -/
theorem judged_of_simple {s : Stmt} (h : Pending index k (⟨s.node, depth, some p⟩ :: stack))
    (hdeclares : declares s.node = false) (hchildren : ∀ c ∈ s.children, c.isExpression = true) :
    Judged index k s.size [] := by
  have hnext := h.next
  rw [s.children_node] at hnext
  obtain ⟨-, hparts⟩ := judged_of_isExpression hnext hchildren
  rw [Node.size_eq_stmt]
  exact (judged_of_not_declares h.nodeAt? hdeclares).append hparts

/-! ## Blocks -/

theorem parentAt?_of_pending {node : Node} (h : Pending index k (⟨node, depth, some p⟩ :: stack))
    (hlt : p < k) : parentAt? index k = some p := by
  rw [parentAt?, h.getElem?]
  simp [hlt]

/-- What hangs on a node belongs to it, if it is a body, and else to the body above it. -/
theorem bodyAbove?_of_pending {node : Node} (h : Pending index k (⟨node, depth, some p⟩ :: stack))
    (hlt : p < k) :
    bodyAbove? index k = if isBodyAt index p then some p else bodyAbove? index p :=
  Node.bodyAbove?_of_parentAt? (parentAt?_of_pending h hlt)

theorem implicitFrame_of_pending {b : Block} {holder : Node}
    (h : Pending index k (⟨.block b, depth, some p⟩ :: stack)) (hlt : p < k)
    (hholder : nodeAt? index p = some holder) : implicitFrame index k = headerFrame holder := by
  rw [implicitFrame, h.nodeAt?, parentAt?_of_pending h hlt, Option.bind_some, hholder]

/-- A block is judged by the names that are bound around it when it is visited. -/
def BlockJudged (index : Array Node.Entry) (b : Block) : Prop :=
  ∀ ⦃k depth p body stack⦄, Pending index k (⟨.block b, depth, some p⟩ :: stack) →
    bodyAbove? index k = some body →
      Judged index k b.size
        (inBlock (frameAt index body k :: framesAround index body k) (implicitFrame index k) b)

/-- A statement with a block is judged as its block is. The parts of its header are expressions. -/
theorem judged_of_block {s : Stmt} (parts : List Node) {b : Block} (hb : BlockJudged index b)
    (h : Pending index k (⟨.stmt s, depth, some p⟩ :: stack)) (hdeclares : declares (.stmt s) = false)
    (habove : bodyAbove? index k = some body) (hchildren : s.children = parts ++ [.block b])
    (hparts : ∀ c ∈ parts, c.isExpression = true) :
    Judged index k s.size
      (inBlock (frameAt index body k :: framesAround index body k) (headerFrame (.stmt s)) b) := by
  have hlt : body < k := bodyAbove?_lt habove
  have hself := judged_of_not_declares h.nodeAt? hdeclares
  have hnext : Pending index (k + 1) (hung s.children (depth + 1) k ++ stack) := h.next
  rw [hchildren, Node.hung_append, List.append_assoc] at hnext
  obtain ⟨hblock, hheader⟩ := judged_of_isExpression hnext hparts
  have hfront := hself.append hheader
  have hk : k < k + 1 + sizes parts := by omega
  have hsize : s.size = 1 + sizes parts + b.size := by
    rw [Node.size_eq_stmt, hchildren, Node.sizes_append, ← Nat.add_assoc]
    rfl
  -- The statement is no body itself, so the block stands in the same body as the statement.
  have hinside : bodyAbove? index (k + 1 + sizes parts) = some body := by
    rw [bodyAbove?_of_pending hblock hk, isBodyAt, h.nodeAt?, if_neg (by simp [Node.isBody]), habove]
  have hjudged := hb hblock hinside
  rw [implicitFrame_of_pending hblock hk h.nodeAt?, Nat.add_assoc, hfront.around hlt] at hjudged
  rw [hsize]
  exact hfront.append hjudged

/-! ## Statements -/

/-- A statement is judged with a result, binds what it declares in its own body, and nothing in the
bodies around it. -/
structure Visited (index : Array Node.Entry) (body k : Nat) (s : Stmt) (found : List Diagnostic) :
    Prop where
  found_eq : found = judgedFrom index k s.size
  frame : frameAt index body (k + s.size) = declared (frameAt index body k) s
  frames : ∀ b, b < body → frameAt index b (k + s.size) = frameAt index b k

theorem Judged.visited {s : Stmt} {found : List Diagnostic} (h : Judged index k s.size found)
    (hlt : body < k) (hdeclares : declares s.node = false) : Visited index body k s found where
  found_eq := h.found_eq
  frame := by
    rw [h.frames body hlt]
    cases s with
    | declaration => cases hdeclares
    | _ => rfl
  frames b hb := h.frames b (Nat.lt_trans hb hlt)

theorem bodyAbove?_of_body {node : Node}
    (h : Pending index k (⟨node, depth, some body⟩ :: stack)) (hbody : isBodyAt index body = true)
    (hlt : body < k) : bodyAbove? index k = some body := by
  rw [bodyAbove?_of_pending h hlt, if_pos hbody]

theorem declaration_visited {range : Range} {modifier : Option Modifier}
    {typeName : Option String} {name : Name} {value : Expr}
    (h : Pending index k
      (⟨.stmt (.declaration range modifier typeName name value), depth, some body⟩ :: stack))
    (hbody : isBodyAt index body = true) (hlt : body < k) :
    Visited index body k (.declaration range modifier typeName name value)
      (judge (frameAt index body k) (framesAround index body k) range name.text) := by
  have habove := bodyAbove?_of_body h hbody hlt
  have hnext : Pending index (k + 1) (hung [name.node, .expr value] (depth + 1) k ++ stack) := h.next
  obtain ⟨-, hparts⟩ := judged_of_isExpression hnext (by simp [Name.node, Node.isExpression])
  have hsize : (Stmt.declaration range modifier typeName name value).size =
      1 + sizes [name.node, .expr value] :=
    Node.size_eq_stmt _
  have hself (b : Nat) : frameAt index b (k + 1) = if body = b then
      (frameAt index b k).bind name.text range.start.line else frameAt index b k := by
    rw [frameAt_succ, habove, declaredAt, h.nodeAt?]
    simp only [Option.some_inj, declared]
  refine ⟨?_, ?_, fun b hb => ?_⟩
  · rw [hsize, judgedFrom_add, judgedFrom_one, ← hparts.found_eq, List.append_nil, judgeAt,
      h.nodeAt?, habove]
  · rw [hsize, ← Nat.add_assoc, hparts.frames body (by omega), hself, if_pos rfl]
    rfl
  · rw [hsize, ← Nat.add_assoc, hparts.frames b (by omega), hself, if_neg (by omega)]

/-- What hangs on a conditional stands in the same body as the conditional. -/
theorem bodyAbove?_of_conditional {node : Node} {b : Branch}
    (h : Pending index k (⟨node, depth, some p⟩ :: stack)) (hlt : p < k)
    (hholder : nodeAt? index p = some (.stmt (.conditional b)))
    (habove : bodyAbove? index p = some body) : bodyAbove? index k = some body := by
  rw [bodyAbove?_of_pending h hlt, isBodyAt, hholder, if_neg (by simp [Node.isBody]), habove]

theorem isExpression_parameters (name : Name) (parameters : List Parameter) :
    ∀ c ∈ name.node :: parameters.map .parameter, c.isExpression = true :=
  List.forall_mem_cons.2 ⟨rfl, List.forall_mem_map.2 fun _ _ => rfl⟩

mutual

theorem stmt_judged (s : Stmt) {k depth body : Nat} {stack : List Node.Entry}
    (h : Pending index k (⟨s.node, depth, some body⟩ :: stack)) (hbody : isBodyAt index body = true)
    (hlt : body < k) (hdeclares : declares s.node = false) :
    Judged index k s.size (inStmt (frameAt index body k) (framesAround index body k) s) := by
  have habove := bodyAbove?_of_body h hbody hlt
  cases s with
  | comment | malformed => exact judged_of_simple h rfl (List.forall_mem_nil _)
  | expression e =>
    exact judged_of_simple h rfl (List.all_eq_true.1 (Node.isExpression_children_expr e))
  | declaration => cases hdeclares
  | assignment =>
    exact judged_of_simple h rfl
      (List.forall_mem_cons.2 ⟨rfl, List.forall_mem_singleton.2 rfl⟩)
  | jump => exact judged_of_simple h rfl fun c hc => Node.isExpression_ofExpr? hc
  | conditional b => exact branch_judged b h habove
  | countingLoop range counter first last step body =>
    refine judged_of_block (counter.node :: .expr first :: .expr last :: Node.ofExpr? step)
      (block_judged body) h rfl habove rfl ?_
    refine List.forall_mem_cons.2 ⟨rfl, List.forall_mem_cons.2 ⟨rfl, List.forall_mem_cons.2 ⟨rfl, ?_⟩⟩⟩
    exact fun c hc => Node.isExpression_ofExpr? hc
  | iteratingLoop range element collection body =>
    exact judged_of_block [element.node, .expr collection] (block_judged body) h rfl habove rfl
      (List.forall_mem_cons.2 ⟨rfl, List.forall_mem_singleton.2 rfl⟩)
  | whileLoop range condition body =>
    exact judged_of_block [.expr condition] (block_judged body) h rfl habove rfl
      (List.forall_mem_singleton.2 rfl)
  | lineFunction range name parameters value =>
    exact judged_of_simple h rfl (List.forall_mem_append.2
      ⟨isExpression_parameters name parameters, List.forall_mem_singleton.2 rfl⟩)
  | blockFunction range name parameters body =>
    exact judged_of_block (name.node :: parameters.map .parameter) (block_judged body) h rfl habove
      rfl (isExpression_parameters name parameters)

theorem branch_judged (b : Branch) {k depth p body : Nat} {stack : List Node.Entry}
    (h : Pending index k (⟨.stmt (.conditional b), depth, some p⟩ :: stack))
    (habove : bodyAbove? index k = some body) :
    Judged index k b.size
      (inBranch (frameAt index body k :: framesAround index body k) b) := by
  have hlt : body < k := bodyAbove?_lt habove
  cases b with
  | mk range condition block otherwise =>
    have hself := judged_of_not_declares h.nodeAt? rfl
    have hnext : Pending index (k + 1) (hung [.expr condition] (depth + 1) k ++
        (hung [.block block] (depth + 1) k ++ (hung otherwise.nodes (depth + 1) k ++ stack))) := h.next
    obtain ⟨hblock, hheader⟩ := judged_of_isExpression hnext (List.forall_mem_singleton.2 rfl)
    rw [Nat.add_assoc] at hblock
    have hrest : Pending index (k + (1 + sizes [.expr condition] + block.size))
        (hung otherwise.nodes (depth + 1) k ++ stack) := by
      rw [← Nat.add_assoc]
      exact hblock.skip
    have hfront := hself.append hheader
    have hk : k < k + (1 + sizes [.expr condition]) := by omega
    have hinside := bodyAbove?_of_conditional hblock hk h.nodeAt? habove
    have hbody := block_judged block hblock hinside
    rw [implicitFrame_of_pending hblock hk h.nodeAt?, hfront.around hlt] at hbody
    have hmain := hfront.append hbody
    have hother := otherwise_judged otherwise hrest (by omega) h.nodeAt? habove
    rw [hmain.around hlt] at hother
    exact hmain.append hother

theorem otherwise_judged (o : Otherwise) {k depth p body : Nat} {stack : List Node.Entry} {b : Branch}
    (h : Pending index k (hung o.nodes depth p ++ stack)) (hlt : p < k)
    (hholder : nodeAt? index p = some (.stmt (.conditional b)))
    (habove : bodyAbove? index p = some body) :
    Judged index k o.size
      (inOtherwise (frameAt index body k :: framesAround index body k) o) := by
  cases o with
  | nothing => exact judged_nil
  | block body =>
    have hjudged := block_judged body h (bodyAbove?_of_conditional h hlt hholder habove)
    rwa [implicitFrame_of_pending h hlt hholder] at hjudged
  | elseIf next => exact branch_judged next h (bodyAbove?_of_conditional h hlt hholder habove)

theorem block_judged (b : Block) : BlockJudged index b := by
  intro k depth p body stack h habove
  cases b with
  | mk range statements =>
    have hself := judged_of_not_declares h.nodeAt? rfl
    have hbody : isBodyAt index k = true := by
      rw [isBodyAt, h.nodeAt?]
      rfl
    obtain ⟨hfound, hframes⟩ := body_judged statements h.next hbody (Nat.lt_succ_self k)
    rw [frameAt_of_le (Nat.le_refl _), framesAround_eq habove, hself.around (bodyAbove?_lt habove)]
      at hfound
    refine ⟨?_, fun b hb => ?_⟩
    · rw [inBlock, hfound, Block.size, judgedFrom_add, ← hself.found_eq, List.nil_append]
    · rw [Block.size, ← Nat.add_assoc, hframes b hb, hself.frames b hb]

theorem body_judged (ss : List Stmt) {k depth body : Nat} {stack : List Node.Entry}
    (h : Pending index k (hung (ss.map Stmt.node) depth body ++ stack))
    (hbody : isBodyAt index body = true) (hlt : body < k) :
    inBody (frameAt index body k) (framesAround index body k) ss =
        judgedFrom index k (Stmt.sizes ss) ∧
      ∀ b, b < body → frameAt index b (k + Stmt.sizes ss) = frameAt index b k := by
  cases ss with
  | nil => exact ⟨rfl, fun _ _ => rfl⟩
  | cons s more =>
    have hstmt : Pending index k (⟨s.node, depth, some body⟩ ::
        (hung (more.map Stmt.node) depth body ++ stack)) := h
    have hvisited : Visited index body k s
        (inStmt (frameAt index body k) (framesAround index body k) s) := by
      cases hdeclares : declares s.node with
      | false => exact (stmt_judged s hstmt hbody hlt hdeclares).visited hlt hdeclares
      | true =>
        cases s with
        | declaration => exact declaration_visited hstmt hbody hlt
        | _ => cases hdeclares
    have hmore : Pending index (k + s.size) (hung (more.map Stmt.node) depth body ++ stack) := by
      have hskip := @Node.Pending.skip index k depth body [s.node] _ hstmt
      rwa [Node.sizes_cons, Node.sizes_nil, Node.size_stmt] at hskip
    obtain ⟨hfound, hframes⟩ := body_judged more hmore hbody (by omega)
    rw [hvisited.frame, framesAround_congr hvisited.frames] at hfound
    refine ⟨?_, fun b hb => ?_⟩
    · rw [inBody, Stmt.sizes, judgedFrom_add, hfound, ← hvisited.found_eq]
    · rw [Stmt.sizes, ← Nat.add_assoc, hframes b hb, hvisited.frames b hb]

end

/-- Every node is judged by the names that are bound when it is visited. -/
theorem check_eq_judgeAt (program : Program) :
    check program = (List.range program.index.size).flatMap (judgeAt program.index) := by
  have hroot := program.pending_index
  have hself := judged_of_not_declares hroot.nodeAt? rfl
  have hbody : isBodyAt program.index 0 = true := by
    rw [isBodyAt, hroot.nodeAt?]
    rfl
  have hnone : bodyAbove? program.index 0 = none := by
    cases habove : bodyAbove? program.index 0 with
    | none => rfl
    | some around => exact absurd (bodyAbove?_lt habove) (Nat.not_lt_zero _)
  have hframe : implicitFrame program.index 0 = [] := by
    rw [implicitFrame, hroot.nodeAt?]
    rfl
  obtain ⟨hfound, -⟩ := body_judged program.body hroot.next hbody Nat.zero_lt_one
  rw [frameAt_of_le (Nat.le_refl _), hframe, framesAround_eq_nil hnone] at hfound
  rw [program.size_index, List.range_eq_range', check, hfound, ← List.nil_append (judgedFrom _ _ _),
    hself.found_eq, ← judgedFrom_add]
  rfl

/-- What is reported is about a declaration that is visited. -/
theorem exists_of_mem_check {program : Program} {d : Diagnostic} (h : d ∈ check program) :
    ∃ range modifier typeName name value,
      .stmt (.declaration range modifier typeName name value) ∈ program.walk ∧
      ∃ frame outer, d ∈ judge frame outer range name.text := by
  rw [check_eq_judgeAt] at h
  obtain ⟨number, -, hjudge⟩ := List.mem_flatMap.1 h
  unfold judgeAt at hjudge
  split at hjudge
  · rename_i hnode _
    exact ⟨_, _, _, _, _, Program.mem_walk_of_nodeAt? hnode, _, _, hjudge⟩
  · cases hjudge

theorem eq_of_mem_judge {frame : Frame} {outer : List Frame} {range : Range} {name : String}
    {d : Diagnostic} (h : d ∈ judge frame outer range name) : d.code = id ∧ d.range = range := by
  unfold judge at h
  split at h
  · rw [List.mem_singleton.1 h]
    exact ⟨rfl, rfl⟩
  · cases h

end PineScript.Rule.Shadowing
