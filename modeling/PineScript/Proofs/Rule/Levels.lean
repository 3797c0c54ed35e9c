import PineScript.Proofs.Rule.Scopes
import PineScript.Rule.Nesting

/-!
# Levels by number

How many conditionals and loops stand around a node can be counted upwards in the index, from the
body that it stands in to the statement that has the body. Main statement: the rule on nesting
judges each leading statement by its level (`Nesting.check_eq_judgeAt`).
-/

namespace PineScript.Rule.Nesting

open Node (Pending hung nodeAt? parentAt? parentAt?_lt isBodyAt bodyAbove? bodyAbove?_lt
  bodyAbove?_of_parentAt? sizes)
open Shadowing (parentAt?_of_pending isExpression_parameters)

/-! ## Levels -/

/-- Conditionals and loops are nested. -/
def isNested : Node → Bool
  | .stmt (.conditional _) | .stmt (.countingLoop ..) | .stmt (.iteratingLoop ..)
  | .stmt (.whileLoop ..) => true
  | _ => false

section

variable (index : Array Node.Entry)

def isNestedAt (n : Nat) : Bool := (nodeAt? index n).any isNested

/-- The statement in one of whose blocks a node stands, unless the block is a function's. -/
def holder? (n : Nat) : Option Nat :=
  ((bodyAbove? index n).bind (parentAt? index)).filter (isNestedAt index)

theorem holder?_eq_some {index : Array Node.Entry} {n m : Nat} :
    holder? index n = some m ↔
      ∃ body, bodyAbove? index n = some body ∧ parentAt? index body = some m ∧
        isNestedAt index m = true := by
  rw [holder?, Option.filter_eq_some_iff, Option.bind_eq_some_iff]
  constructor
  · rintro ⟨⟨body, hbody, hparent⟩, hnested⟩
    exact ⟨body, hbody, hparent, hnested⟩
  · rintro ⟨body, hbody, hparent, hnested⟩
    exact ⟨⟨body, hbody, hparent⟩, hnested⟩

theorem holder?_lt {index : Array Node.Entry} {n m : Nat} (h : holder? index n = some m) : m < n := by
  obtain ⟨body, hbody, hparent, -⟩ := holder?_eq_some.1 h
  exact Nat.lt_trans (parentAt?_lt hparent) (bodyAbove?_lt hbody)

/-- The number of statements around a node, counted upwards. -/
def level (n : Nat) : Nat :=
  match h : holder? index n with
  | none => 0
  | some m =>
    have : m < n := holder?_lt h
    level m + 1
termination_by n

/-- The level of what stands in the blocks of a statement. -/
def levelBelow (m : Nat) : Nat := if isNestedAt index m then level index m + 1 else 0

/-- Judges the node with some number by its level. -/
def judgeAt (limit : Int) (n : Nat) : List Diagnostic :=
  match nodeAt? index n, parentAt? index n with
  | some (.stmt s), some p =>
    if isNested (.stmt s) && isBodyAt index p then judge limit (level index n) s.header else []
  | _, _ => []

/-- The diagnostics of successive numbers. -/
def judgedFrom (limit : Int) (number size : Nat) : List Diagnostic :=
  (List.range' number size).flatMap (judgeAt index limit)

end

variable {index : Array Node.Entry} {limit : Int} {k m n p depth body : Nat} {stack : List Node.Entry}

theorem level_of_holder? (h : holder? index n = some m) : level index n = level index m + 1 := by
  rw [level]
  split
  · rename_i hnone
    rw [h] at hnone
    cases hnone
  · rename_i hsome
    rw [h, Option.some_inj] at hsome
    rw [hsome]

theorem level_eq_zero (h : holder? index n = none) : level index n = 0 := by
  rw [level]
  split
  · rfl
  · rename_i hsome
    rw [h] at hsome
    cases hsome

/-- What stands in the same body has the same level. -/
theorem level_congr (h : bodyAbove? index m = bodyAbove? index n) : level index m = level index n := by
  have hholder : holder? index m = holder? index n := by rw [holder?, holder?, h]
  cases hn : holder? index n with
  | none => rw [level_eq_zero hn, level_eq_zero (hholder.trans hn)]
  | some q => rw [level_of_holder? hn, level_of_holder? (hholder.trans hn)]

theorem level_of_body (h : bodyAbove? index n = some body) (hparent : parentAt? index body = some m) :
    level index n = levelBelow index m := by
  unfold levelBelow
  split
  · rename_i hnested
    exact level_of_holder? (holder?_eq_some.2 ⟨body, h, hparent, hnested⟩)
  · rename_i hnested
    refine level_eq_zero ?_
    rw [holder?, h, Option.bind_some, hparent, Option.filter_some, if_neg hnested]

theorem level_of_script (h : bodyAbove? index n = some body) (hroot : parentAt? index body = none) :
    level index n = 0 := by
  refine level_eq_zero ?_
  rw [holder?, h, Option.bind_some, hroot]
  rfl

/-! ## Judging by number -/

theorem judgedFrom_add : judgedFrom index limit k (m + n) =
    judgedFrom index limit k m ++ judgedFrom index limit (k + m) n := by
  rw [judgedFrom, judgedFrom, judgedFrom, ← List.flatMap_append, List.range'_append_1]

theorem judgedFrom_one : judgedFrom index limit k 1 = judgeAt index limit k := by
  simp [judgedFrom]

theorem judgedFrom_eq_nil (h : ∀ j, k ≤ j → j < k + n → judgeAt index limit j = []) :
    judgedFrom index limit k n = [] := by
  rw [judgedFrom, List.flatMap_eq_nil_iff]
  intro j hj
  obtain ⟨hle, hlt⟩ := List.mem_range'_1.1 hj
  exact h j hle hlt

theorem judgeAt_of_not_nested {node : Node} (hnode : nodeAt? index k = some node)
    (h : isNested node = false) : judgeAt index limit k = [] := by
  unfold judgeAt
  split
  · rename_i s p hs _
    rw [hnode, Option.some_inj] at hs
    rw [← hs, h]
    rfl
  · rfl

theorem not_nested_of_isExpression {node : Node} (h : node.isExpression = true) :
    isNested node = false := by
  cases node with
  | stmt s => cases h
  | _ => rfl

/-- Expressions are passed over. -/
theorem judgedFrom_of_isExpression (limit : Int) {ns : List Node}
    (h : Pending index k (hung ns depth p ++ stack)) (hns : ∀ c ∈ ns, c.isExpression = true) :
    Pending index (k + sizes ns) stack ∧ judgedFrom index limit k (sizes ns) = [] := by
  obtain ⟨hrest, hall⟩ := h.walk (P := fun j => judgeAt index limit j = [])
    (fun _ hn _ => Node.isExpression_child hn)
    (fun j e _ hj he => judgeAt_of_not_nested hj.nodeAt? (not_nested_of_isExpression he))
    fun e he => by
      obtain ⟨c, hc, rfl⟩ := Node.mem_hung.1 he
      exact hns c hc
  rw [Node.map_node_hung] at hrest hall
  exact ⟨hrest, judgedFrom_eq_nil hall⟩

/-- Of a statement without a block only the statement itself is judged. -/
theorem judgedFrom_of_simple {s : Stmt} (h : Pending index k (⟨s.node, depth, some p⟩ :: stack))
    (hnested : isNested s.node = false) (hchildren : ∀ c ∈ s.children, c.isExpression = true) :
    judgedFrom index limit k s.size = [] := by
  have hnext := h.next
  rw [s.children_node] at hnext
  obtain ⟨-, hparts⟩ := judgedFrom_of_isExpression limit hnext hchildren
  rw [Node.size_eq_stmt, judgedFrom_add, judgedFrom_one, judgeAt_of_not_nested h.nodeAt? hnested,
    hparts]
  rfl

theorem judgeAt_of_body {s : Stmt} (h : Pending index k (⟨.stmt s, depth, some p⟩ :: stack))
    (hlt : p < k) (hbody : isBodyAt index p = true) (hnested : isNested (.stmt s) = true) :
    judgeAt index limit k = judge limit (level index k) s.header := by
  unfold judgeAt
  rw [h.nodeAt?, parentAt?_of_pending h hlt]
  simp only
  rw [hnested, hbody]
  rfl

theorem judgeAt_of_branch {s : Stmt} (h : Pending index k (⟨.stmt s, depth, some p⟩ :: stack))
    (hlt : p < k) (hbody : isBodyAt index p = false) : judgeAt index limit k = [] := by
  unfold judgeAt
  rw [h.nodeAt?, parentAt?_of_pending h hlt]
  simp only
  rw [hbody, Bool.and_false]
  rfl

/-- The nodes of a block are judged as the block is, at the level that its holder gives it. -/
def BlockJudged (index : Array Node.Entry) (limit : Int) (b : Block) : Prop :=
  ∀ ⦃k depth p stack⦄, Pending index k (⟨.block b, depth, some p⟩ :: stack) → p < k →
    judgedFrom index limit k b.size = inBlock limit (levelBelow index p) b

/-- A statement with a block is judged and then its block is. The parts of its header are
expressions. -/
theorem judgedFrom_of_block {s : Stmt} (parts : List Node) {b : Block}
    (hb : BlockJudged index limit b) (h : Pending index k (⟨.stmt s, depth, some p⟩ :: stack))
    (hchildren : s.children = parts ++ [.block b]) (hparts : ∀ c ∈ parts, c.isExpression = true) :
    judgedFrom index limit k s.size =
      judgeAt index limit k ++ inBlock limit (levelBelow index k) b := by
  have hnext : Pending index (k + 1) (hung s.children (depth + 1) k ++ stack) := h.next
  rw [hchildren, Node.hung_append, List.append_assoc] at hnext
  obtain ⟨hblock, hheader⟩ := judgedFrom_of_isExpression limit hnext hparts
  have hsize : s.size = 1 + (sizes parts + b.size) := by
    rw [Node.size_eq_stmt, hchildren, Node.sizes_append]
    rfl
  rw [hsize, judgedFrom_add, judgedFrom_one, judgedFrom_add, hheader, List.nil_append,
    hb hblock (by omega)]

theorem isBodyAt_of_stmt {s : Stmt} (h : nodeAt? index k = some (.stmt s)) :
    isBodyAt index k = false := by
  rw [isBodyAt, h]
  rfl

theorem levelBelow_of_nested {node : Node} (h : nodeAt? index k = some node)
    (hnested : isNested node = true) : levelBelow index k = level index k + 1 := by
  rw [levelBelow, isNestedAt, h, Option.any_some, hnested, if_pos rfl]

/-- A loop is judged at its level, and its block one level deeper. -/
theorem judgedFrom_of_loop {s : Stmt} (parts : List Node) {b : Block}
    (hb : BlockJudged index limit b) (h : Pending index k (⟨.stmt s, depth, some p⟩ :: stack))
    (hlt : p < k) (hbody : isBodyAt index p = true) (hnested : isNested (.stmt s) = true)
    (hchildren : s.children = parts ++ [.block b]) (hparts : ∀ c ∈ parts, c.isExpression = true) :
    judgedFrom index limit k s.size =
      judge limit (level index k) s.header ++ inBlock limit (level index k + 1 : Nat) b := by
  rw [judgedFrom_of_block parts hb h hchildren hparts, judgeAt_of_body h hlt hbody hnested,
    levelBelow_of_nested h.nodeAt? hnested]

mutual

theorem stmt_judged (s : Stmt) {k depth p : Nat} {stack : List Node.Entry}
    (h : Pending index k (⟨s.node, depth, some p⟩ :: stack)) (hbody : isBodyAt index p = true)
    (hlt : p < k) : judgedFrom index limit k s.size = inStmt limit (level index k) s := by
  cases s with
  | comment | malformed => exact judgedFrom_of_simple h rfl (List.forall_mem_nil _)
  | expression e =>
    exact judgedFrom_of_simple h rfl (List.all_eq_true.1 (Node.isExpression_children_expr e))
  | declaration | assignment =>
    exact judgedFrom_of_simple h rfl (List.forall_mem_cons.2 ⟨rfl, List.forall_mem_singleton.2 rfl⟩)
  | jump => exact judgedFrom_of_simple h rfl fun c hc => Node.isExpression_ofExpr? hc
  | conditional b =>
    have hself : judgeAt index limit k = judge limit (level index k) b.header :=
      judgeAt_of_body h hlt hbody rfl
    rw [inStmt, ← hself]
    exact branch_judged b h
  | countingLoop range counter first last step body =>
    refine judgedFrom_of_loop (counter.node :: .expr first :: .expr last :: Node.ofExpr? step)
      (block_judged body) h hlt hbody rfl rfl ?_
    refine List.forall_mem_cons.2 ⟨rfl, List.forall_mem_cons.2 ⟨rfl, List.forall_mem_cons.2 ⟨rfl, ?_⟩⟩⟩
    exact fun c hc => Node.isExpression_ofExpr? hc
  | iteratingLoop range element collection body =>
    exact judgedFrom_of_loop [element.node, .expr collection] (block_judged body) h hlt hbody rfl rfl
      (List.forall_mem_cons.2 ⟨rfl, List.forall_mem_singleton.2 rfl⟩)
  | whileLoop range condition body =>
    exact judgedFrom_of_loop [.expr condition] (block_judged body) h hlt hbody rfl rfl
      (List.forall_mem_singleton.2 rfl)
  | lineFunction range name parameters value =>
    exact judgedFrom_of_simple h rfl (List.forall_mem_append.2
      ⟨isExpression_parameters name parameters, List.forall_mem_singleton.2 rfl⟩)
  | blockFunction range name parameters body =>
    have hnone : levelBelow index k = 0 := by
      rw [levelBelow, isNestedAt, h.nodeAt?]
      rfl
    have hjudged := judgedFrom_of_block (name.node :: parameters.map .parameter) (block_judged body) h
      rfl (isExpression_parameters name parameters)
    rw [judgeAt_of_not_nested h.nodeAt? rfl, hnone] at hjudged
    exact hjudged

theorem branch_judged (b : Branch) {k depth p : Nat} {stack : List Node.Entry}
    (h : Pending index k (⟨.stmt (.conditional b), depth, some p⟩ :: stack)) :
    judgedFrom index limit k b.size =
      judgeAt index limit k ++ inBranch limit (level index k) b := by
  cases b with
  | mk range condition block otherwise =>
    have hnext : Pending index (k + 1) (hung [.expr condition] (depth + 1) k ++
        (hung [.block block] (depth + 1) k ++ (hung otherwise.nodes (depth + 1) k ++ stack))) := h.next
    obtain ⟨hblock, hheader⟩ :=
      judgedFrom_of_isExpression limit hnext (List.forall_mem_singleton.2 rfl)
    have hinside := block_judged block hblock (by omega)
    have hother : judgedFrom index limit (k + 1 + sizes [.expr condition] + block.size)
        otherwise.size = inOtherwise limit (level index k) otherwise :=
      otherwise_judged otherwise hblock.skip (by omega) h.nodeAt?
    rw [levelBelow_of_nested h.nodeAt? rfl] at hinside
    have hsize : (Branch.mk range condition block otherwise).size =
        1 + (sizes [.expr condition] + (block.size + otherwise.size)) := by
      simp only [Branch.size, Node.sizes_cons, Node.sizes_nil, Node.size]
      omega
    rw [hsize, judgedFrom_add, judgedFrom_one, judgedFrom_add, hheader, judgedFrom_add, hinside,
      hother]
    rfl

theorem otherwise_judged (o : Otherwise) {k depth p : Nat} {stack : List Node.Entry} {b : Branch}
    (h : Pending index k (hung o.nodes depth p ++ stack)) (hlt : p < k)
    (hholder : nodeAt? index p = some (.stmt (.conditional b))) :
    judgedFrom index limit k o.size = inOtherwise limit (level index p) o := by
  cases o with
  | nothing => rfl
  | block body =>
    have hjudged := block_judged body h hlt
    rw [levelBelow_of_nested hholder rfl] at hjudged
    exact hjudged
  | elseIf next =>
    have hbody := isBodyAt_of_stmt hholder
    -- A conditional is no body, so the next branch stands in the body that the conditional is in.
    have hlevel : level index k = level index p := by
      refine level_congr ?_
      rw [bodyAbove?_of_parentAt? (parentAt?_of_pending h hlt), hbody]
      rfl
    have hjudged := branch_judged next h
    rw [judgeAt_of_branch h hlt hbody, hlevel] at hjudged
    exact hjudged

theorem block_judged (b : Block) : BlockJudged index limit b := by
  intro k depth p stack h hlt
  cases b with
  | mk range statements =>
    have hbody : isBodyAt index k = true := by
      rw [isBodyAt, h.nodeAt?]
      rfl
    have hself : judgeAt index limit k = [] := judgeAt_of_not_nested h.nodeAt? rfl
    have hlevel : ∀ j, bodyAbove? index j = some k → level index j = levelBelow index p :=
      fun j hj => level_of_body hj (parentAt?_of_pending h hlt)
    have hall := body_judged statements h.next hbody (Nat.lt_succ_self k) hlevel
    rw [Block.size, judgedFrom_add, judgedFrom_one, hself, hall]
    rfl

theorem body_judged (ss : List Stmt) {k depth body level : Nat} {stack : List Node.Entry}
    (h : Pending index k (hung (ss.map Stmt.node) depth body ++ stack))
    (hbody : isBodyAt index body = true) (hlt : body < k)
    (hlevel : ∀ j, bodyAbove? index j = some body → Nesting.level index j = level) :
    judgedFrom index limit k (Stmt.sizes ss) = inBody limit level ss := by
  cases ss with
  | nil => rfl
  | cons s more =>
    have hstmt : Pending index k (⟨s.node, depth, some body⟩ ::
        (hung (more.map Stmt.node) depth body ++ stack)) := h
    have habove : bodyAbove? index k = some body := by
      rw [bodyAbove?_of_parentAt? (parentAt?_of_pending hstmt hlt), if_pos hbody]
    have hmore : Pending index (k + s.size) (hung (more.map Stmt.node) depth body ++ stack) := by
      have hskip := @Node.Pending.skip index k depth body [s.node] _ hstmt
      rwa [Node.sizes_cons, Node.sizes_nil, Node.size_stmt] at hskip
    rw [Stmt.sizes, judgedFrom_add, inBody, stmt_judged s hstmt hbody hlt, hlevel k habove,
      body_judged more hmore hbody (by omega) hlevel]

end

/-- Every node is judged by the number of statements around it. -/
theorem check_eq_judgeAt (program : Program) (limit : Int) :
    check limit program = (List.range program.index.size).flatMap (judgeAt program.index limit) := by
  have hroot := program.pending_index
  have hself : judgeAt program.index limit 0 = [] := judgeAt_of_not_nested hroot.nodeAt? rfl
  have hbody : isBodyAt program.index 0 = true := by
    rw [isBodyAt, hroot.nodeAt?]
    rfl
  have hnone : parentAt? program.index 0 = none := by
    rw [parentAt?, hroot.getElem?]
    rfl
  have hall : judgedFrom program.index limit 1 (Stmt.sizes program.body) =
      inBody limit (0 : Nat) program.body :=
    body_judged program.body hroot.next hbody Nat.zero_lt_one fun j hj => level_of_script hj hnone
  have hwhole : judgedFrom program.index limit 0 (1 + Stmt.sizes program.body) =
      inBody limit (0 : Nat) program.body := by
    rw [judgedFrom_add, judgedFrom_one, hself, hall]
    rfl
  rw [program.size_index, List.range_eq_range']
  exact hwhole.symm

/-- What is reported is about a conditional or a loop that is visited. -/
theorem exists_of_mem_check {program : Program} {limit : Int} {d : Diagnostic}
    (h : d ∈ check limit program) :
    ∃ s : Stmt, .stmt s ∈ program.walk ∧ isNested (.stmt s) = true ∧
      ∃ depth, d ∈ judge limit depth s.header := by
  rw [check_eq_judgeAt] at h
  obtain ⟨number, -, hjudge⟩ := List.mem_flatMap.1 h
  unfold judgeAt at hjudge
  split at hjudge
  · rename_i s _ hnode _
    split at hjudge
    · rename_i hnested
      exact ⟨s, Program.mem_walk_of_nodeAt? hnode, (Bool.and_eq_true_iff.1 hnested).1, _, hjudge⟩
    · cases hjudge
  · cases hjudge

theorem eq_of_mem_judge {limit depth : Int} {header : Range} {d : Diagnostic}
    (h : d ∈ judge limit depth header) : d.code = id ∧ d.range = header := by
  unfold judge at h
  split at h
  · rw [List.mem_singleton.1 h]
    exact ⟨rfl, rfl⟩
  · cases h

end PineScript.Rule.Nesting
