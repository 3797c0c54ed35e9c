import Mathlib.Data.List.Forall2
import PineScript.Proofs.Parser.Suite
import PineScript.Proofs.Tree.Walk

/-!
# Faults and malformed statements

Each fault that is mended leaves one malformed statement, and a malformed statement has no other
origin. So the faults of a script are the causes of its malformed statements, in the order in which
these are visited. Nothing is assumed about the tokens.
-/

namespace PineScript.Parser

variable {α β : Type}

/-! ## What readers yield -/

/-- Every value that a reader gives, wherever it is run, is as `P` says. -/
def Yields (p : Parser α) (P : α → Prop) : Prop :=
  ∀ ctx ts, wp p ctx ts (fun a _ => P a) (fun _ _ => True)

namespace Yields

variable {p : Parser α} {P : α → Prop} {Q : β → Prop}

theorem any (p : Parser α) : Yields p (fun _ => True) := wp_trivial p

theorem fault (wanted : Expected) : Yields (unexpected wanted) P := fun _ _ => trivial

theorem pure {a : α} (h : P a) : Yields (pure a) P := fun _ _ => h

theorem bind {f : α → Parser β} (hp : Yields p P) (hf : ∀ a, P a → Yields (f a) Q) :
    Yields (p >>= f) Q := by
  intro ctx ts
  refine (wp_bind p f).2 (wp_imp (hp ctx ts) ?_)
  exact fun a rest ha => hf a ha ctx rest

/-- Whatever the first reader gives. -/
theorem after {f : α → Parser β} (hf : ∀ a, Yields (f a) Q) : Yields (p >>= f) Q :=
  (any p).bind fun a _ => hf a

theorem ite {c : Prop} [Decidable c] {q : Parser α} (hp : Yields p P) (hq : Yields q P) :
    Yields (if c then p else q) P := by
  split
  · exact hp
  · exact hq

end Yields

/-! ## Simple statements -/

/-- The statement is simple, and the expression in it, if it has one, is as `P` says. -/
def SimpleOf (P : Expr → Prop) : Stmt → Prop
  | .expression e | .declaration _ _ _ _ e | .assignment _ _ _ e => P e
  | .jump _ _ value => ∀ e ∈ value, P e
  | _ => False

theorem SimpleOf.isComment {P : Expr → Prop} {s : Stmt} (h : SimpleOf P s) : s.isComment = false := by
  cases s with
  | comment => cases h
  | _ => rfl

theorem SimpleOf.malformed {P : Expr → Prop} {s : Stmt} (h : SimpleOf P s) :
    Node.malformed [s.node] = [] := by
  cases s with
  | expression e => exact (Node.malformed_expr e []).trans Node.malformed_nil
  | declaration | assignment | jump => exact (Node.malformed_stmt rfl).trans (by simp [Stmt.children])
  | _ => cases h

section

variable {nested : Parser Expr} {P : Expr → Prop} (hnested : Yields nested P)
include hnested

theorem jump_yields (kind : JumpKind) : Yields (jump nested kind) (SimpleOf P) := by
  refine .after fun keyword => .after fun atEnd => .ite (.pure ?_)
    (.bind hnested fun value hvalue => .pure ?_)
  · exact fun _ h => by cases h
  · exact fun e he => Option.some.inj he ▸ hvalue

theorem declaration_yields : Yields (declaration nested) (SimpleOf P) := by
  -- A modifier may be there or not, and so may a type.
  refine .after fun first => .ite (.after fun _ => ?_) ?_
  all_goals
    refine .after fun _ => .after fun _ => .ite (.after fun typeName => ?_) (.after fun typeName => ?_)
    all_goals
      refine .after fun name => .after fun _ => .after fun _ => ?_
      exact .bind hnested fun value hvalue => .pure hvalue

theorem assignment_yields (op : AssignOp) : Yields (assignment nested op) (SimpleOf P) := by
  refine .after fun name => .after fun _ => .after fun _ => ?_
  exact .bind hnested fun value hvalue => .pure hvalue

theorem simpleForm_yields : Yields (simpleForm nested) (SimpleOf P) := by
  refine .after fun t => ?_
  split
  · exact jump_yields hnested _
  · refine .after fun starts => .ite (declaration_yields hnested) (.after fun second => ?_)
    split
    · exact assignment_yields hnested _
    · exact .bind hnested fun value hvalue => .pure hvalue

theorem simple_yields (indent : Int) : Yields (simple nested indent) (SimpleOf P) :=
  .bind (fun ctx => simpleForm_yields hnested { ctx with margin := some indent })
    fun _ hs => .after fun _ => .pure hs

end

/-! ## Statements with a block -/

/-- The malformed statements of the subtrees have the causes of the faults, one for one. -/
def Explains (faults : List Fault) (ns : List Node) : Prop :=
  List.Forall₂ (fun x fault => x.2 = fault.cause) (Node.malformed ns) faults

theorem Explains.nil {ns : List Node} (h : Node.malformed ns = []) : Explains [] ns := by
  rw [Explains, h]
  exact .nil

theorem Explains.append {faults more : List Fault} {ms ns : List Node} (hms : Explains faults ms)
    (hns : Explains more ns) : Explains (faults ++ more) (ms ++ ns) := by
  rw [Explains, Node.malformed_append]
  exact List.rel_append hms hns

theorem Explains.congr {faults : List Fault} {ms ns : List Node} (h : Explains faults ms)
    (heq : Node.malformed ns = Node.malformed ms) : Explains faults ns := by
  rwa [Explains, heq]

/-- The readers of blocks and of what contains them give the faults with what they explain. -/
def Accounts (p : Parser (Mended α)) (nodes : α → List Node) : Prop :=
  Yields p fun m => Explains m.faults (nodes m.value)

section

variable {nested : Parser Expr} {block : Int → Parser (Mended Block)}
  (hblock : ∀ header, Accounts (block header) fun b => [.block b])

include hblock

theorem branch_accounts {rest : Parser (Mended Otherwise)} (hrest : Accounts rest Otherwise.nodes)
    (indent : Int) (keyword : Token) :
    Accounts (branch nested block indent rest keyword) fun b => [.stmt (.conditional b)] := by
  refine .after fun condition => .bind (hblock indent) fun body hbody => ?_
  refine .bind hrest fun otherwise hotherwise => .pure ?_
  exact (hbody.append hotherwise).congr (Node.malformed_conditional _)

theorem otherwiseFor_accounts (indent : Int) (bound : List Token) :
    Accounts (otherwiseFor nested block indent bound) Otherwise.nodes := by
  induction bound with
  | nil => exact .pure (.nil Node.malformed_nil)
  | cons _ bound ih =>
    refine .after fun taken => .ite (.pure (.nil Node.malformed_nil)) (.after fun t => .ite ?_ ?_)
    · exact .after fun keyword => .bind (branch_accounts hblock ih indent keyword)
        fun b hb => .pure hb
    · exact .bind (hblock indent) fun b hb => .pure hb

theorem conditional_accounts (indent : Int) :
    Accounts (conditional nested block indent) fun s => [s.node] := by
  have hrest : Accounts (otherwise nested block indent) Otherwise.nodes := by
    intro ctx ts
    rw [wp_otherwise]
    exact otherwiseFor_accounts hblock indent (ctx.endToken :: ts) ctx ts
  refine .after fun keyword => ?_
  exact .bind (branch_accounts hblock hrest indent keyword) fun b hb => .pure hb

theorem whileLoop_accounts (indent : Int) :
    Accounts (whileLoop nested block indent) fun s => [s.node] := by
  refine .after fun keyword => .after fun condition => .bind (hblock indent) fun body hbody => .pure ?_
  exact hbody.congr ((Node.malformed_stmt rfl).trans (by simp [Stmt.children]))

theorem forLoop_accounts (indent : Int) :
    Accounts (forLoop nested block indent) fun s => [s.node] := by
  refine .after fun keyword => .after fun name => .after fun t => .ite ?_ (.ite ?_ (.fault _))
  · refine .after fun _ => .after fun first => .after fun _ => .after fun last => .after fun _ => ?_
    refine .ite (.after fun step => ?_) (.after fun step => ?_)
    all_goals
      refine .bind (hblock indent) fun body hbody => .pure ?_
      exact hbody.congr ((Node.malformed_stmt rfl).trans (by simp [Stmt.children]))
  · refine .after fun _ => .after fun collection => .bind (hblock indent) fun body hbody => .pure ?_
    exact hbody.congr ((Node.malformed_stmt rfl).trans (by simp [Stmt.children]))

theorem function_accounts (indent : Int) :
    Accounts (function nested block indent) fun s => [s.node] := by
  refine .after fun name => .after fun _ => .after fun ⟨parameters, close⟩ => .after fun _ =>
    .after fun atEnd => .ite ?_ ?_
  · refine .bind (hblock indent) fun body hbody => .pure ?_
    exact hbody.congr ((Node.malformed_stmt rfl).trans (by simp [Stmt.children]))
  · refine .after fun value => .after fun _ => .pure (.nil ?_)
    exact (Node.malformed_stmt rfl).trans (by simp [Stmt.children])

/-- A statement that is read explains its faults. -/
theorem statement_accounts (indent : Int) :
    Accounts (statement nested block indent) fun s => [s.node] := by
  refine .after fun t => .ite (conditional_accounts hblock indent) ?_
  refine .ite (forLoop_accounts hblock indent) (.ite (whileLoop_accounts hblock indent) ?_)
  refine .ite (fun _ _ => trivial) (.after fun starts => .ite (function_accounts hblock indent) ?_)
  exact .bind (simple_yields (.any nested) indent) fun s hs => .pure (.nil hs.malformed)

end

/-! ## Suites, blocks and scripts -/

theorem malformed_ownComments (layout : List Token) :
    Node.malformed ((ownComments layout).map Stmt.node) = [] := by
  induction layout with
  | nil => exact Node.malformed_nil
  | cons t layout ih =>
    rw [ownComments_cons]
    split
    · rw [List.map_cons, ← List.singleton_append, Node.malformed_append, Node.malformed_stmt rfl,
        Stmt.children, Node.malformed_nil]
      exact ih
    · exact ih

/-- A malformed statement is explained by the fault it stands for. -/
theorem Explains.malformed (fault : Fault) (range : Range) :
    Explains [fault] [(Stmt.malformed range fault.cause).node] := by
  rw [Explains, Node.malformed_malformed]
  exact .cons rfl .nil

variable {read : Int → Parser (Mended Stmt)} (hread : ∀ indent, Accounts (read indent) fun s => [s.node])

section
include hread

theorem attempt_explains (indent : Int) (ctx : Context) (first : Token) (more : List Token) :
    Explains (attempt read indent ctx first more).1.faults
      [(attempt read indent ctx first more).1.value.node] := by
  -- The faults that were mended inside a statement are lost with it if it stops later on.
  refine attempt_cases (P := fun s _ => Explains s.faults [s.value.node]) ?_ ?_
  · exact Explains.malformed ⟨.indentation, first.range⟩ _
  · refine wp_mono (hread indent _ _) (fun _ _ => id) ?_
    exact fun fault _ _ => Explains.malformed fault _

theorem suiteItem_explains (indent : Int) (ctx : Context) (ts : List Token)
    (E : Fault → List Token → Prop) :
    wp (suiteItem read indent) ctx ts
      (fun o _ => Explains (o.toList.flatMap Mended.faults)
        ((o.toList.flatMap Mended.value).map Stmt.node))
      E := by
  refine wp_suiteItem (.nil Node.malformed_nil) fun first more hdrop hindent => ?_
  have hitem := (Explains.nil (malformed_ownComments (ts.takeWhile Token.isLayout))).append
    (attempt_explains hread indent ctx first more)
  simpa using hitem

/-- A suite explains its faults, and has none that it leaves to others. -/
theorem suite_explains (indent : Int) (ctx : Context) (ts : List Token)
    (E : Fault → List Token → Prop) :
    wp (suite read indent) ctx ts
      (fun m _ => Explains m.faults (m.value.map Stmt.node)) E := by
  refine (wp_bind _ _).2 ?_
  refine wp_collect (fun items _ => Explains (items.flatMap Mended.faults)
    ((items.flatMap Mended.value).map Stmt.node)) ?_ (.nil Node.malformed_nil)
  intro items ts hitems
  refine wp_imp (suiteItem_explains hread indent ctx ts E) (fun o _ ho => ?_)
  simpa only [List.flatMap_append, List.map_append] using hitems.append ho

end

theorem block_accounts (n : Nat) (header : Int) : Accounts (block n header) fun b => [.block b] := by
  induction n generalizing header with
  | zero =>
    exact fun ctx ts => wp_indented (fun _ => trivial) fun _ _ _ _ => trivial
  | succ n ih =>
    intro ctx ts
    refine wp_indented (fun _ => trivial) fun first more _ _ => (wp_bind _ _).2 ?_
    refine wp_imp (suite_explains (statement_accounts ih) _ ctx ts _) ?_
    intro body rest hbody
    exact hbody.congr (by simp)

/-- The malformed statements of a script, in the order of visits, have the causes of its faults. -/
theorem parse_explains (ts : List Token) :
    List.Forall₂ (fun x fault => x.2 = fault.cause) (Program.parse ts).1.malformed
      (Program.parse ts).2 := by
  have hscript : wp script ⟨finishOf ts, false, none⟩ ts
      (fun body _ => Explains body.faults (body.value.map Stmt.node)) (fun _ _ => False) := by
    refine (wp_bind _ _).2 ?_
    refine wp_imp (suite_explains (statement_accounts (block_accounts nestingLimit)) 0 _ ts _) ?_
    intro body rest hbody
    have htrailing : Node.malformed ((if rest.all Token.isLayout then ownComments rest else []).map
        Stmt.node) = [] := by
      split
      · exact malformed_ownComments rest
      · exact Node.malformed_nil
    have hall := hbody.append (Explains.nil htrailing)
    rw [List.append_nil, ← List.map_append] at hall
    exact hall
  rw [Program.malformed_eq]
  exact (parse_of_wp (Q := fun body faults => Explains faults (body.map Stmt.node)) hscript).2

end PineScript.Parser
