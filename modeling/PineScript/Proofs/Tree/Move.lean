import PineScript.Tree.Stmt

/-!
# Moving trees

`move f` puts everything that stands at a position `p` to the position `f p` and leaves all else as
it is. Moving down by some lines is the case that documents need.
-/

namespace PineScript

/-- The same column, so many lines further down. -/
def Position.down (lines : Nat) (p : Position) : Position := ⟨p.line + lines, p.character⟩

variable (f : Position → Position)

def Range.move (r : Range) : Range := ⟨f r.start, f r.stop⟩

def Token.move (t : Token) : Token := { t with range := t.range.move f }

def Fault.move (fault : Fault) : Fault := { fault with range := fault.range.move f }

def Name.move (n : Name) : Name := ⟨n.range.move f, n.text⟩

mutual

def Expr.move : Expr → Expr
  | .name n => .name (n.move f)
  | .literal r v => .literal (r.move f) v
  | .call r callee arguments => .call (r.move f) callee.move (Argument.moveAll arguments)
  | .index r target subscript => .index (r.move f) target.move subscript.move
  | .unary r op operand => .unary (r.move f) op operand.move
  | .binary r op left right => .binary (r.move f) op left.move right.move
  | .ternary r condition whenTrue whenFalse =>
    .ternary (r.move f) condition.move whenTrue.move whenFalse.move

def Argument.move : Argument → Argument
  | .positional value => .positional value.move
  | .named r name value => .named (r.move f) (name.move f) value.move

def Argument.moveAll : List Argument → List Argument
  | [] => []
  | a :: more => a.move :: Argument.moveAll more

end

def Parameter.move (p : Parameter) : Parameter :=
  ⟨p.range.move f, p.typeName, p.name.move f, p.default.map (Expr.move f)⟩

mutual

def Stmt.move : Stmt → Stmt
  | .comment r text => .comment (r.move f) text
  | .malformed r cause => .malformed (r.move f) cause
  | .expression value => .expression (value.move f)
  | .declaration r modifier typeName name value =>
    .declaration (r.move f) modifier typeName (name.move f) (value.move f)
  | .assignment r target op value => .assignment (r.move f) (target.move f) op (value.move f)
  | .jump r kind value => .jump (r.move f) kind (value.map (Expr.move f))
  | .conditional branch => .conditional branch.move
  | .countingLoop r counter first last step body =>
    .countingLoop (r.move f) (counter.move f) (first.move f) (last.move f)
      (step.map (Expr.move f)) body.move
  | .iteratingLoop r element collection body =>
    .iteratingLoop (r.move f) (element.move f) (collection.move f) body.move
  | .whileLoop r condition body => .whileLoop (r.move f) (condition.move f) body.move
  | .lineFunction r name parameters value =>
    .lineFunction (r.move f) (name.move f) (parameters.map (Parameter.move f)) (value.move f)
  | .blockFunction r name parameters body =>
    .blockFunction (r.move f) (name.move f) (parameters.map (Parameter.move f)) body.move

def Branch.move : Branch → Branch
  | .mk r condition body otherwise => .mk (r.move f) (condition.move f) body.move otherwise.move

def Otherwise.move : Otherwise → Otherwise
  | .nothing => .nothing
  | .block body => .block body.move
  | .elseIf branch => .elseIf branch.move

def Block.move : Block → Block
  | .mk r statements => .mk (r.move f) (Stmt.moveAll statements)

def Stmt.moveAll : List Stmt → List Stmt
  | [] => []
  | s :: more => s.move :: Stmt.moveAll more

end

@[simp] theorem Argument.moveAll_eq_map (as : List Argument) :
    moveAll f as = as.map (Argument.move f) := by
  induction as with
  | nil => rfl
  | cons a more ih => rw [moveAll, ih, List.map_cons]

@[simp] theorem Stmt.moveAll_eq_map (ss : List Stmt) : moveAll f ss = ss.map (Stmt.move f) := by
  induction ss with
  | nil => rfl
  | cons s more ih => rw [moveAll, ih, List.map_cons]

/-! ## Ranges -/

@[simp] theorem Range.move_start (r : Range) : (r.move f).start = f r.start := rfl

@[simp] theorem Range.move_stop (r : Range) : (r.move f).stop = f r.stop := rfl

@[simp] theorem Range.span_move (r s : Range) :
    (r.move f).span (s.move f) = (r.span s).move f := rfl

@[simp] theorem Expr.range_move (e : Expr) : (e.move f).range = e.range.move f := by
  cases e <;> simp only [move, range, Name.move]

@[simp] theorem Block.range_move (b : Block) : (b.move f).range = b.range.move f := by
  cases b with | mk r ss => simp only [move, range]

@[simp] theorem Branch.range_move (b : Branch) : (b.move f).range = b.range.move f := by
  cases b with | mk r c b o => simp only [move, range]

@[simp] theorem Stmt.range_move (s : Stmt) : (s.move f).range = s.range.move f := by
  cases s <;> simp only [move, range, Expr.range_move, Branch.range_move]

/-! ## Tokens

A move changes neither kind nor spelling nor indentation. -/

@[simp] theorem Token.move_kind (t : Token) : (t.move f).kind = t.kind := rfl

@[simp] theorem Token.move_text (t : Token) : (t.move f).text = t.text := rfl

@[simp] theorem Token.move_indent (t : Token) : (t.move f).indent = t.indent := rfl

@[simp] theorem Token.move_range (t : Token) : (t.move f).range = t.range.move f := rfl

@[simp] theorem Token.isLayout_comp_move : Token.isLayout ∘ Token.move f = Token.isLayout := rfl

end PineScript
