import PineScript.Proofs.Parser.Run
import PineScript.Proofs.Parser.Suite
import PineScript.Proofs.Tree.Move

/-!
# Readers do not look at positions

A reader decides by kinds, spellings and indentations only. So on tokens that were moved it reads
the same tree, moved, stops at the same fault, moved, and leaves the same tokens.
-/

namespace PineScript

variable (f : Position → Position)

def Context.move (ctx : Context) : Context := { ctx with finish := f ctx.finish }

def Reply.move {α β : Type} (m : α → β) : Reply α → Reply β
  | .ok a rest => .ok (m a) (rest.map (Token.move f))
  | .fault e rest => .fault (e.move f) (rest.map (Token.move f))

namespace Context

variable (ctx : Context)

@[simp] theorem move_bracketed : (ctx.move f).bracketed = ctx.bracketed := rfl

@[simp] theorem move_margin : (ctx.move f).margin = ctx.margin := rfl

@[simp] theorem move_endToken : (ctx.move f).endToken = ctx.endToken.move f := rfl

@[simp] theorem skips_comp_move : (ctx.move f).skips ∘ Token.move f = ctx.skips := rfl

theorem lookahead_move (n : Nat) (ts : List Token) :
    (ctx.move f).lookahead n (ts.map (Token.move f)) = (ctx.lookahead n ts).move f := by
  induction ts generalizing n with
  | nil => simp
  | cons t ts ih =>
    have hskips : (ctx.move f).skips (t.move f) = ctx.skips t := rfl
    cases n <;> simp only [List.map_cons, lookahead, hskips, ih] <;> split <;> rfl

end Context

namespace Parser

/-- On moved tokens `q` does what `p` does on the tokens themselves. The value is moved by `m`. -/
def Mirrors {α β : Type} (m : α → β) (p : Parser α) (q : Parser β) : Prop :=
  ∀ ctx ts, q (ctx.move f) (ts.map (Token.move f)) = (p ctx ts).move f m

variable {α β γ δ σ τ : Type} {m : α → β} {k : γ → δ} {p : Parser α} {q : Parser β} {f}

/-! ## Rules -/

namespace Mirrors

theorem pure {a : α} {b : β} (h : m a = b) : Mirrors f m (Pure.pure a) (Pure.pure b) := by
  intro ctx ts
  rw [pure_apply, pure_apply, Reply.move, h]

theorem bind {g : α → Parser γ} {h : β → Parser δ} (hp : Mirrors f m p q)
    (hg : ∀ a, Mirrors f k (g a) (h (m a))) : Mirrors f k (p >>= g) (q >>= h) := by
  intro ctx ts
  rw [bind_apply, bind_apply, hp ctx ts]
  cases p ctx ts with
  | ok a rest => exact hg a ctx rest
  | fault e rest => rfl

theorem map {g : α → γ} {h : β → δ} (hp : Mirrors f m p q) (hg : ∀ a, k (g a) = h (m a)) :
    Mirrors f k (g <$> p) (h <$> q) :=
  hp.bind fun a => .pure (hg a)

theorem discard (hp : Mirrors f m p q) :
    Mirrors f id (discard p : Parser PUnit) (Functor.discard q : Parser PUnit) :=
  hp.bind fun _ => .pure rfl

theorem peekAt (n : Nat) : Mirrors f (Token.move f) (peekAt n) (Parser.peekAt n) := by
  intro ctx ts
  rw [peekAt_apply, peekAt_apply, ctx.lookahead_move f n ts, Reply.move]

theorem peek : Mirrors f (Token.move f) peek Parser.peek := peekAt 0

theorem advance : Mirrors f (Token.move f) advance Parser.advance := by
  intro ctx ts
  rw [advance_apply, advance_apply, ctx.lookahead_move f 0 ts, Reply.move, List.dropWhile_map,
    ctx.skips_comp_move, List.map_tail]

theorem atLineEnd : Mirrors f id atLineEnd Parser.atLineEnd :=
  peek.bind fun _ => .pure rfl

theorem passLayout : Mirrors f id passLayout Parser.passLayout := by
  intro ctx ts
  simp only [Parser.passLayout, Reply.move, List.dropWhile_map, Token.isLayout_comp_move, id]

theorem bracketed (hp : Mirrors f m p q) : Mirrors f m (bracketed p) (Parser.bracketed q) :=
  fun ctx ts => hp { ctx with bracketed := true } ts

theorem withMargin (margin : Int) (hp : Mirrors f m p q) :
    Mirrors f m (withMargin margin p) (Parser.withMargin margin q) :=
  fun ctx ts => hp { ctx with margin := some margin } ts

theorem joinLine (spellings : List String) :
    Mirrors f id (joinLine spellings) (Parser.joinLine spellings) := by
  intro ctx ts
  simp only [Parser.joinLine, Context.move_margin, Context.move_bracketed, ctx.lookahead_move f,
    Token.move_kind, List.dropWhile_map, Token.isLayout_comp_move]
  split
  · rfl
  · split
    · rfl
    · cases ts.dropWhile Token.isLayout with
      | nil => rfl
      | cons t rest =>
        have hcarries : ∀ margin, carriesOn margin spellings (t.move f) =
          carriesOn margin spellings t := fun _ => rfl
        simp only [List.map_cons, hcarries]
        split <;> rfl

theorem fail (cause : Fault.Cause) (range : Range) :
    Mirrors f m (fail cause range) (Parser.fail cause (range.move f)) :=
  fun _ _ => rfl

theorem failHere (cause : Fault.Cause) : Mirrors f m (failHere cause) (Parser.failHere cause) :=
  peek.bind fun _ => .fail _ _

theorem unexpected (wanted : Expected) :
    Mirrors f m (unexpected wanted) (Parser.unexpected wanted) :=
  peek.bind fun _ => .fail _ _

theorem ite {c : Prop} [Decidable c] {p' : Parser α} {q' : Parser β} (hp : Mirrors f m p q)
    (hp' : Mirrors f m p' q') : Mirrors f m (if c then p else p') (if c then q else q') := by
  split
  · exact hp
  · exact hp'

theorem expect {test : Token → Bool} {wanted : Expected}
    (htest : ∀ t : Token, test (t.move f) = test t) :
    Mirrors f (Token.move f) (expect test wanted) (Parser.expect test wanted) := by
  refine peek.bind fun t => ?_
  rw [htest t]
  exact .ite advance (.unexpected wanted)

theorem iterateFor {step : σ → Parser (Option σ)} {step' : τ → Parser (Option τ)} {m : σ → τ}
    (hstep : ∀ s, Mirrors f (Option.map m) (step s) (step' (m s))) (bound : List Token) (s : σ) :
    Mirrors f m (iterateFor step bound s)
      (Parser.iterateFor step' (bound.map (Token.move f)) (m s)) := by
  induction bound generalizing s with
  | nil => exact .pure rfl
  | cons _ bound ih =>
    refine (hstep s).bind fun o => ?_
    cases o with
    | none => exact .pure rfl
    | some next => exact ih next

theorem iterate {step : σ → Parser (Option σ)} {step' : τ → Parser (Option τ)} {m : σ → τ}
    (hstep : ∀ s, Mirrors f (Option.map m) (step s) (step' (m s))) (s : σ) :
    Mirrors f m (iterate step s) (Parser.iterate step' (m s)) :=
  fun ctx ts => iterateFor hstep (ctx.endToken :: ts) s ctx ts

theorem collectFor {item : Parser (Option α)} {item' : Parser (Option β)}
    (hitem : Mirrors f (Option.map m) item item') (bound : List Token) :
    Mirrors f (List.map m) (collectFor item bound)
      (Parser.collectFor item' (bound.map (Token.move f))) := by
  induction bound with
  | nil => exact .pure rfl
  | cons _ bound ih =>
    refine hitem.bind fun o => ?_
    cases o with
    | none => exact .pure rfl
    | some a => exact ih.bind fun _ => .pure rfl

theorem collect {item : Parser (Option α)} {item' : Parser (Option β)}
    (hitem : Mirrors f (Option.map m) item item') :
    Mirrors f (List.map m) (collect item) (Parser.collect item') :=
  fun ctx ts => collectFor hitem (ctx.endToken :: ts) ctx ts

end Mirrors

/-! ## Expressions -/

@[simp] theorem nameOf_move (t : Token) : nameOf (t.move f) = (nameOf t).move f := rfl

section

variable {nested : Parser Expr} (hnested : Mirrors f (Expr.move f) nested nested)
include hnested

theorem primary_mirrors : Mirrors f (Expr.move f) (primary nested) (primary nested) := by
  refine .bind .peek fun t => ?_
  have hliteral : literal? (t.move f) = literal? t := rfl
  rw [hliteral]
  split
  · exact .bind (.discard .advance) fun _ => .pure rfl
  · refine .ite (.bind (.discard .advance) fun _ => .pure rfl) (.ite ?_ (.unexpected _))
    refine .bind (.discard .advance) fun _ => .bracketed (hnested.bind fun inner => ?_)
    exact .bind (.discard (.expect fun _ => rfl)) fun _ => .pure rfl

/-- An optional expression stands behind a mark of its own. -/
theorem marked_mirrors :
    Mirrors f (Option.map (Expr.move f)) (do discard advance; some <$> nested)
      (do discard advance; some <$> nested) :=
  .bind (.discard .advance) fun _ => hnested.map fun _ => rfl

theorem argument_mirrors : Mirrors f (Argument.move f) (argument nested) (argument nested) := by
  refine .bind .peek fun t => .bind (.peekAt 1) fun u => .ite ?_ (hnested.bind fun _ => .pure rfl)
  refine .bind (.discard .advance) fun _ => .bind (.discard .advance) fun _ => ?_
  refine hnested.bind fun value => .pure ?_
  simp [Argument.move, Range.move]

end

theorem listItem_mirrors {item : Parser α} {item' : Parser β} (hitem : Mirrors f m item item') :
    Mirrors f (Option.map m) (listItem item) (listItem item') := by
  refine .bind .peek fun t => .ite (.pure rfl) (hitem.bind fun a => .bind .peek fun u => ?_)
  refine .ite (.bind (.discard .advance) fun _ => .pure rfl) (.ite (.pure rfl) (.unexpected _))

theorem listItems_mirrors {item : Parser α} {item' : Parser β} (hitem : Mirrors f m item item') :
    Mirrors f (Prod.map (List.map m) (Token.move f)) (listItems item) (listItems item') :=
  .bracketed (.bind (.collect (listItem_mirrors hitem)) fun _ => .bind .advance fun _ => .pure rfl)

section

variable {nested : Parser Expr} (hnested : Mirrors f (Expr.move f) nested nested)
include hnested

theorem suffix_mirrors (e : Expr) :
    Mirrors f (Option.map (Expr.move f)) (suffix nested e) (suffix nested (e.move f)) := by
  refine .bind .peek fun t => .ite ?_ (.ite ?_ (.pure rfl))
  · refine .bind (.discard .advance) fun _ => ?_
    refine .bind (listItems_mirrors (argument_mirrors hnested)) fun arguments => .pure ?_
    simp [Expr.move, Range.move]
  · refine .bind (.discard .advance) fun _ => .bracketed (hnested.bind fun subscript => ?_)
    refine .bind (.expect fun _ => rfl) fun close => .pure ?_
    simp [Expr.move, Range.move]

theorem suffixed_mirrors : Mirrors f (Expr.move f) (suffixed nested) (suffixed nested) :=
  .bind (primary_mirrors hnested) (.iterate (suffix_mirrors hnested))

omit hnested in
theorem sign_mirrors : Mirrors f (Option.map (Prod.map id (Range.move f))) sign sign := by
  refine .bind .peek fun t => ?_
  have hop : unaryOp? (t.move f) = unaryOp? t := rfl
  rw [hop]
  split
  · exact .pure rfl
  · exact .bind (.discard .advance) fun _ => .pure rfl

theorem signed_mirrors : Mirrors f (Expr.move f) (signed nested) (signed nested) := by
  refine .bind (.collect sign_mirrors) fun signs => ?_
  refine .bind (suffixed_mirrors hnested) fun operand => .pure ?_
  -- The signs are put around the operand from the inside out, and each moves by itself.
  induction signs with
  | nil => rfl
  | cons s signs ih => simp [Expr.move, ← ih, Range.move]

omit hnested in
theorem operation_mirrors (level : List BinaryOp) {tighter : Parser Expr}
    (htighter : Mirrors f (Expr.move f) tighter tighter) (left : Expr) :
    Mirrors f (Option.map (Expr.move f)) (operation level tighter left)
      (operation level tighter (left.move f)) := by
  refine .bind (.joinLine _) fun _ => .bind .peek fun t => ?_
  have hop : binaryOp? level (t.move f) = binaryOp? level t := rfl
  rw [hop]
  split
  · exact .pure rfl
  · refine .bind (.discard .advance) fun _ => .bind .passLayout fun _ => ?_
    refine htighter.bind fun right => .pure ?_
    simp [Expr.move]

theorem operations_mirrors (levels : List (List BinaryOp)) :
    Mirrors f (Expr.move f) (operations nested levels) (operations nested levels) := by
  induction levels with
  | nil => exact signed_mirrors hnested
  | cons level levels ih => exact .bind ih (.iterate (operation_mirrors level ih))

theorem ternary_mirrors : Mirrors f (Expr.move f) (ternary nested) (ternary nested) := by
  refine .bind (operations_mirrors hnested _) fun condition => .bind (.joinLine _) fun _ => ?_
  refine .bind .peek fun t => .ite ?_ (.pure rfl)
  refine .bind (.discard .advance) fun _ => .bind .passLayout fun _ => ?_
  refine hnested.bind fun whenTrue => ?_
  refine .bind (.joinLine _) fun _ => .bind (.discard (.expect fun _ => rfl)) fun _ => ?_
  refine .bind .passLayout fun _ => hnested.bind fun whenFalse => .pure ?_
  simp [Expr.move]

end

theorem expression_mirrors (n : Nat) :
    Mirrors f (Expr.move f) (expression n) (expression n) := by
  induction n with
  | zero => exact .failHere _
  | succ n ih => exact ternary_mirrors ih

/-! ## Statements -/

def Mended.move (f : Position → Position) (m : α → β) (a : Mended α) : Mended β :=
  ⟨m a.value, a.faults.map (Fault.move f)⟩

section

variable {nested : Parser Expr} (hnested : Mirrors f (Expr.move f) nested nested)
include hnested

theorem jump_mirrors (kind : JumpKind) :
    Mirrors f (Stmt.move f) (jump nested kind) (jump nested kind) := by
  refine .bind .advance fun keyword => .bind .atLineEnd fun _ => .ite (.pure ?_) ?_
  · simp [Stmt.move]
  · refine hnested.bind fun value => .pure ?_
    simp [Stmt.move, Range.move]

theorem declaration_mirrors :
    Mirrors f (Stmt.move f) (declaration nested) (declaration nested) := by
  refine .bind .peek fun first => ?_
  have hmodifier : modifier? (first.move f) = modifier? first := rfl
  rw [hmodifier]
  -- With or without a modifier the same is read from here on.
  refine .ite (.bind (.discard .advance) fun _ => ?_) ?_
  all_goals
    refine .bind .peek fun t => .bind (.peekAt 1) fun u =>
      .ite (.bind (.map (k := id) .advance fun _ => rfl) fun typeName => ?_)
        (.bind (.pure (m := id) rfl) fun typeName => ?_)
    all_goals
      refine .bind (.expect fun _ => rfl) fun name => ?_
      refine .bind (.discard (.expect fun _ => rfl)) fun _ => ?_
      refine .bind .passLayout fun _ => hnested.bind fun value => .pure ?_
      simp [Stmt.move, Range.move]

theorem assignment_mirrors (op : AssignOp) :
    Mirrors f (Stmt.move f) (assignment nested op) (assignment nested op) := by
  refine .bind .advance fun name => .bind (.discard .advance) fun _ => .bind .passLayout fun _ => ?_
  refine hnested.bind fun value => .pure ?_
  simp [Stmt.move, Range.move]

omit hnested in
theorem startsDeclaration_mirrors : Mirrors f id startsDeclaration startsDeclaration := by
  refine .bind .peek fun t => .ite (.pure rfl) (.bind (.peekAt 1) fun u => .ite (.pure rfl) ?_)
  exact .bind (.peekAt 2) fun _ => .pure rfl

theorem simpleForm_mirrors : Mirrors f (Stmt.move f) (simpleForm nested) (simpleForm nested) := by
  refine .bind .peek fun t => ?_
  have hkind : jumpKind? (t.move f) = jumpKind? t := rfl
  rw [hkind]
  split
  · exact jump_mirrors hnested _
  · refine .bind startsDeclaration_mirrors fun _ => .ite (declaration_mirrors hnested) ?_
    refine .bind (.peekAt 1) fun u => ?_
    have hop : assignOp? (u.move f) = assignOp? u := rfl
    have hname : (t.move f).isIdentifier = t.isIdentifier := rfl
    rw [hop, hname]
    split
    · exact assignment_mirrors hnested _
    · exact hnested.bind fun _ => .pure rfl

omit hnested in
theorem endOfLine_mirrors : Mirrors f id endOfLine endOfLine :=
  .bind .atLineEnd fun _ => .ite (.unexpected _) (.pure rfl)

theorem simple_mirrors (indent : Int) :
    Mirrors f (Stmt.move f) (simple nested indent) (simple nested indent) :=
  .bind (.withMargin indent (simpleForm_mirrors hnested)) fun _ =>
    endOfLine_mirrors.bind fun _ => .pure rfl

end

theorem elseAhead_move (indent : Int) (ts : List Token) :
    elseAhead indent (ts.map (Token.move f)) =
      (elseAhead indent ts).map (List.map (Token.move f)) := by
  induction ts with
  | nil => rfl
  | cons t ts ih =>
    have hkeyword : (t.move f).isKeyword "else" = t.isKeyword "else" := rfl
    have hleading : (t.move f).isLineLeading = t.isLineLeading := rfl
    simp only [List.map_cons, elseAhead, Token.move_kind, Token.move_indent, hkeyword, hleading, ih]
    split
    · rfl
    · split <;> rfl

theorem takeElse_mirrors (indent : Int) : Mirrors f id (takeElse indent) (takeElse indent) := by
  intro ctx ts
  have htake : Mirrors f id (do discard advance; return true : Parser Bool)
      (do discard advance; return true) := .bind (.discard .advance) fun _ => .pure rfl
  unfold takeElse
  rw [elseAhead_move]
  cases elseAhead indent ts with
  | none => rfl
  | some rest => exact htake ctx rest

theorem Mended.stop_move (body : Mended Block) (rest : Mended Otherwise) :
    (body.move f (Block.move f)).stop (rest.move f (Otherwise.move f)) = f (body.stop rest) := by
  obtain ⟨rest, faults⟩ := rest
  cases rest <;> simp [Mended.move, Otherwise.move, Mended.stop]

section

variable {nested : Parser Expr} {block : Int → Parser (Mended Block)}
  (hnested : Mirrors f (Expr.move f) nested nested)
  (hblock : ∀ indent, Mirrors f (Mended.move f (Block.move f)) (block indent) (block indent))
include hnested hblock

theorem branch_mirrors (indent : Int) {rest rest' : Parser (Mended Otherwise)}
    (hrest : Mirrors f (Mended.move f (Otherwise.move f)) rest rest') (keyword : Token) :
    Mirrors f (Mended.move f (Branch.move f)) (branch nested block indent rest keyword)
      (branch nested block indent rest' (keyword.move f)) := by
  refine hnested.bind fun condition => (hblock indent).bind fun body => hrest.bind fun rest => ?_
  refine .pure ?_
  rw [Mended.stop_move]
  simp [Mended.move, Branch.move, Range.move]

theorem otherwiseFor_mirrors (indent : Int) (bound : List Token) :
    Mirrors f (Mended.move f (Otherwise.move f)) (otherwiseFor nested block indent bound)
      (otherwiseFor nested block indent (bound.map (Token.move f))) := by
  induction bound with
  | nil => exact .pure rfl
  | cons _ bound ih =>
    refine (takeElse_mirrors indent).bind fun _ => .ite (.pure rfl) ?_
    refine .bind .peek fun t => .ite ?_ ?_
    · refine .bind .advance fun keyword => ?_
      exact (branch_mirrors hnested hblock indent ih keyword).bind fun b => .pure rfl
    · exact (hblock indent).bind fun b => .pure rfl

theorem otherwise_mirrors (indent : Int) :
    Mirrors f (Mended.move f (Otherwise.move f)) (otherwise nested block indent)
      (otherwise nested block indent) :=
  fun ctx ts => otherwiseFor_mirrors hnested hblock indent (ctx.endToken :: ts) ctx ts

theorem conditional_mirrors (indent : Int) :
    Mirrors f (Mended.move f (Stmt.move f)) (conditional nested block indent)
      (conditional nested block indent) :=
  .bind .advance fun keyword =>
    (branch_mirrors hnested hblock indent (otherwise_mirrors hnested hblock indent) keyword).bind
      fun _ => .pure rfl

theorem forLoop_mirrors (indent : Int) :
    Mirrors f (Mended.move f (Stmt.move f)) (forLoop nested block indent)
      (forLoop nested block indent) := by
  refine .bind .advance fun keyword => .bind (.expect fun _ => rfl) fun name => ?_
  refine .bind .peek fun t => .ite ?_ (.ite ?_ (.unexpected _))
  · refine .bind (.discard .advance) fun _ => hnested.bind fun first => ?_
    refine .bind (.discard (.expect fun _ => rfl)) fun _ => hnested.bind fun last => ?_
    refine .bind .peek fun u => .ite ((marked_mirrors hnested).bind fun step => ?_)
      (.bind (.pure (m := Option.map (Expr.move f)) rfl) fun step => ?_)
    all_goals
      refine (hblock indent).bind fun body => .pure ?_
      simp [Mended.move, Stmt.move, Range.move]
  · refine .bind (.discard .advance) fun _ => hnested.bind fun collection => ?_
    refine (hblock indent).bind fun body => .pure ?_
    simp [Mended.move, Stmt.move, Range.move]

theorem whileLoop_mirrors (indent : Int) :
    Mirrors f (Mended.move f (Stmt.move f)) (whileLoop nested block indent)
      (whileLoop nested block indent) := by
  refine .bind .advance fun keyword => hnested.bind fun condition => ?_
  refine (hblock indent).bind fun body => .pure ?_
  simp [Mended.move, Stmt.move, Range.move]

end

/-! ## Functions -/

theorem behindClosing_move (depth : Nat) (ts : List Token) :
    behindClosing depth (ts.map (Token.move f)) =
      (behindClosing depth ts).map (List.map (Token.move f)) := by
  induction ts generalizing depth with
  | nil => rfl
  | cons t ts ih =>
    have hmark : ∀ mark, (t.move f).isPunctuation mark = t.isPunctuation mark := fun _ => rfl
    simp only [List.map_cons, behindClosing, hmark, ih]
    split
    · rfl
    · split
      · split <;> rfl
      · rfl

theorem startsFunction_mirrors : Mirrors f id startsFunction startsFunction := by
  intro ctx ts
  simp only [startsFunction, Reply.move, List.dropWhile_map, Context.skips_comp_move, id]
  congr 1
  cases ts.dropWhile ctx.skips with
  | nil => rfl
  | cons name rest =>
    simp only [List.map_cons, List.dropWhile_map, Context.skips_comp_move]
    cases rest.dropWhile ctx.skips with
    | nil => rfl
    | cons first more =>
      have hname : (name.move f).isIdentifier = name.isIdentifier := rfl
      have hopen : (first.move f).isPunctuation "(" = first.isPunctuation "(" := rfl
      rw [hname]
      cases name.isIdentifier with
      | false => rfl
      | true =>
        simp only [List.map_cons, hopen, behindClosing_move]
        -- What stands behind the list is moved, and an arrow stays an arrow.
        rcases behindClosing 1 more with _ | _ | ⟨arrow, _⟩ <;> rfl

theorem parameterWord_mirrors :
    Mirrors f (Option.map (Token.move f)) parameterWord parameterWord :=
  .bind .peek fun _ => .ite (.bind .advance fun _ => .pure rfl) (.pure rfl)

theorem typeOf_move (words : List Token) : typeOf (words.map (Token.move f)) = typeOf words := by
  have htext : (fun t : Token => t.text) ∘ Token.move f = fun t => t.text := rfl
  simp only [typeOf, List.map_map, htext]

section

variable {nested : Parser Expr} (hnested : Mirrors f (Expr.move f) nested nested)
include hnested

theorem parameter_mirrors :
    Mirrors f (Parameter.move f) (parameter nested) (parameter nested) := by
  refine .bind (.collect parameterWord_mirrors) fun words => ?_
  simp only [List.head?_map, List.getLast?_map, ← List.map_dropLast, typeOf_move]
  cases words.head? with
  | none => exact .unexpected _
  | some first =>
    cases words.getLast? with
    | none => exact .unexpected _
    | some name =>
      refine .bind .peek fun t => .ite ((marked_mirrors hnested).bind fun default => .pure ?_)
        (.bind (.pure (m := Option.map (Expr.move f)) rfl) fun default => .pure ?_)
      all_goals cases default <;> simp [Parameter.move, Range.move, nameOf, Name.move]

end

section

variable {nested : Parser Expr} {block : Int → Parser (Mended Block)}
  (hnested : Mirrors f (Expr.move f) nested nested)
  (hblock : ∀ indent, Mirrors f (Mended.move f (Block.move f)) (block indent) (block indent))
include hnested hblock

theorem function_mirrors (indent : Int) :
    Mirrors f (Mended.move f (Stmt.move f)) (function nested block indent)
      (function nested block indent) := by
  refine .bind .advance fun name => .bind (.discard .advance) fun _ => ?_
  refine .bind (listItems_mirrors (parameter_mirrors hnested)) fun (parameters, _) => ?_
  refine .bind (.discard (.expect fun _ => rfl)) fun _ => .bind .atLineEnd fun _ => .ite ?_ ?_
  · refine (hblock indent).bind fun body => .pure ?_
    simp [Mended.move, Stmt.move, Range.move]
  · refine hnested.bind fun value => endOfLine_mirrors.bind fun _ => .pure ?_
    simp [Mended.move, Stmt.move, Range.move]

theorem statement_mirrors (indent : Int) :
    Mirrors f (Mended.move f (Stmt.move f)) (statement nested block indent)
      (statement nested block indent) := by
  refine .bind .peek fun t => .ite (conditional_mirrors hnested hblock indent)
    (.ite (forLoop_mirrors hnested hblock indent) (.ite (whileLoop_mirrors hnested hblock indent)
      (.ite (.fail _ _) (startsFunction_mirrors.bind fun _ =>
        .ite (function_mirrors hnested hblock indent) ?_))))
  exact (simple_mirrors hnested indent).bind fun _ => .pure rfl

end

/-! ## Recovery -/

@[simp] theorem indentOf_move (indent : Int) (t : Token) :
    indentOf indent (t.move f) = indentOf indent t := by
  simp only [indentOf, Token.move_indent]

theorem skipLine_move (ts : List Token) :
    skipLine (ts.map (Token.move f)) = (skipLine ts).map (Token.move f) := by
  have hbreak : (fun t : Token => t.kind != .newline) ∘ Token.move f = (·.kind != .newline) := rfl
  simp only [skipLine, List.dropWhile_map, hbreak]

theorem resync_eq (indent : Int) (ts : List Token) :
    resync indent ts =
      match (skipLine ts).dropWhile Token.isLayout with
      | [] => skipLine ts
      | t :: more => if indentOf indent t ≤ indent then skipLine ts else resync indent more := by
  rw [resync]
  split
  · rename_i hdrop
    simp only [hdrop]
  · rename_i hdrop
    simp only [hdrop]

theorem resync_move (indent : Int) (ts : List Token) :
    resync indent (ts.map (Token.move f)) = (resync indent ts).map (Token.move f) := by
  -- By the lines that are given up: each is followed by the end, a line that is kept, or another.
  fun_induction resync indent ts with
  | case1 ts hdrop =>
    simp only [resync_eq, skipLine_move, List.dropWhile_map, Token.isLayout_comp_move, hdrop,
      List.map_nil]
  | case2 ts t more hdrop _ hle =>
    simp only [resync_eq, skipLine_move, List.dropWhile_map, Token.isLayout_comp_move, hdrop,
      List.map_cons, indentOf_move, hle, ↓reduceIte]
  | case3 ts t more hdrop _ hle ih =>
    rw [resync_eq]
    simp only [skipLine_move, List.dropWhile_map, Token.isLayout_comp_move, hdrop,
      List.map_cons, indentOf_move, hle, ↓reduceIte, ih]

theorem codeRange_move (first : Token) (ts : List Token) :
    codeRange (first.move f) (ts.map (Token.move f)) = (codeRange first ts).move f := by
  have hcode : (fun t : Token => !t.isLayout) ∘ Token.move f = (!·.isLayout) := rfl
  simp only [codeRange, List.filter_map, hcode, List.getLast?_map]
  cases (ts.filter (!·.isLayout)).getLast? <;> rfl

theorem recover_move (indent : Int) (fault : Fault) (first : Token) (start rest : List Token) :
    recover indent (fault.move f) (first.move f) (start.map (Token.move f))
        (rest.map (Token.move f)) =
      (recover indent fault first start rest).map (Stmt.move f) (List.map (Token.move f)) := by
  have hconsumed : consumed (start.map (Token.move f)) ((resync indent rest).map (Token.move f)) =
      (consumed start (resync indent rest)).map (Token.move f) := by
    simp [consumed]
  simp only [recover, resync_move, hconsumed, codeRange_move]
  simp [Stmt.move, Fault.move]

/-! ## Suites, blocks and scripts -/

theorem ownComments_move (layout : List Token) :
    ownComments (layout.map (Token.move f)) = (ownComments layout).map (Stmt.move f) := by
  induction layout with
  | nil => rfl
  | cons t layout ih =>
    have hleading : (t.move f).isLineLeading = t.isLineLeading := rfl
    simp only [List.map_cons, ownComments_cons, Token.move_kind, hleading, ih]
    split
    · simp [Stmt.move]
    · rfl

section

variable {read : Int → Parser (Mended Stmt)}
  (hread : ∀ indent, Mirrors f (Mended.move f (Stmt.move f)) (read indent) (read indent))
include hread

theorem attempt_move (indent : Int) (ctx : Context) (first : Token) (more : List Token) :
    attempt read indent (ctx.move f) (first.move f) (more.map (Token.move f)) =
      (attempt read indent ctx first more).map (Mended.move f (Stmt.move f))
        (List.map (Token.move f)) := by
  have hrecover : ∀ (fault : Fault) (stopped : List Token),
      recover indent (fault.move f) (first.move f) (first.move f :: more.map (Token.move f))
        (stopped.map (Token.move f)) = _ :=
    fun fault stopped => recover_move indent fault first (first :: more) stopped
  have hmoved : read indent ⟨(ctx.move f).finish, false, none⟩
      (first.move f :: more.map (Token.move f)) = _ :=
    hread indent ⟨ctx.finish, false, none⟩ (first :: more)
  unfold attempt
  simp only [indentOf_move, hmoved]
  split
  · exact congrArg (fun r => (Mended.mk r.1 [⟨.indentation, first.range.move f⟩], r.2))
      (hrecover ⟨.indentation, first.range⟩ (first :: more))
  · cases read indent ⟨ctx.finish, false, none⟩ (first :: more) with
    | ok s rest => rfl
    | fault fault stopped =>
      exact congrArg (fun r => (Mended.mk r.1 [fault.move f], r.2)) (hrecover fault stopped)

theorem suiteItem_mirrors (indent : Int) :
    Mirrors f (Option.map (Mended.move f (List.map (Stmt.move f)))) (suiteItem read indent)
      (suiteItem read indent) := by
  intro ctx ts
  unfold suiteItem
  rw [List.dropWhile_map, List.takeWhile_map, Token.isLayout_comp_move, ownComments_move]
  cases ts.dropWhile Token.isLayout with
  | nil => rfl
  | cons first more =>
    simp only [List.map_cons, indentOf_move, attempt_move hread, Prod.map_fst, Prod.map_snd,
      List.length_map]
    split
    · rfl
    · simp only [Reply.move, Option.map_some, Mended.move, List.map_append, List.map_cons,
        List.map_nil]
      split <;> rfl

theorem suite_mirrors (indent : Int) :
    Mirrors f (Mended.move f (List.map (Stmt.move f))) (suite read indent) (suite read indent) := by
  refine .bind (.collect (suiteItem_mirrors hread indent)) fun items => .pure ?_
  simp [Mended.move, List.map_flatMap, List.flatMap_map]

end

theorem blockOf_move (finish : Position) (statements : List Stmt) :
    blockOf (f finish) (statements.map (Stmt.move f)) = (blockOf finish statements).move f := by
  simp only [blockOf, List.head?_map, List.getLast?_map]
  cases statements.head? <;> cases statements.getLast? <;> simp [Block.move] <;> rfl

theorem indented_mirrors (header : Int) {body body' : Int → Token → Parser (Mended Block)}
    (hbody : ∀ indent first,
      Mirrors f (Mended.move f (Block.move f)) (body indent first) (body' indent (first.move f))) :
    Mirrors f (Mended.move f (Block.move f)) (indented header body) (indented header body') := by
  refine endOfLine_mirrors.bind fun _ ctx ts => ?_
  have hfault : Mirrors f (Mended.move f (Block.move f)) (failHere .missingBlock)
    (failHere .missingBlock) := .failHere _
  simp only [List.dropWhile_map, Token.isLayout_comp_move]
  cases ts.dropWhile Token.isLayout with
  | nil => exact hfault ctx ts
  | cons first _ =>
    simp only [List.map_cons, indentOf_move]
    split
    · exact hfault ctx ts
    · exact hbody _ first ctx ts

theorem block_mirrors (n : Nat) (header : Int) :
    Mirrors f (Mended.move f (Block.move f)) (block n header) (block n header) := by
  -- By the depth of nesting; the statements of a block have blocks of less depth only.
  induction n generalizing header with
  | zero => exact indented_mirrors header fun _ _ => .fail _ _
  | succ n ih =>
    refine indented_mirrors header fun indent _ => ?_
    refine .bind (suite_mirrors (statement_mirrors (expression_mirrors n) ih) indent)
      fun body ctx ts => ?_
    simp only [Reply.move, Mended.move, Reply.ok.injEq, Mended.mk.injEq, and_true]
    exact blockOf_move ctx.finish body.value

/-- Moved tokens make up the moved script. -/
theorem script_mirrors : Mirrors f (Mended.move f (List.map (Stmt.move f))) script script := by
  refine .bind (suite_mirrors (statement_mirrors (expression_mirrors _) (block_mirrors _)) 0)
    fun body ctx ts => ?_
  have hall : (ts.map (Token.move f)).all Token.isLayout = ts.all Token.isLayout := by
    rw [List.all_map, Token.isLayout_comp_move]
  simp only [hall, ownComments_move, Reply.move, Mended.move, List.map_append]
  split <;> simp

end Parser

end PineScript
