import PineScript.Proofs.Parser.Drawn
import PineScript.Proofs.Parser.PlacedScript

/-!
# What is drawn from the tokens of a script

Statements begin with the token that told them apart, and malformed ones with the first token that
was passed over. Main statement: in the tree of any tokens all code begins where a token of code
begins or where the tokens end, and every fault has the range of a token or lies at this end
(`Program.parse_drawn`).
-/

namespace PineScript.Parser

open Node (Headed)

variable {α β : Type} {T P : Token → Prop}

/-! ## Rules for tests -/

namespace Draws

variable {S : β → Prop}

theorem pure_bind {a : α} {f : α → Parser β} (hf : Draws T P (f a) S) :
    Draws T P (Pure.pure a >>= f) S :=
  hf

theorem startsDeclaration {f : Bool → Parser β} (hf : ∀ b, Draws T P (f b) S) :
    Draws T P (Parser.startsDeclaration >>= f) S := by
  intro ctx ts hend hts hP
  exact (wp_bind _ _).2 (wp_startsDeclaration fun b => hf b hend hts hP)

/-- A function begins with its name. -/
theorem startsFunction {f : Bool → Parser β}
    (hf : ∀ b, Draws T (fun t => P t ∧ (b = true → t.isIdentifier = true)) (f b) S) :
    Draws T P (Parser.startsFunction >>= f) S := by
  intro ctx ts hend hts hP
  refine (wp_bind _ _).2 (hf _ hend hts ⟨hP, fun hfound => ?_⟩)
  rw [ctx.lookahead_zero]
  split at hfound
  · rename_i hdrop
    rw [hdrop]
    split at hfound
    · rename_i hname _
      exact hname
    · cases hfound
  · cases hfound

theorem withMargin {p : Parser α} {R : α → Prop} (margin : Int)
    (hp : Draws T (fun _ => True) p R) : Draws T P (Parser.withMargin margin p) R :=
  fun ctx _ hend hts _ => @hp { ctx with margin := some margin } _ hend hts trivial

theorem endOfLine : Draws T P Parser.endOfLine fun _ => True :=
  .atLineEnd fun _ => .ite (fun _ => .unexpected) fun _ => .pure trivial

theorem takeElse (indent : Int) : Draws T P (Parser.takeElse indent) fun _ => True := by
  intro ctx ts hend hts _
  have htake : Draws T (fun _ => True) (do Functor.discard Parser.advance; return true)
      fun _ : Bool => True := .bind (.discard .advance) fun _ _ => .pure trivial
  unfold wp Parser.takeElse
  cases helse : elseAhead indent ts with
  | none => exact ⟨hts, trivial⟩
  | some line => exact htake hend (forall_mem_suffix (elseAhead_suffix helse) hts) trivial

end Draws

/-! ## Simple statements -/

section

variable {nested : Parser Expr}
  (hnested : Draws T (fun _ => True) nested fun e => Headed T [.expr e])
include hnested

theorem jump_draws (kind : JumpKind) :
    Draws T (fun t => t.isLayout = false) (jump nested kind) fun s => Headed T [s.node] := by
  refine .bind .advance fun keyword ⟨hkeyword, hcode⟩ => .atLineEnd fun _ => ?_
  have hstart : Token.CodeAt T keyword.range.start := ⟨keyword, hkeyword, hcode, rfl⟩
  refine .ite (fun _ => .pure (.node Node.headed_nil hstart)) fun _ => ?_
  exact hnested.bind fun value hvalue => .pure (.node hvalue hstart)

/-- The name, the sign and the value of a declaration. -/
theorem declared_draws {first : Token} (hfirst : T first)
    (hcode : ∀ t, P t → t.isIdentifier = true → first.isLayout = false)
    (modifier : Option Modifier) (typeName : Option String) :
    Draws T P (do
        let name ← expect Token.isIdentifier .variableName
        discard <| expect (·.isOperator "=") .equals
        passLayout
        let value ← nested
        return Stmt.declaration ⟨first.range.start, value.range.stop⟩ modifier typeName
          (nameOf name) value)
      fun s => Headed T [s.node] := by
  refine .bind .expect fun name ⟨hname, hP, hword⟩ => .bind (.discard .expect) fun _ _ => ?_
  refine .bind .passLayout fun _ _ => hnested.bind fun value hvalue => .pure ?_
  refine .node ?_ ⟨first, hfirst, hcode name hP hword, rfl⟩
  exact Node.headed_append.2 ⟨headed_nameOf hname (Token.isLayout_of_identifier hword), hvalue⟩

omit hnested in
theorem typeName_draws : Draws T P ((fun t => some t.text) <$> advance) fun _ => True :=
  Draws.advance.map fun _ _ => trivial

theorem declaration_draws : Draws T P (declaration nested) fun s => Headed T [s.node] := by
  refine .peek fun first hfirst _ => .ite (fun hmodifier => ?_) fun _ => ?_
  · have hcode : first.isLayout = false := by
      unfold modifier? at hmodifier
      grind
    refine .bind (.discard .advance) fun _ _ => .peek fun t _ _ => .peekAt 1 fun u => ?_
    refine .ite (fun _ => .bind typeName_draws fun word _ => ?_) fun _ => .pure_bind ?_
    all_goals exact declared_draws hnested hfirst (fun _ _ _ => hcode) _ _
  -- Without a modifier, what comes first is the type or else the name.
  · refine .peek fun t _ ht => .peekAt 1 fun u => ?_
    refine .ite (fun htyped => .bind typeName_draws fun word _ => ?_) fun _ => .pure_bind ?_
    · have hword := Token.isLayout_of_identifier (Bool.and_eq_true_iff.1 htyped).1
      exact declared_draws hnested hfirst (fun _ _ _ => ht ▸ hword) _ _
    · refine declared_draws hnested hfirst (fun name hname hword => ?_) _ _
      rw [← ht, ← hname]
      exact Token.isLayout_of_identifier hword

theorem assignment_draws (op : AssignOp) :
    Draws T (fun t => t.isIdentifier = true) (assignment nested op) fun s => Headed T [s.node] := by
  refine .bind .advance fun name ⟨hname, hword⟩ => .bind (.discard .advance) fun _ _ => ?_
  refine .bind .passLayout fun _ _ => hnested.bind fun value hvalue => .pure ?_
  have hcode := Token.isLayout_of_identifier hword
  exact .node (Node.headed_append.2 ⟨headed_nameOf hname hcode, hvalue⟩) ⟨name, hname, hcode, rfl⟩

theorem simpleForm_draws : Draws T P (simpleForm nested) fun s => Headed T [s.node] := by
  refine .peek fun t _ _ => ?_
  split
  · rename_i kind hkind
    refine (jump_draws hnested kind).of_imp fun u hu => ?_
    unfold jumpKind? at hkind
    grind
  · refine .startsDeclaration fun _ => .ite (fun _ => declaration_draws hnested) fun _ => ?_
    refine .peekAt 1 fun u => ?_
    split
    · rename_i hname _
      exact (assignment_draws hnested _).of_imp fun u hu => hu ▸ hname
    · exact hnested.of_any.bind fun value hvalue => .pure hvalue

theorem simple_draws (indent : Int) :
    Draws T P (simple nested indent) fun s => Headed T [s.node] :=
  .bind (.withMargin indent (simpleForm_draws hnested)) fun _ hs =>
    .bind .endOfLine fun _ _ => .pure hs

/-- An optional expression stands behind a mark of its own. -/
theorem marked_draws :
    Draws T P (do discard advance; some <$> nested) fun o => Headed T (Node.ofExpr? o) :=
  .bind (.discard .advance) fun _ _ => hnested.map fun _ => id

/-! ## Parameters -/

theorem parameter_draws : Draws T P (parameter nested) fun p => Headed T [.parameter p] := by
  have hword : Draws T (fun _ => True) parameterWord
      fun o => ∀ t ∈ o, T t ∧ t.isLayout = false := by
    refine .peek fun t ht _ => .ite (fun hname => ?_) fun _ => .pure nofun
    refine .bind .advance fun u hu => .pure ?_
    rintro _ ⟨⟩
    exact ⟨hu.1, hu.2 ▸ Token.isLayout_of_identifier hname⟩
  refine .bind (.collect hword) fun words hwords => ?_
  split
  · rename_i first name hfirst hlast
    obtain ⟨hT, hcode⟩ := hwords first (List.mem_of_mem_head? hfirst)
    have hname := hwords name (List.mem_of_getLast? hlast)
    have hparameter {default : Option Expr} (hdefault : Headed T (Node.ofExpr? default))
        (stop : Position) (type : Option String) :
        Headed T [.parameter ⟨⟨first.range.start, stop⟩, type, nameOf name, default⟩] :=
      .node (Node.headed_append.2 ⟨headed_nameOf hname.1 hname.2, hdefault⟩) ⟨first, hT, hcode, rfl⟩
    refine .peek fun t _ _ => .ite (fun _ => ?_) fun _ => .pure_bind (.pure ?_)
    · exact (marked_draws hnested).bind fun default hdefault => .pure (hparameter hdefault _ _)
    · exact hparameter Node.headed_nil _ _
  · exact .unexpected

end

/-! ## Statements with a block -/

/-- The nodes of what was read are headed, and the faults that were mended lie at tokens. -/
def Drawn (T : Token → Prop) (nodes : α → List Node) (m : Mended α) : Prop :=
  Headed T (nodes m.value) ∧ ∀ fault ∈ m.faults, fault.AtToken T

section

variable {nested : Parser Expr}
  (hnested : Draws T (fun _ => True) nested fun e => Headed T [.expr e])
  {block : Int → Parser (Mended Block)}
  (hblock : ∀ header, Draws T (fun _ => True) (block header) (Drawn T fun b => [.block b]))
include hnested hblock

theorem branch_draws (indent : Int) {rest : Parser (Mended Otherwise)}
    (hrest : Draws T (fun _ => True) rest (Drawn T Otherwise.nodes)) {keyword : Token}
    (hkeyword : T keyword) (hcode : keyword.isLayout = false) :
    Draws T P (branch nested block indent rest keyword)
      (Drawn T fun b => [.stmt (.conditional b)]) := by
  refine hnested.of_any.bind fun condition hcondition => (hblock indent).bind fun body hbody => ?_
  refine hrest.bind fun other hother => .pure ⟨.node ?_ ⟨keyword, hkeyword, hcode, rfl⟩, ?_⟩
  · exact Node.headed_append.2 ⟨hcondition, Node.headed_append.2 ⟨hbody.1, hother.1⟩⟩
  · exact List.forall_mem_append.2 ⟨hbody.2, hother.2⟩

theorem otherwiseFor_draws (indent : Int) (bound : List Token) :
    Draws T P (otherwiseFor nested block indent bound) (Drawn T Otherwise.nodes) := by
  have hnothing : Drawn T Otherwise.nodes ⟨.nothing, []⟩ :=
    ⟨Node.headed_nil, List.forall_mem_nil _⟩
  induction bound generalizing P with
  | nil => exact .pure hnothing
  | cons _ bound ih =>
    refine .bind (.takeElse indent) fun _ _ => .ite (fun _ => .pure hnothing) fun _ => ?_
    refine .peek fun t ht _ => .ite (fun hif => ?_) fun _ => ?_
    · refine .bind .advance fun keyword hkeyword => ?_
      have hcode := hkeyword.2 ▸ Token.isLayout_of_keyword hif
      exact (branch_draws hnested hblock indent ih hkeyword.1 hcode).bind fun b hb => .pure hb
    · exact (hblock indent).of_any.bind fun b hb => .pure hb

theorem conditional_draws (indent : Int) :
    Draws T (fun t => t.isLayout = false) (conditional nested block indent)
      (Drawn T fun s => [s.node]) := by
  have hotherwise : Draws T (fun _ => True) (otherwise nested block indent)
      (Drawn T Otherwise.nodes) := by
    intro ctx ts hend hts _
    rw [wp_otherwise]
    exact otherwiseFor_draws (P := fun _ => True) hnested hblock indent _ hend hts trivial
  refine .bind .advance fun keyword hkeyword => ?_
  exact (branch_draws hnested hblock indent hotherwise hkeyword.1 hkeyword.2).bind
    fun b hb => .pure hb

theorem whileLoop_draws (indent : Int) :
    Draws T (fun t => t.isLayout = false) (whileLoop nested block indent)
      (Drawn T fun s => [s.node]) := by
  refine .bind .advance fun keyword hkeyword => hnested.bind fun condition hcondition => ?_
  refine (hblock indent).bind fun body hbody => .pure ⟨?_, hbody.2⟩
  exact .node (Node.headed_append.2 ⟨hcondition, hbody.1⟩) ⟨keyword, hkeyword.1, hkeyword.2, rfl⟩

theorem forLoop_draws (indent : Int) :
    Draws T (fun t => t.isLayout = false) (forLoop nested block indent)
      (Drawn T fun s => [s.node]) := by
  refine .bind .advance fun keyword hkeyword => .bind .expect fun name ⟨hname, _, hword⟩ => ?_
  have hstart : Token.CodeAt T keyword.range.start := ⟨keyword, hkeyword.1, hkeyword.2, rfl⟩
  have hleaf := headed_nameOf hname (Token.isLayout_of_identifier hword)
  refine .peek fun t _ _ => .ite (fun _ => ?_) fun _ => .ite (fun _ => ?_) fun _ => .unexpected
  · refine .bind (.discard .advance) fun _ _ => hnested.bind fun first hfirst => ?_
    refine .bind (.discard .expect) fun _ _ => hnested.bind fun last hlast => ?_
    -- With or without a step, what remains is the block.
    have hloop {step : Option Expr} (hstep : Headed T (Node.ofExpr? step)) {body : Block}
        (hbody : Headed T [.block body]) : Headed T [(Stmt.countingLoop
          ⟨keyword.range.start, body.range.stop⟩ (nameOf name) first last step body).node] := by
      refine .node (Node.headed_append.2 ⟨Node.headed_append.2 ⟨hleaf, ?_⟩, hbody⟩) hstart
      exact Node.headed_append.2 ⟨hfirst, Node.headed_append.2 ⟨hlast, hstep⟩⟩
    refine .peek fun u _ _ => .ite (fun _ => ?_) fun _ => .pure_bind ?_
    · refine (marked_draws hnested).bind fun step hstep => ?_
      exact (hblock indent).bind fun body hbody => .pure ⟨hloop hstep hbody.1, hbody.2⟩
    · refine (hblock indent).of_any.bind fun body hbody => .pure ⟨?_, hbody.2⟩
      exact @hloop none Node.headed_nil _ hbody.1
  · refine .bind (.discard .advance) fun _ _ => hnested.bind fun collection hcollection => ?_
    refine (hblock indent).bind fun body hbody => .pure ⟨.node ?_ hstart, hbody.2⟩
    exact Node.headed_append.2 ⟨hleaf, Node.headed_append.2 ⟨hcollection, hbody.1⟩⟩

theorem function_draws (indent : Int) :
    Draws T (fun t => t.isIdentifier = true) (function nested block indent)
      (Drawn T fun s => [s.node]) := by
  refine .bind .advance fun name ⟨hname, hword⟩ => .bind (.discard .advance) fun _ _ => ?_
  refine .bind (listItems_draws (parameter_draws hnested)) fun parameters hparameters => ?_
  refine .bind (.discard .expect) fun _ _ => .atLineEnd fun _ => ?_
  have hcode := Token.isLayout_of_identifier hword
  have hstart : Token.CodeAt T name.range.start := ⟨name, hname, hcode, rfl⟩
  have hnames : Headed T ((nameOf name).node :: parameters.1.map .parameter) :=
    Node.headed_append.2 ⟨headed_nameOf hname hcode, Node.headed_map.2 hparameters⟩
  refine .ite (fun _ => ?_) fun _ => ?_
  · refine (hblock indent).bind fun body hbody => .pure ⟨.node ?_ hstart, hbody.2⟩
    exact Node.headed_append.2 ⟨hnames, hbody.1⟩
  · refine hnested.bind fun value hvalue => .bind .endOfLine fun _ _ => .pure ⟨.node ?_ hstart, ?_⟩
    · exact Node.headed_append.2 ⟨hnames, hvalue⟩
    · exact List.forall_mem_nil _

theorem statement_draws (indent : Int) :
    Draws T P (statement nested block indent) (Drawn T fun s => [s.node]) := by
  refine .peek fun t ht _ => ?_
  have hcode {word : String} (h : t.isKeyword word = true) :
      ∀ u, u = t → u.isLayout = false := fun u hu => hu ▸ Token.isLayout_of_keyword h
  refine .ite (fun h => (conditional_draws hnested hblock indent).of_imp (hcode h)) fun _ => ?_
  refine .ite (fun h => (forLoop_draws hnested hblock indent).of_imp (hcode h)) fun _ => ?_
  refine .ite (fun h => (whileLoop_draws hnested hblock indent).of_imp (hcode h)) fun _ => ?_
  refine .ite (fun _ => .fail ht) fun _ => .startsFunction fun starts => ?_
  refine .ite (fun hstarts => ?_) fun _ => ?_
  · exact (function_draws hnested hblock indent).of_imp fun u hu => hu.2 hstarts
  · exact (simple_draws hnested indent).bind fun s hs => .pure ⟨hs, List.forall_mem_nil _⟩

end

/-! ## Suites, blocks and scripts -/

theorem ownComments_headed (layout : List Token) :
    Headed T ((ownComments layout).map Stmt.node) := by
  induction layout with
  | nil => exact Node.headed_nil
  | cons t layout ih =>
    rw [ownComments_cons]
    split
    · exact Node.headed_cons.2 ⟨nofun, Node.headed_nil, ih⟩
    · exact ih

section

variable {read : Int → Parser (Mended Stmt)}
  (hread : ∀ indent, Draws T (fun _ => True) (read indent) (Drawn T fun s => [s.node]))
  {ctx : Context} {first : Token} {more : List Token}

section
include hread

/-- A malformed statement begins with the first token that was passed over. -/
theorem attempt_drawn (indent : Int) (hend : T ctx.endToken) (hcode : first.isLayout = false)
    (hts : ∀ t ∈ first :: more, T t) :
    (∀ t ∈ (attempt read indent ctx first more).2, T t) ∧
      Drawn T (fun s => [s.node]) (attempt read indent ctx first more).1 := by
  have hfirst : T first := hts first List.mem_cons_self
  have hresync {stopped : List Token} (h : ∀ t ∈ stopped, T t) : ∀ t ∈ resync indent stopped, T t :=
    forall_mem_suffix ((resync_suffix indent stopped).trans (List.dropWhile_suffix _)) h
  have hmalformed {range : Range} {fault : Fault} (hfault : fault.AtToken T)
      (hrange : range.start = first.range.start) :
      Drawn T (fun s : Stmt => [s.node]) ⟨.malformed range fault.cause, [fault]⟩ :=
    ⟨.node Node.headed_nil ⟨first, hfirst, hcode, hrange.symm⟩, List.forall_mem_singleton.2 hfault⟩
  -- A line that is indented too far stops at its first token, any other where its reader stops.
  refine attempt_cases
    (P := fun s rest => (∀ t ∈ rest, T t) ∧ Drawn T (fun s => [s.node]) s) ?_ ?_
  · exact ⟨hresync hts, @hmalformed _ ⟨.indentation, first.range⟩ ⟨first, hfirst, rfl⟩ rfl⟩
  · refine wp_mono (hread indent hend hts trivial) (fun _ _ => id) fun fault stopped h => ?_
    exact ⟨hresync h.1, hmalformed h.2 rfl⟩

theorem suiteItem_draws (indent : Int) :
    Draws T P (suiteItem read indent) fun o => ∀ item ∈ o, Drawn T (List.map Stmt.node) item := by
  intro ctx ts hend hts _
  refine wp_suiteItem ⟨hts, nofun⟩ fun first more hdrop _ => ?_
  have hcode : first.isLayout = false := Token.isLayout_of_dropWhile hdrop
  have hline : ∀ t ∈ first :: more, T t := hdrop ▸ forall_mem_suffix (List.dropWhile_suffix _) hts
  obtain ⟨hrest, hdrawn⟩ := attempt_drawn hread indent hend hcode hline
  refine ⟨?_, ?_⟩
  · split
    · exact hrest
    · exact (List.forall_mem_cons.1 hline).2
  · rintro _ ⟨⟩
    refine ⟨?_, hdrawn.2⟩
    rw [List.map_append]
    exact Node.headed_append.2 ⟨ownComments_headed _, hdrawn.1⟩

theorem suite_draws (indent : Int) :
    Draws T P (suite read indent) (Drawn T (List.map Stmt.node)) := by
  refine .bind (.collect (suiteItem_draws hread indent)) fun items hitems => .pure ⟨?_, ?_⟩
  · refine Node.headed_map.2 fun s hs => ?_
    obtain ⟨item, hitem, hmem⟩ := List.mem_flatMap.1 hs
    exact Node.headed_map.1 (hitems item hitem).1 s hmem
  · intro fault hfault
    obtain ⟨item, hitem, hmem⟩ := List.mem_flatMap.1 hfault
    exact (hitems item hitem).2 fault hmem

end

end

theorem block_draws (n : Nat) (header : Int) :
    Draws T P (block n header) (Drawn T fun b => [.block b]) := by
  induction n generalizing P header with
  | zero =>
    intro ctx ts hend hts _
    refine wp_indented (fun cause => ⟨hts, _, lookahead_of_forall 0 hend hts, rfl⟩) ?_
    intro first more hdrop _
    refine (wp_fail _ _).2 ⟨hts, first, ?_, rfl⟩
    exact forall_mem_suffix (List.dropWhile_suffix Token.isLayout) hts first
      (hdrop ▸ List.mem_cons_self)
  | succ n ih =>
    intro ctx ts hend hts hany
    refine wp_indented (fun cause => ⟨hts, _, lookahead_of_forall 0 hend hts, rfl⟩) ?_
    intro first more hdrop _
    have hstatement := fun indent =>
      @statement_draws T (fun _ => True) _ (expression_draws n) _ (fun header => ih header) indent
    refine (wp_bind _ _).2 (wp_imp (suite_draws hstatement _ hend hts hany) ?_)
    rintro body rest ⟨hrest, hbody⟩
    refine ⟨hrest, Node.headed_cons.2 ⟨nofun, ?_, Node.headed_nil⟩, hbody.2⟩
    rw [Node.children, blockOf_statements]
    exact hbody.1

theorem script_draws : Draws T P script (Drawn T (List.map Stmt.node)) := by
  have hstatement := fun indent =>
    @statement_draws T (fun _ => True) _ (expression_draws nestingLimit) _
      (block_draws nestingLimit) indent
  refine .bind (suite_draws hstatement 0) fun body hbody => fun ctx ts _ hts _ => ⟨?_, ?_, hbody.2⟩
  · split
    · exact List.forall_mem_nil _
    · exact hts
  · rw [List.map_append]
    refine Node.headed_append.2 ⟨hbody.1, ?_⟩
    split
    · exact ownComments_headed _
    · exact Node.headed_nil

end PineScript.Parser

namespace PineScript.Program

/-- A token of a document, or the one that stands behind it. -/
def Reads (ts : List Token) (t : Token) : Prop := t ∈ ts ∨ t = .endOfInput (finishOf ts)

/-- In the tree of any tokens all code begins with one of them, and every fault lies at one. -/
theorem parse_drawn (ts : List Token) :
    Node.Headed (Reads ts) ((parse ts).1.body.map Stmt.node) ∧
      ∀ fault ∈ (parse ts).2, fault.AtToken (Reads ts) := by
  have hscript := @Parser.script_draws (Reads ts) (fun _ => True) ⟨finishOf ts, false, none⟩ ts
    (.inr rfl) (fun _ => .inl) trivial
  -- Scripts do not stop at faults, but the same would hold if they did.
  unfold Parser.wp at hscript
  unfold parse
  split at hscript
  · rename_i hrun
    simp only [hrun]
    exact hscript.2
  · rename_i hrun
    simp only [hrun]
    exact ⟨Node.headed_nil, List.forall_mem_singleton.2 hscript.2⟩

end PineScript.Program
