import PineScript.Proofs.Parser.PlacedExpr
import PineScript.Proofs.Parser.Suite

/-!
# Places of simple statements and parameters

Statements without a block and the parameters of functions are placed as expressions are: each
begins with its first token and ends with its last child, or with that token if it has none.
-/

namespace PineScript.Parser

open Range (Chain)
open Node (Placed)

variable {nested : Parser Expr} (hnested : Places nested fun e => [.expr e])

/-! ## Simple statements -/

section
include hnested

theorem jump_places (kind : JumpKind) : Places (jump nested kind) fun s => [s.node] := by
  intro ctx start ts hts
  unfold jump atLineEnd
  simp only [wp_bind, wp_peek, wp_pure, wp_ite]
  refine wp_take hts fun mid hkeyword => ?_
  split
  · exact ⟨hkeyword.ahead, (hkeyword.leaf rfl rfl).behind hkeyword.start⟩
  · refine hnested.wp (hts.trans hkeyword.ahead) fun value rest hrest hvalue => ?_
    refine ⟨hkeyword.ahead.trans hrest, ?_⟩
    exact hvalue.parent_of_one hkeyword.start hkeyword.start_le_stop rfl rfl

/-- The name, the sign and the value of a declaration, behind what may stand in front of them. -/
theorem declared_places {ctx : Context} {start ts mid : List Token} (hts : Ahead ctx.finish start ts)
    (hmid : Ahead ctx.finish ts mid) (modifier : Option Modifier) (typeName : Option String) :
    wp (do
        let name ← expect Token.isIdentifier .variableName
        discard <| expect (·.isOperator "=") .equals
        passLayout
        let value ← nested
        return Stmt.declaration ⟨(ctx.lookahead 0 ts).range.start, value.range.stop⟩ modifier typeName
          (nameOf name) value)
      ctx mid
      (fun s rest => Ahead ctx.finish ts rest ∧
        Placed (startOf ctx.finish ts) (startOf ctx.finish rest) [s.node])
      (Stops ctx.finish start) := by
  simp only [wp_bind, wp_discard, wp_pure]
  refine wp_expect_take (hts.trans hmid) fun behind hname => ?_
  refine wp_expect_take (hts.trans (hmid.trans hname.ahead)) fun behind' hequals => ?_
  have hsign : Ahead ctx.finish ts behind' := hmid.trans (hname.ahead.trans hequals.ahead)
  refine wp_passLayout_ahead (hts.trans hsign) fun last hlast => ?_
  refine hnested.wp (hts.trans (hsign.trans hlast)) fun value rest hrest hvalue => ?_
  refine ⟨hsign.trans (hlast.trans hrest), ?_⟩
  have hchildren := (hname.leaf (n := (nameOf (ctx.lookahead 0 mid)).node) rfl rfl).append
    (hvalue.behind (hequals.ahead.trans hlast).start_le)
  exact hchildren.parent hts.taken.start hmid.lookahead_le rfl rfl

theorem declaration_places : Places (declaration nested) fun s => [s.node] := by
  intro ctx start ts hts
  refine (wp_bind _ _).2 (wp_peek.2 ?_)
  dsimp only
  -- With or without a modifier and a type, the name is what comes next.
  split
  · refine (wp_bind _ _).2 ((wp_discard _).2 (wp_take hts fun mid hmodifier => ?_))
    refine (wp_bind _ _).2 (wp_peek.2 ((wp_bind _ _).2 ((wp_peekAt 1).2 ?_)))
    split
    · refine (wp_bind _ _).2 ((wp_map _ _).2 (wp_take (hts.trans hmodifier.ahead) fun rest htype => ?_))
      exact declared_places hnested hts (hmodifier.ahead.trans htype.ahead) _ _
    · exact declared_places hnested hts hmodifier.ahead _ none
  · refine (wp_bind _ _).2 (wp_peek.2 ((wp_bind _ _).2 ((wp_peekAt 1).2 ?_)))
    split
    · refine (wp_bind _ _).2 ((wp_map _ _).2 (wp_take hts fun rest htype => ?_))
      exact declared_places hnested hts htype.ahead _ _
    · exact declared_places hnested hts hts.refl _ none

theorem assignment_places (op : AssignOp) : Places (assignment nested op) fun s => [s.node] := by
  intro ctx start ts hts
  unfold assignment
  simp only [wp_bind, wp_discard, wp_pure]
  refine wp_take hts fun behind hname => wp_take (hts.trans hname.ahead) fun behind' hop => ?_
  have hsign : Ahead ctx.finish ts behind' := hname.ahead.trans hop.ahead
  refine wp_passLayout_ahead (hts.trans hsign) fun last hlast => ?_
  refine hnested.wp (hts.trans (hsign.trans hlast)) fun value rest hrest hvalue => ?_
  refine ⟨hsign.trans (hlast.trans hrest), ?_⟩
  have hchildren := (hname.leaf (n := (nameOf (ctx.lookahead 0 ts)).node) rfl rfl).append
    (hvalue.behind (hop.ahead.trans hlast).start_le)
  exact hchildren.parent hname.start (Position.le_refl _) rfl rfl

end

/-- Looking for a declaration takes nothing. -/
theorem wp_startsDeclaration {ctx : Context} {ts : List Token} {Q : Bool → List Token → Prop}
    {E : Fault → List Token → Prop} (hQ : ∀ b, Q b ts) : wp startsDeclaration ctx ts Q E := by
  unfold startsDeclaration
  simp only [wp_bind, wp_peek, wp_peekAt, wp_pure, wp_ite, hQ, ite_self]

section
include hnested

theorem simpleForm_places : Places (simpleForm nested) fun s => [s.node] := by
  intro ctx start ts hts
  unfold simpleForm
  simp only [wp_bind, wp_peek]
  split
  · exact jump_places hnested _ hts
  · simp only [wp_bind, wp_peekAt, wp_ite]
    refine wp_startsDeclaration fun starts => ?_
    split
    · exact declaration_places hnested hts
    · split
      · exact assignment_places hnested _ hts
      · exact (wp_bind _ _).2 (hnested.wp hts fun value rest hrest hvalue => ⟨hrest, hvalue⟩)

theorem simple_places (indent : Int) : Places (simple nested indent) fun s => [s.node] := by
  intro ctx start ts hts
  unfold simple
  simp only [wp_bind, wp_withMargin, wp_pure]
  refine (simpleForm_places hnested).wp hts fun s rest hrest hs => ?_
  exact wp_endOfLine ⟨hrest, hs⟩ (hts.trans hrest).stops

end

/-! ## Parameters -/

theorem parameterWord_advances :
    Advances parameterWord fun lo hi o => Chain lo hi (o.toList.map Token.range) := by
  intro ctx start ts hts
  unfold parameterWord
  simp only [wp_bind, wp_peek, wp_ite, wp_pure]
  split
  · exact wp_take hts fun rest ht => ⟨ht.ahead, ht.start, ht.proper, ht.stop⟩
  · exact ⟨hts.refl, Position.le_refl _⟩

section
include hnested

/-- A parameter begins with its first word and ends with its name or its default. -/
theorem parameter_places : Places (parameter nested) fun p => [.parameter p] := by
  intro ctx start ts hts
  unfold parameter
  simp only [wp_bind]
  refine parameterWord_advances.collect_chain.wp hts fun words mid hmid hwords => ?_
  split
  · rename_i first name hfirst hlast
    have hhead : (words.map Token.range).head? = some first.range := by simp [hfirst]
    have hend : (words.map Token.range).getLast? = some name.range := by simp [hlast]
    have hstart := (hwords.of_mem (List.mem_of_mem_head? hhead)).1
    have hname := hwords.of_mem (List.mem_of_getLast? hend)
    -- The words before the name are its type, so the name is the first child but not the start.
    have horder := hwords.start_le hhead hend
    have hleaf : Placed name.range.start (startOf ctx.finish mid) [(nameOf name).node] :=
      Node.placed_cons.2
        ⟨Position.le_refl _, Node.placed_nil.2 hname.2.1, Node.placed_nil.2 hname.2.2⟩
    simp only [wp_bind, wp_peek, wp_ite, wp_discard, wp_map, wp_pure]
    split
    · refine wp_take (hts.trans hmid) fun behind hequals => ?_
      have hbehind : Ahead ctx.finish ts behind := hmid.trans hequals.ahead
      refine hnested.wp (hts.trans hbehind) fun value rest hrest hvalue => ⟨hbehind.trans hrest, ?_⟩
      have hchildren := hleaf.append (hvalue.behind hequals.ahead.start_le)
      exact hchildren.parent hstart horder rfl rfl
    · exact ⟨hmid, hleaf.parent_of_one hstart horder rfl rfl⟩
  · exact (hts.trans hmid).stops _

end

end PineScript.Parser
