import PineScript.Parser.Expr
import PineScript.Proofs.Parser.Ahead

/-!
# Places of expressions

Every reader of expressions places what it reads between where it starts and where it leaves off.
A node takes its start from its first token or first child and its end from its last one.
-/

namespace PineScript.Parser

open Range (Chain)
open Node (Placed)

variable {nested : Parser Expr} (hnested : Places nested fun e => [.expr e])

/-! ## What stands alone, calls and subscripts -/

section
include hnested

theorem primary_places : Places (primary nested) fun e => [.expr e] := by
  intro ctx start ts hts
  unfold primary
  simp only [wp_bind, wp_peek]
  split
  · simp only [wp_bind, wp_discard, wp_pure]
    exact wp_take hts fun rest ht => ⟨ht.ahead, (ht.leaf rfl rfl).behind ht.start⟩
  · simp only [wp_ite, wp_bind, wp_discard, wp_pure, wp_bracketed]
    split
    · exact wp_take hts fun rest ht => ⟨ht.ahead, (ht.leaf rfl rfl).behind ht.start⟩
    · split
      · refine wp_take hts fun inside hopen => ?_
        refine hnested.wp (hts.trans hopen.ahead) fun e mid hmid he => ?_
        have hinner : Ahead ctx.finish ts mid := hopen.ahead.trans hmid
        refine wp_expect_take (hts.trans hinner) fun rest hclose => ?_
        -- The parentheses do not belong to the range of what they enclose.
        exact ⟨hinner.trans hclose.ahead,
          he.mono hopen.ahead.start_le hclose.ahead.start_le⟩
      · exact hts.stops _

theorem argument_places : Places (argument nested) fun a => [a.node] := by
  intro ctx start ts hts
  unfold argument
  simp only [wp_bind, wp_peek, wp_peekAt, wp_ite, wp_discard, wp_pure]
  split
  · refine wp_take hts fun second hname => wp_take (hts.trans hname.ahead) fun third hequals => ?_
    have hthird : Ahead ctx.finish ts third := hname.ahead.trans hequals.ahead
    refine hnested.wp (hts.trans hthird) fun value rest hrest hvalue => ⟨hthird.trans hrest, ?_⟩
    have hchildren := (hname.leaf (n := (nameOf (ctx.lookahead 0 ts)).node) rfl rfl).append
      (hvalue.behind hequals.ahead.start_le)
    exact hchildren.parent hname.start (Position.le_refl _) rfl rfl
  · exact hnested.wp hts fun value rest hrest hvalue => ⟨hrest, hvalue⟩

end

theorem listItem_places {α : Type} {item : Parser α} {nodes : α → List Node}
    (hitem : Places item nodes) : Places (listItem item) fun o => o.toList.flatMap nodes := by
  intro ctx start ts hts
  unfold listItem
  simp only [wp_bind, wp_peek, wp_ite, wp_pure]
  split
  · exact ⟨hts.refl, Node.placed_nil.2 (Position.le_refl _)⟩
  · refine hitem.wp hts fun a mid hmid ha => ?_
    simp only [Option.toList_some, List.flatMap_singleton]
    split
    · simp only [wp_discard]
      refine wp_take (hts.trans hmid) fun rest hcomma => ?_
      exact ⟨hmid.trans hcomma.ahead, ha.within hcomma.ahead.start_le⟩
    · split
      · exact ⟨hmid, ha⟩
      · exact (hts.trans hmid).stops _

/-- The items of a list stand before the parenthesis that closes it. -/
theorem wp_listItems {α : Type} {item : Parser α} {nodes : α → List Node}
    (hitem : Places item nodes) {ctx : Context} {start ts : List Token}
    {Q : List α × Token → List Token → Prop} (hts : Ahead ctx.finish start ts)
    (hQ : ∀ items mid close rest, Ahead ctx.finish ts mid →
      Placed (startOf ctx.finish ts) (startOf ctx.finish mid) (items.flatMap nodes) →
      Taken ctx.finish mid close rest → Q (items, close) rest) :
    wp (listItems item) ctx ts Q (Stops ctx.finish start) := by
  unfold listItems
  simp only [wp_bracketed, wp_bind, wp_pure]
  refine (Places.collect (listItem_places hitem)).wp hts fun items mid hmid hitems => ?_
  exact wp_take (hts.trans hmid) fun rest hclose => hQ items mid _ rest hmid hitems hclose

/-- A step that carries on an expression in front of it keeps it placed from where it began. -/
def CarriesOn (step : Expr → Parser (Option Expr)) : Prop :=
  ∀ ⦃e lo ctx start ts⦄, Ahead ctx.finish start ts → Placed lo (startOf ctx.finish ts) [.expr e] →
    wp (step e) ctx ts
      (fun o rest => Ahead ctx.finish ts rest ∧
        Placed lo (startOf ctx.finish rest) [.expr (o.getD e)])
      (Stops ctx.finish start)

theorem CarriesOn.iterate {step : Expr → Parser (Option Expr)} {p : Parser Expr}
    (hstep : CarriesOn step) (hp : Places p fun e => [.expr e]) :
    Places (do iterate step (← p)) fun e => [.expr e] := by
  intro ctx start ts hts
  simp only [wp_bind]
  refine hp.wp hts fun e mid hmid he => ?_
  refine wp_iterate (fun e rest => Ahead ctx.finish ts rest ∧
    Placed (startOf ctx.finish ts) (startOf ctx.finish rest) [.expr e]) ?_ ⟨hmid, he⟩
  rintro e mid ⟨hmid, he⟩
  refine wp_imp (hstep (hts.trans hmid) he) ?_
  exact fun o rest ho => ⟨hmid.trans ho.1, ho.2⟩

section
include hnested

theorem suffix_carriesOn : CarriesOn (suffix nested) := by
  intro e lo ctx start ts hts he
  have hfirst : Placed e.range.start (startOf ctx.finish ts) [.expr e] := he.from_start
  unfold suffix
  simp only [wp_bind, wp_peek, wp_ite, wp_discard, wp_pure, wp_bracketed]
  split
  · refine wp_take hts fun inside hopen => ?_
    refine wp_listItems (argument_places hnested) (hts.trans hopen.ahead) ?_
    intro arguments mid close rest hmid harguments hclose
    refine ⟨hopen.ahead.trans (hmid.trans hclose.ahead), ?_⟩
    rw [← List.map_eq_flatMap] at harguments
    have hchildren := hfirst.append (harguments.behind hopen.ahead.start_le)
    exact hchildren.around he.start_le (Position.le_refl _) hclose.start_le_end hclose.stop
  · split
    · refine wp_take hts fun inside hopen => ?_
      refine hnested.wp (hts.trans hopen.ahead) fun subscript mid hmid hsubscript => ?_
      have hinner : Ahead ctx.finish ts mid := hopen.ahead.trans hmid
      refine wp_expect_take (hts.trans hinner) fun rest hclose => ?_
      refine ⟨hinner.trans hclose.ahead, ?_⟩
      have hchildren := hfirst.append (hsubscript.behind hopen.ahead.start_le)
      exact hchildren.around he.start_le (Position.le_refl _) hclose.start_le_end hclose.stop
    · exact ⟨hts.refl, he⟩

theorem suffixed_places : Places (suffixed nested) fun e => [.expr e] :=
  (suffix_carriesOn hnested).iterate (primary_places hnested)

end

/-! ## Signs and operators -/

/-- The next sign is a token of its own. -/
theorem sign_advances : Advances sign fun lo hi o => Chain lo hi (o.toList.map Prod.snd) := by
  intro ctx start ts hts
  unfold sign
  simp only [wp_bind, wp_peek]
  split
  · exact ⟨hts.refl, Position.le_refl _⟩
  · simp only [wp_bind, wp_discard, wp_pure]
    exact wp_take hts fun rest ht => ⟨ht.ahead, ht.start, ht.proper, ht.stop⟩

/-- Signs in front of an operand are placed with it, each around what follows it. -/
theorem signs_placed {lo mid hi : Position} {signs : List (UnaryOp × Range)} {operand : Expr}
    (hsigns : Chain lo mid (signs.map Prod.snd)) (hoperand : Placed mid hi [.expr operand]) :
    Placed lo hi [.expr (signs.foldr (fun (op, r) e => .unary ⟨r.start, e.range.stop⟩ op e) operand)] := by
  induction signs generalizing lo with
  | nil => exact hoperand.behind hsigns
  | cons x signs ih =>
    obtain ⟨hlo, hproper, hchain⟩ := hsigns
    exact (ih hchain).parent_of_one hlo hproper rfl rfl

section
include hnested

theorem signed_places : Places (signed nested) fun e => [.expr e] := by
  intro ctx start ts hts
  unfold signed
  simp only [wp_bind, wp_pure]
  refine sign_advances.collect_chain.wp hts fun signs mid hmid hsigns => ?_
  refine (suffixed_places hnested).wp (hts.trans hmid) fun operand rest hrest hoperand => ?_
  exact ⟨hmid.trans hrest, signs_placed hsigns hoperand⟩

end

theorem operation_carriesOn (level : List BinaryOp) {tighter : Parser Expr}
    (htighter : Places tighter fun e => [.expr e]) : CarriesOn (operation level tighter) := by
  intro left lo ctx start ts hts hleft
  unfold operation
  simp only [wp_bind, wp_peek]
  refine wp_joinLine_ahead hts fun line hline => ?_
  split
  · exact ⟨hline, hleft.within hline.start_le⟩
  · simp only [wp_bind, wp_discard, wp_pure]
    refine wp_take (hts.trans hline) fun behind hop => ?_
    have hbehind : Ahead ctx.finish ts behind := hline.trans hop.ahead
    refine wp_passLayout_ahead (hts.trans hbehind) fun mid hmid => ?_
    have hright : Ahead ctx.finish ts mid := hbehind.trans hmid
    refine htighter.wp (hts.trans hright) fun right rest hrest hplaced => ⟨hright.trans hrest, ?_⟩
    have hchildren := hleft.from_start.append (hplaced.behind hright.start_le)
    exact hchildren.parent hleft.start_le (Position.le_refl _) rfl rfl

section
include hnested

theorem operations_places (levels : List (List BinaryOp)) :
    Places (operations nested levels) fun e => [.expr e] := by
  induction levels with
  | nil => exact signed_places hnested
  | cons level tighter ih => exact (operation_carriesOn level ih).iterate ih

theorem ternary_places : Places (ternary nested) fun e => [.expr e] := by
  intro ctx start ts hts
  unfold ternary
  simp only [wp_bind, wp_peek, wp_ite, wp_discard, wp_pure]
  -- A question mark or colon may begin a line of its own; what it leads to may stand on the next.
  refine (operations_places hnested BinaryOp.levels).wp hts fun condition mid hmid hcondition => ?_
  refine wp_joinLine_ahead (hts.trans hmid) fun line hline => ?_
  split
  · refine wp_take (hts.trans (hmid.trans hline)) fun behind hquestion => ?_
    have hbehind : Ahead ctx.finish mid behind := hline.trans hquestion.ahead
    refine wp_passLayout_ahead (hts.trans (hmid.trans hbehind)) fun first hfirst => ?_
    have htrue : Ahead ctx.finish mid first := hbehind.trans hfirst
    refine hnested.wp (hts.trans (hmid.trans htrue)) fun whenTrue mid' hmid' hwhenTrue => ?_
    have hso : Ahead ctx.finish ts mid' := hmid.trans (htrue.trans hmid')
    refine wp_joinLine_ahead (hts.trans hso) fun line' hline' => ?_
    refine wp_expect_take (hts.trans (hso.trans hline')) fun behind' hcolon => ?_
    have hbehind' : Ahead ctx.finish mid' behind' := hline'.trans hcolon.ahead
    refine wp_passLayout_ahead (hts.trans (hso.trans hbehind')) fun last hlast => ?_
    have hfalse : Ahead ctx.finish mid' last := hbehind'.trans hlast
    refine hnested.wp (hts.trans (hso.trans hfalse)) fun whenFalse rest hrest hwhenFalse => ?_
    refine ⟨hso.trans (hfalse.trans hrest), ?_⟩
    have hchildren := (hcondition.from_start.append (hwhenTrue.behind htrue.start_le)).append
      (hwhenFalse.behind hfalse.start_le)
    exact hchildren.parent hcondition.start_le (Position.le_refl _) rfl rfl
  · exact ⟨hmid.trans hline, hcondition.within hline.start_le⟩

end

/-- Expressions are placed between where their reader starts and where it leaves off. -/
theorem expression_places (n : Nat) : Places (expression n) fun e => [.expr e] := by
  induction n with
  | zero => exact fun ctx start ts hts => hts.stops _
  | succ n ih => exact ternary_places ih

end PineScript.Parser
