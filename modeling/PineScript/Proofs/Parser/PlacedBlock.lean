import PineScript.Proofs.Parser.Faults
import PineScript.Proofs.Parser.Onward
import PineScript.Proofs.Parser.PlacedStmt

/-!
# Places of statements with a block

A statement with a block is placed around it. The faults that were mended in the block lie in source
order between the code where the statement starts and the code that it leaves, and each malformed
statement begins no later than its fault.
-/

namespace PineScript.Parser

open Range (Chain)
open Node (Placed)

variable {α : Type} {finish : Position} {start ts mid rest : List Token} {ms ns : List Node}
  {faults more : List Fault} {ctx : Context}

/-! ## Nodes with the faults mended in them -/

/-- What was read between `ts` and `rest`, with the faults that were mended. -/
structure Mends (finish : Position) (ts rest : List Token) (ns : List Node) (faults : List Fault) :
    Prop where
  ahead : Ahead finish ts rest
  placed : Placed (startOf finish ts) (startOf finish rest) ns
  sorted : Chain (codeStart finish ts) (codeStart finish rest)
    (faults.map fun fault => .point fault.range.start)
  matched : List.Forall₂ (fun x fault => x.1.start ≤ fault.range.start) (Node.malformed ns) faults

namespace Mends

theorem of_placed (h : Ahead finish ts rest)
    (hplaced : Placed (startOf finish ts) (startOf finish rest) ns) (hns : Node.malformed ns = []) :
    Mends finish ts rest ns [] :=
  ⟨h, hplaced, h.code_le, by rw [hns]; exact .nil⟩

theorem append (h : Mends finish ts mid ms faults) (h' : Mends finish mid rest ns more) :
    Mends finish ts rest (ms ++ ns) (faults ++ more) where
  ahead := h.ahead.trans h'.ahead
  placed := h.placed.append h'.placed
  sorted := by
    rw [List.map_append]
    exact h.sorted.append h'.sorted
  matched := by
    rw [Node.malformed_append]
    exact List.rel_append h.matched h'.matched

/-- Nodes around others, from an earlier place on, that are not malformed themselves. -/
theorem around (h : Mends finish mid rest ms faults) (hmid : Ahead finish ts mid)
    (hplaced : Placed (startOf finish ts) (startOf finish rest) ns)
    (hns : Node.malformed ns = Node.malformed ms) : Mends finish ts rest ns faults where
  ahead := hmid.trans h.ahead
  placed := hplaced
  sorted := h.sorted.mono hmid.code_le (Position.le_refl _)
  matched := hns ▸ h.matched

/-- A statement begins with its header, whose parts stand before the block, and ends with the
block. -/
theorem statement {s : Stmt} {body : Block} {parts : List Node}
    (h : Mends finish mid rest [.block body] faults) (hmid : Ahead finish ts mid)
    (hparts : Placed s.range.start (startOf finish mid) parts)
    (hstart : startOf finish ts ≤ s.range.start) (hchildren : s.children = parts ++ [.block body])
    (hstop : s.range.stop = body.range.stop)
    (hs : Node.malformed [s.node] = Node.malformed [.block body]) :
    Mends finish ts rest [s.node] faults := by
  refine h.around hmid ?_ hs
  refine (hparts.append h.placed).parent ?_ ?_ ?_ ?_
  · rwa [s.range_node]
  · rw [s.range_node]
    exact Position.le_refl _
  · rwa [s.children_node]
  · rwa [s.range_node]

end Mends

/-- From tokens in order a reader goes ahead and mends what it cannot read. -/
def Mending (p : Parser (Mended α)) (nodes : α → List Node) : Prop :=
  ∀ ⦃ctx start ts⦄, Ahead ctx.finish start ts →
    wp p ctx ts (fun m rest => Mends ctx.finish ts rest (nodes m.value) m.faults)
      (Stops ctx.finish start)

theorem Mending.wp {p : Parser (Mended α)} {nodes : α → List Node}
    {Q : Mended α → List Token → Prop} (hp : Mending p nodes) (h : Ahead ctx.finish start ts)
    (hQ : ∀ m rest, Mends ctx.finish ts rest (nodes m.value) m.faults → Q m rest) :
    Parser.wp p ctx ts Q (Stops ctx.finish start) :=
  wp_imp (hp h) hQ

variable {nested : Parser Expr} (hnested : Places nested fun e => [.expr e])
  {block : Int → Parser (Mended Block)} (hblock : ∀ header, Mending (block header) fun b => [.block b])

/-! ## Conditionals -/

section
include hnested hblock

/-- A branch begins with its key word and ends with what hangs on it. -/
theorem wp_branch {indent : Int} {otherwise : Parser (Mended Otherwise)} {keyword : Token}
    (hotherwise : Mending otherwise Otherwise.nodes) (hts : Ahead ctx.finish start ts)
    (hkeyword : Taken ctx.finish ts keyword mid) :
    wp (branch nested block indent otherwise keyword) ctx mid
      (fun b rest => Mends ctx.finish ts rest [.stmt (.conditional b.value)] b.faults)
      (Stops ctx.finish start) := by
  have hmid : Ahead ctx.finish start mid := hts.trans hkeyword.ahead
  unfold branch
  simp only [wp_bind, wp_pure]
  refine hnested.wp hmid fun condition behind hbehind hcondition => ?_
  refine (hblock indent).wp (hmid.trans hbehind) fun body last hbody => ?_
  refine hotherwise.wp (hmid.trans (hbehind.trans hbody.ahead)) fun other rest hother => ?_
  refine (hbody.append hother).around (hkeyword.ahead.trans hbehind) ?_
    (Node.malformed_conditional _)
  have hchildren := (hcondition.behind hkeyword.start_le_stop).append hbody.placed
  -- The branch ends with its block only if nothing hangs on it.
  rcases other with ⟨other | other | other, faults⟩
  · exact (hchildren.within hother.ahead.start_le).parent hkeyword.start (Position.le_refl _) rfl rfl
  · exact (hchildren.append hother.placed).parent hkeyword.start (Position.le_refl _) rfl rfl
  · exact (hchildren.append hother.placed).parent hkeyword.start (Position.le_refl _) rfl rfl

end

theorem wp_takeElse {indent : Int} {Q : Bool → List Token → Prop} {E : Fault → List Token → Prop}
    (hts : Ahead ctx.finish start ts) (hstay : Q false ts)
    (htake : ∀ rest, Ahead ctx.finish ts rest → Q true rest) : wp (takeElse indent) ctx ts Q E := by
  cases helse : elseAhead indent ts with
  | none => exact (wp_of_ok (by simp [takeElse, helse])).2 hstay
  | some line =>
    have hline : Ahead ctx.finish ts line := hts.of_suffix (elseAhead_suffix helse)
    have hrun : takeElse indent ctx ts = .ok true (line.dropWhile ctx.skips).tail := by
      simp [takeElse, helse, discard_eq_map, advance_apply]
    exact (wp_of_ok hrun).2 (htake _ (hline.trans hline.taken.ahead))

section
include hnested hblock

theorem otherwiseFor_mending (indent : Int) (bound : List Token) :
    Mending (otherwiseFor nested block indent bound) Otherwise.nodes := by
  have hnothing {ctx : Context} {start ts : List Token} (hts : Ahead ctx.finish start ts) :
      Mends ctx.finish ts ts (Otherwise.nothing).nodes [] :=
    .of_placed hts.refl (Node.placed_nil.2 (Position.le_refl _)) Node.malformed_nil
  induction bound with
  | nil => exact fun ctx start ts hts => hnothing hts
  | cons _ bound ih =>
    intro ctx start ts hts
    unfold otherwiseFor
    simp only [wp_bind]
    refine wp_takeElse hts (hnothing hts) fun mid hmid => ?_
    simp only [Bool.not_true, Bool.false_eq_true, ↓reduceIte, wp_bind, wp_peek, wp_ite]
    split
    · refine wp_take (hts.trans hmid) fun behind hkeyword => ?_
      refine wp_imp (wp_branch hnested hblock ih (hts.trans hmid) hkeyword) ?_
      exact fun b rest hb => hb.around hmid (hb.placed.behind hmid.start_le) rfl
    · refine (hblock indent).wp (hts.trans hmid) fun b rest hb => ?_
      exact hb.around hmid (hb.placed.behind hmid.start_le) rfl

theorem conditional_mending (indent : Int) :
    Mending (conditional nested block indent) fun s => [s.node] := by
  have hotherwise : Mending (otherwise nested block indent) Otherwise.nodes := by
    intro ctx start ts hts
    rw [wp_otherwise]
    exact otherwiseFor_mending hnested hblock indent (ctx.endToken :: ts) hts
  intro ctx start ts hts
  unfold conditional
  simp only [wp_bind, wp_pure]
  refine wp_take hts fun mid hkeyword => ?_
  exact wp_branch hnested hblock hotherwise hts hkeyword

/-! ## Loops -/

theorem whileLoop_mending (indent : Int) :
    Mending (whileLoop nested block indent) fun s => [s.node] := by
  intro ctx start ts hts
  unfold whileLoop
  simp only [wp_bind, wp_pure]
  refine wp_take hts fun mid hkeyword => ?_
  refine hnested.wp (hts.trans hkeyword.ahead) fun condition last hlast hcondition => ?_
  have hheader : Ahead ctx.finish ts last := hkeyword.ahead.trans hlast
  refine (hblock indent).wp (hts.trans hheader) fun body rest hbody => ?_
  exact hbody.statement hheader (hcondition.behind hkeyword.start_le_stop) hkeyword.start rfl rfl
    ((Node.malformed_stmt rfl).trans (by simp [Stmt.children]))

theorem forLoop_mending (indent : Int) :
    Mending (forLoop nested block indent) fun s => [s.node] := by
  intro ctx start ts hts
  unfold forLoop
  simp only [wp_bind, wp_peek, wp_ite, wp_discard, wp_pure, wp_map]
  refine wp_take hts fun behind hkeyword => ?_
  refine wp_expect_take (hts.trans hkeyword.ahead) fun mid hname => ?_
  have hmid : Ahead ctx.finish ts mid := hkeyword.ahead.trans hname.ahead
  -- Loops of both kinds have the name as their first child.
  have hcounter := (hname.leaf (n := (nameOf (ctx.lookahead 0 behind)).node) rfl rfl).behind
    (Position.le_trans hkeyword.start_le_stop hname.start)
  split
  · refine wp_take (hts.trans hmid) fun from' hequals => ?_
    refine hnested.wp (hts.trans (hmid.trans hequals.ahead)) fun first mid₁ hmid₁ hfirst => ?_
    have hto : Ahead ctx.finish ts mid₁ := hmid.trans (hequals.ahead.trans hmid₁)
    refine wp_expect_take (hts.trans hto) fun from₂ hword => ?_
    refine hnested.wp (hts.trans (hto.trans hword.ahead)) fun last mid₂ hmid₂ hlast => ?_
    have hby : Ahead ctx.finish ts mid₂ := hto.trans (hword.ahead.trans hmid₂)
    have hbounds := (hcounter.append (hfirst.behind hequals.ahead.start_le)).append
      (hlast.behind hword.ahead.start_le)
    -- With or without a step, what remains is the block.
    have hloop (step : Option Expr) {last' : List Token} (hlast' : Ahead ctx.finish mid₂ last')
        (hstep : Placed (startOf ctx.finish mid₂) (startOf ctx.finish last') (Node.ofExpr? step)) :
        wp (block indent) ctx last' (fun body rest => Mends ctx.finish ts rest
          [(Stmt.countingLoop ⟨(ctx.lookahead 0 ts).range.start, body.value.range.stop⟩
            (nameOf (ctx.lookahead 0 behind)) first last step body.value).node] body.faults)
          (Stops ctx.finish start) := by
      have hheader : Ahead ctx.finish ts last' := hby.trans hlast'
      refine (hblock indent).wp (hts.trans hheader) fun body rest hbody => ?_
      exact hbody.statement hheader (hbounds.append hstep) hkeyword.start rfl rfl
        ((Node.malformed_stmt rfl).trans (by simp [Stmt.children]))
    split
    · refine wp_take (hts.trans hby) fun from₃ hword₃ => ?_
      refine hnested.wp (hts.trans (hby.trans hword₃.ahead)) fun step last' hlast' hstep => ?_
      exact hloop (some step) (hword₃.ahead.trans hlast') (hstep.behind hword₃.ahead.start_le)
    · exact hloop none hby.refl (Node.placed_nil.2 (Position.le_refl _))
  · split
    · refine wp_take (hts.trans hmid) fun from' hin => ?_
      have hfrom : Ahead ctx.finish ts from' := hmid.trans hin.ahead
      refine hnested.wp (hts.trans hfrom) fun collection last hlast hcollection => ?_
      have hheader : Ahead ctx.finish ts last := hfrom.trans hlast
      refine (hblock indent).wp (hts.trans hheader) fun body rest hbody => ?_
      have hparts := hcounter.append (hcollection.behind hin.ahead.start_le)
      exact hbody.statement hheader hparts hkeyword.start rfl rfl
        ((Node.malformed_stmt rfl).trans (by simp [Stmt.children]))
    · exact (hts.trans hmid).stops _

/-! ## Functions and all statements -/

theorem function_mending (indent : Int) :
    Mending (function nested block indent) fun s => [s.node] := by
  intro ctx start ts hts
  unfold function atLineEnd
  simp only [wp_bind, wp_discard, wp_peek, wp_pure, wp_ite]
  refine wp_take hts fun behind hname => wp_take (hts.trans hname.ahead) fun inside hopen => ?_
  have hinside : Ahead ctx.finish ts inside := hname.ahead.trans hopen.ahead
  refine wp_listItems (parameter_places hnested) (hts.trans hinside) ?_
  intro parameters mid close behind' hmid hparameters hclose
  have hlist : Ahead ctx.finish ts behind' := hinside.trans (hmid.trans hclose.ahead)
  refine wp_expect_take (hts.trans hlist) fun last harrow => ?_
  have hheader : Ahead ctx.finish ts last := hlist.trans harrow.ahead
  -- The parameters end in front of the parenthesis, so the arrow is behind them.
  have harrow' : Ahead ctx.finish mid last := hclose.ahead.trans harrow.ahead
  rw [← List.map_eq_flatMap] at hparameters
  have hnames := (hname.leaf (n := (nameOf (ctx.lookahead 0 ts)).node) rfl rfl).append
    (hparameters.behind hopen.ahead.start_le)
  split
  · refine (hblock indent).wp (hts.trans hheader) fun body rest hbody => ?_
    exact hbody.statement hheader (hnames.within harrow'.start_le) hname.start rfl rfl
      ((Node.malformed_stmt rfl).trans (by simp [Stmt.children]))
  · refine hnested.wp (hts.trans hheader) fun value rest hrest hvalue => ?_
    refine wp_endOfLine ?_ (hts.trans (hheader.trans hrest)).stops
    refine .of_placed (hheader.trans hrest) ?_ ((Node.malformed_stmt rfl).trans (by simp [Stmt.children]))
    have hchildren := hnames.append (hvalue.behind harrow'.start_le)
    exact hchildren.parent hname.start (Position.le_refl _) rfl rfl

end

/-- Looking for a function takes nothing. -/
theorem wp_startsFunction {Q : Bool → List Token → Prop} {E : Fault → List Token → Prop}
    (hQ : ∀ b, Q b ts) : wp startsFunction ctx ts Q E := hQ _

section
include hnested hblock

theorem statement_mending (indent : Int) :
    Mending (statement nested block indent) fun s => [s.node] := by
  intro ctx start ts hts
  unfold statement
  simp only [wp_bind, wp_peek, wp_ite]
  split
  · exact conditional_mending hnested hblock indent hts
  split
  · exact forLoop_mending hnested hblock indent hts
  split
  · exact whileLoop_mending hnested hblock indent hts
  split
  · exact hts.stops _
  refine wp_startsFunction fun starts => ?_
  split
  · exact function_mending hnested hblock indent hts
  · have hsimple := wp_and (simple_places hnested indent hts)
      (simple_yields (.any nested) indent ctx ts)
    refine wp_mono hsimple ?_ (fun _ _ => And.left)
    rintro s rest ⟨⟨hrest, hs⟩, hsimple⟩
    exact .of_placed hrest hs hsimple.malformed

end

end PineScript.Parser
