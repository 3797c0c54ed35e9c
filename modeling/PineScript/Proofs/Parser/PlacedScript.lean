import PineScript.Proofs.Parser.PlacedBlock

/-!
# Places in suites, blocks and scripts

A malformed statement stands for the tokens that recovery passed over: it begins with the first of
them and ends before what is left. So suites, blocks and scripts are placed whether or not all
their statements could be read.
-/

namespace PineScript.Parser

open Range (Chain)
open Node (Placed)

variable {finish : Position} {start ts mid rest : List Token} {ns : List Node} {faults : List Fault}
  {ctx : Context} {first : Token} {more stopped : List Token} {indent : Int}

/-! ## Recovery -/

theorem resync_suffix (indent : Int) (ts : List Token) : resync indent ts <:+ skipLine ts := by
  fun_induction resync indent ts with
  | case1 => exact List.suffix_refl _
  | case2 => exact List.suffix_refl _
  | case3 ts t more hdrop _ _ ih =>
    -- The next line is indented further, so it belongs to the statement and is passed over too.
    have hline : t :: more <:+ skipLine ts := by
      rw [← hdrop]
      exact List.dropWhile_suffix _
    have hmore : skipLine more <:+ more := List.dropWhile_suffix _
    exact ih.trans (hmore.trans ((List.suffix_cons t more).trans hline))

/-- Recovery passes over the first token, which is code. -/
theorem resync_behind (hcode : first.isLayout = false) (h : stopped <:+ first :: more) :
    resync indent stopped <:+ more := by
  have hkind : (first.kind != .newline) = true := by grind
  have hskip : skipLine (first :: more) = skipLine more := by simp [skipLine, hkind]
  refine (resync_suffix indent stopped).trans ?_
  rcases List.suffix_cons_iff.1 h with rfl | h
  · rw [hskip]
    exact List.dropWhile_suffix _
  · exact (List.dropWhile_suffix _).trans h

theorem consumed_append (front rest : List Token) : consumed (front ++ rest) rest = front := by
  simp [consumed]

/-- The code among some tokens ends with one of them. -/
theorem exists_codeRange (first : Token) (front : List Token) :
    ∃ last ∈ first :: front, codeRange first (first :: front) = first.range.span last.range := by
  unfold codeRange
  cases hlast : ((first :: front).filter (!·.isLayout)).getLast? with
  | none => exact ⟨first, List.mem_cons_self, rfl⟩
  | some last => exact ⟨last, (List.mem_filter.1 (List.mem_of_getLast? hlast)).1, rfl⟩

theorem codeStart_of_code (hcode : first.isLayout = false) :
    codeStart finish (first :: more) = first.range.start := by
  rw [codeStart, List.dropWhile_cons_of_neg (by simp [hcode])]
  rfl

/-- A malformed statement stands where the statement that stopped would have stood. -/
theorem Stops.mends {fault : Fault} (hcode : first.isLayout = false)
    (h : Stops finish (first :: more) fault stopped) :
    Mends finish (first :: more) (resync indent stopped)
      [(Stmt.malformed (codeRange first (consumed (first :: more) (resync indent stopped)))
        fault.cause).node] [fault] := by
  have hresumed : Ahead finish stopped (resync indent stopped) :=
    h.ahead.of_suffix ((resync_suffix indent stopped).trans (List.dropWhile_suffix _))
  have hbehind : resync indent stopped <:+ more := resync_behind hcode h.ahead.suffix
  -- Since the first token is passed over, the code that is lost has a first and a last token.
  obtain ⟨front, hfront⟩ := hbehind
  have hall : first :: more = (first :: front) ++ resync indent stopped := by
    rw [List.cons_append, hfront]
  have hconsumed : consumed (first :: more) (resync indent stopped) = first :: front := by
    rw [hall, consumed_append]
  obtain ⟨last, hlast, hrange⟩ := exists_codeRange first front
  have horder : InOrder finish ((first :: front) ++ resync indent stopped) := hall ▸ h.ahead.order
  obtain ⟨hstart, hproper, hstop⟩ := horder.split.1.of_mem (List.mem_map_of_mem hlast)
  rw [hconsumed, hrange]
  refine ⟨h.ahead.trans hresumed, ?_, ?_, ?_⟩
  · refine Node.placed_cons.2 ⟨Position.le_refl _, Node.placed_nil.2 ?_, Node.placed_nil.2 hstop⟩
    exact Position.le_trans hstart hproper
  · rw [codeStart_of_code hcode]
    exact ⟨h.start_le, Position.le_refl _, Position.le_trans h.le_code hresumed.code_le⟩
  · rw [Node.malformed_malformed]
    exact .cons h.start_le .nil

/-! ## Suites -/

/-- Own comments are placed among the layout they stand in. -/
theorem ownComments_placed {lo hi : Position} {layout : List Token}
    (h : Chain lo hi (layout.map Token.range)) :
    Placed lo hi ((ownComments layout).map Stmt.node) := by
  induction layout generalizing lo with
  | nil => exact Node.placed_nil.2 h
  | cons t layout ih =>
    obtain ⟨hlo, hproper, hrest⟩ := h
    rw [ownComments_cons]
    split
    · exact Node.placed_cons.2 ⟨hlo, Node.placed_nil.2 hproper, ih hrest⟩
    · exact (ih hrest).behind (Position.le_trans hlo hproper)

theorem ownComments_mends {layout : List Token} (h : InOrder finish (layout ++ rest)) :
    Mends finish (layout ++ rest) rest ((ownComments layout).map Stmt.node) [] :=
  .of_placed ⟨h, List.suffix_append layout rest⟩ (ownComments_placed h.split.1)
    (malformed_ownComments layout)

/-- What was read may be followed by tokens that are passed over. -/
theorem Mends.within (h : Mends finish ts mid ns faults) (hrest : Ahead finish mid rest) :
    Mends finish ts rest ns faults where
  ahead := h.ahead.trans hrest
  placed := h.placed.within hrest.start_le
  sorted := h.sorted.mono (Position.le_refl _) hrest.code_le
  matched := h.matched

variable {read : Int → Parser (Mended Stmt)} (hread : ∀ indent, Mending (read indent) fun s => [s.node])

section
include hread

theorem attempt_mends (indent : Int) (hts : Ahead ctx.finish start (first :: more))
    (hcode : first.isLayout = false) :
    Mends ctx.finish (first :: more) (attempt read indent ctx first more).2
      [(attempt read indent ctx first more).1.value.node]
      (attempt read indent ctx first more).1.faults := by
  refine attempt_cases
    (P := fun s rest => Mends ctx.finish (first :: more) rest [s.value.node] s.faults) ?_ ?_
  -- A line that is indented too far counts as a statement that stopped where it began.
  · have hstops : Stops ctx.finish (first :: more) ⟨.indentation, first.range⟩ (first :: more) := by
      refine ⟨hts.refl, Position.le_refl _, ?_⟩
      rw [codeStart_of_code hcode]
      exact Position.le_refl _
    exact hstops.mends hcode
  · exact wp_mono (hread indent hts.refl) (fun _ _ => id) fun fault stopped h => h.mends hcode

theorem suiteItem_mends (hts : Ahead ctx.finish start ts) (E : Fault → List Token → Prop) :
    wp (suiteItem read indent) ctx ts
      (fun o rest => Mends ctx.finish ts rest ((o.toList.flatMap Mended.value).map Stmt.node)
        (o.toList.flatMap Mended.faults)) E := by
  refine wp_suiteItem ?_ fun first more hdrop hindent => ?_
  · exact .of_placed hts.refl (Node.placed_nil.2 (Position.le_refl _)) Node.malformed_nil
  · have hcode : first.isLayout = false := Token.isLayout_of_dropWhile hdrop
    have hsplit : ts.takeWhile Token.isLayout ++ first :: more = ts := by
      rw [← hdrop, List.takeWhile_append_dropWhile]
    have hcomments := ownComments_mends (hsplit.symm ▸ hts.order_rest)
    rw [hsplit] at hcomments
    have hattempt := attempt_mends hread indent hcomments.ahead hcode
    have hitem := hcomments.append hattempt
    rw [List.nil_append, ← List.map_singleton, ← List.map_append] at hitem
    simp only [Option.toList_some, List.flatMap_singleton]
    split
    · exact hitem
    · rename_i hlong
      -- Nothing was read, so one token is passed over for the suite to go on.
      refine hitem.within (hattempt.ahead.refl.of_suffix ?_)
      rcases List.suffix_cons_iff.1 hattempt.ahead.suffix with hall | hshort
      · rw [hall]
        exact List.suffix_cons first more
      · exact absurd hshort.length_le hlong

theorem suite_mends (hts : Ahead ctx.finish start ts) (E : Fault → List Token → Prop) :
    wp (suite read indent) ctx ts
      (fun m rest => Mends ctx.finish ts rest (m.value.map Stmt.node) m.faults) E := by
  refine (wp_bind _ _).2 ?_
  refine wp_collect (fun items rest => Mends ctx.finish ts rest
    ((items.flatMap Mended.value).map Stmt.node) (items.flatMap Mended.faults)) ?_ ?_
  · intro items mid hitems
    refine wp_imp (suiteItem_mends hread hitems.ahead E) (fun o rest ho => ?_)
    simpa only [List.flatMap_append, List.map_append] using hitems.append ho
  · exact .of_placed hts.refl (Node.placed_nil.2 (Position.le_refl _)) Node.malformed_nil

end

/-- A suite that begins with a line of its indentation has a statement. -/
theorem suite_ne_nil (hdrop : ts.dropWhile Token.isLayout = first :: more)
    (hindent : indent ≤ indentOf indent first) :
    wp (suite read indent) ctx ts (fun m _ => m.value ≠ []) (fun _ _ => True) := by
  refine (wp_bind _ _).2 ?_
  refine wp_imp (wp_collect_head (suiteItem_of_first hdrop hindent)) ?_
  rintro items rest ⟨others, rfl⟩
  simp

/-! ## Blocks and scripts -/

/-- A block reaches from the first of its statements to the last. -/
theorem blockOf_placed {lo hi : Position} {ss : List Stmt} (hne : ss ≠ [])
    (h : Placed lo hi (ss.map Stmt.node)) : Placed lo hi [.block (blockOf finish ss)] := by
  rcases List.eq_nil_or_concat ss with rfl | ⟨front, last, heq⟩
  · exact absurd rfl hne
  -- The start of the range comes from one end of the list, its stop from the other.
  · obtain ⟨first, tail, rfl⟩ := List.exists_cons_of_ne_nil hne
    rw [List.concat_eq_append] at heq
    have hlast : (first :: tail).getLast? = some last := by simp [heq]
    have hrange : (Node.block (blockOf finish (first :: tail))).range =
        first.node.range.span last.node.range := by
      rw [Stmt.range_node, Stmt.range_node]
      simp [Node.range, blockOf, hlast, Block.range]
    have hchildren : (Node.block (blockOf finish (first :: tail))).children =
        front.map Stmt.node ++ [last.node] := by
      rw [Node.children, blockOf_statements, heq, List.map_append]
      rfl
    have hfrom := h.from_start
    rw [← List.map_cons, heq, List.map_append] at hfrom
    refine hfrom.parent ?_ ?_ hchildren ?_
    · rw [hrange]
      exact h.start_le
    · rw [hrange]
      exact Position.le_refl _
    · rw [hrange]
      rfl

/-- The lines below a header have the indentation of the first of them. -/
theorem indentOf_of_lt {header : Int} (h : header < indentOf header first) :
    indentOf (indentOf header first) first = indentOf header first := by
  cases hindent : first.indent with
  | none =>
    rw [indentOf, hindent] at h
    exact absurd h (Int.lt_irrefl header)
  | some indent => simp [indentOf, hindent]

theorem block_mending (n : Nat) (header : Int) : Mending (block n header) fun b => [.block b] := by
  induction n generalizing header with
  | zero =>
    -- The limit is reached; the fault is at the first code of the block.
    intro ctx start ts hts
    refine wp_indented hts.stops fun first more hdrop _ => ?_
    have hcode : codeStart ctx.finish ts = first.range.start := by
      rw [codeStart, hdrop]
      rfl
    refine (wp_fail _ _).2 ⟨hts, ?_, ?_⟩
    · exact Position.le_trans hts.start_le (hcode ▸ hts.start_le_code)
    · exact hcode ▸ Position.le_refl _
  | succ n ih =>
    intro ctx start ts hts
    refine wp_indented hts.stops fun first more hdrop hlt => (wp_bind _ _).2 ?_
    have hstatement := statement_mending (expression_places n) ih
    have hfirst := Int.le_of_eq (indentOf_of_lt hlt).symm
    refine wp_mono (wp_and (suite_mends hstatement hts (Stops ctx.finish start))
      (suite_ne_nil hdrop hfirst)) ?_ (fun _ _ => And.left)
    rintro body rest ⟨hbody, hvalue⟩
    exact hbody.around hts.refl (blockOf_placed hvalue hbody.placed) (by simp)

/-- A script that is in order is placed as a whole. -/
theorem script_mends (hts : InOrder ctx.finish ts) (E : Fault → List Token → Prop) :
    wp script ctx ts
      (fun body _ => Mends ctx.finish ts [] (body.value.map Stmt.node) body.faults) E := by
  have hrefl : Ahead ctx.finish ts ts := ⟨hts, List.suffix_refl ts⟩
  have hstatement := statement_mending (expression_places nestingLimit) (block_mending nestingLimit)
  refine (wp_bind _ _).2 (wp_imp (suite_mends hstatement hrefl E) ?_)
  intro body rest hbody
  -- What the suite leaves may hold comments, which are the last statements.
  have htrailing : Mends ctx.finish rest []
      ((if rest.all Token.isLayout then ownComments rest else []).map Stmt.node) [] := by
    have hend : Ahead ctx.finish rest [] := hbody.ahead.refl.of_suffix List.nil_suffix
    split
    · have hcomments := @ownComments_mends ctx.finish [] rest
      rw [List.append_nil] at hcomments
      exact hcomments hend.order
    · exact .of_placed hend (Node.placed_nil.2 hend.start_le) Node.malformed_nil
  have hall := hbody.append htrailing
  rw [List.append_nil, ← List.map_append] at hall
  exact hall

end PineScript.Parser
