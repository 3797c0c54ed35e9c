import PineScript.Proofs.Grammar.Opening
import PineScript.Proofs.Parser.PlacedScript

/-!
# Scripts follow the indentation

Behind a statement that was read or passed over a line ends, so that the next code opens a line. A
suite takes a line for a statement only if it has the suite's indentation, and the suite below a header
has that of its first line, which is deeper than the header's. Main statement:
`Program.parse_indentation`.
-/

namespace PineScript

namespace Parser

open Token (codeOf)
open Node (AlignedBelow Hung)

variable {all ts rest : List Token} {ctx : Context} {block : Int → Parser (Mended Block)} {n : Nat}
  {indent : Int}

/-! ## Simple statements -/

/-- Below a simple statement there are only expressions. -/
theorem isExpression_children_of_simpleOf {P : Expr → Prop} {s : Stmt} (hs : SimpleOf P s) :
    ∀ c ∈ s.children, c.isExpression = true := by
  cases s with
  | expression e => exact List.all_eq_true.1 (Node.isExpression_children_expr e)
  | jump => exact fun _ => Node.isExpression_ofExpr?
  | declaration | assignment => simp [Stmt.children, Name.node, Node.isExpression]
  | _ => cases hs

/-! ## Blocks below a line -/

/-- A block below a line of indentation `outer`, read from `ts` on. -/
structure Nested (all : List Token) (outer : Int) (ts : List Token) (b : Block) : Prop where
  indented : b.Indented all outer
  opens : OpensAt ts b.range.start
  below : AlignedBelow all [.block b]

/-- What a statement needs of the reader of the blocks below it. -/
def Nests (ctx : Context) (all : List Token) (block : Int → Parser (Mended Block)) : Prop :=
  ∀ outer ⦃ts⦄, Ahead ctx.finish all ts → wp (block outer) ctx ts
    (fun b rest => Mends ctx.finish ts rest [.block b.value] b.faults ∧ Nested all outer ts b.value)
    (Stops ctx.finish all)

theorem Nests.wp {Q : Mended Block → List Token → Prop} (hblock : Nests ctx all block)
    (hts : Ahead ctx.finish all ts)
    (hQ : ∀ b rest, Mends ctx.finish ts rest [.block b.value] b.faults → Nested all indent ts b.value →
      Q b rest) : Parser.wp (block indent) ctx ts Q (Stops ctx.finish all) :=
  wp_imp (hblock indent hts) (fun b rest h => hQ b rest h.1 h.2)

theorem Nested.statement {s : Stmt} {body : Block} (hbody : Nested all indent ts body)
    (parts : List Node) (hline : lineIndent? all s.range.start = some indent)
    (hs : ∀ b, s ≠ .conditional b) (hchildren : s.children = parts ++ [.block body])
    (hparts : ∀ n ∈ parts, n.isExpression = true) : AlignedBelow all [s.node] :=
  .statement hline hs hchildren hparts hbody.indented hbody.below

/-- From a line of this indentation on the reader gives an aligned statement. -/
def Aligns (ctx : Context) (all : List Token) (indent : Int) (p : Parser (Mended Stmt)) : Prop :=
  ∀ ⦃ts⦄, Ahead ctx.finish all ts → lineIndent? all (ctx.lookahead 0 ts).range.start = some indent →
    wp p ctx ts (fun m _ => AlignedBelow all [m.value.node]) (Stops ctx.finish all)

/-! ## Conditionals -/

theorem indent_of_elseAhead {t : Token} {more : List Token} (h : elseAhead indent ts = some (t :: more)) :
    t.indent = some indent := by
  fun_induction elseAhead indent ts with
  | case1 => cases h
  | case2 u us _ ih => exact ih h
  | case3 u us _ helse =>
    cases h
    simpa using (Bool.and_eq_true_iff.1 helse).2
  | case4 => cases h

/-- An `else` that is taken joins what begins behind it. -/
theorem takeElse_joins {line : List Token} {stop : Position} (hts : Ahead ctx.finish all ts)
    (hstop : stop ≤ startOf ctx.finish ts) (h : elseAhead indent ts = some line) :
    ∃ e more, takeElse indent ctx ts = .ok true more ∧ Ahead ctx.finish all (e :: more) ∧
      e.isLayout = false ∧ e.indent = some indent ∧
      ∀ start, OpensAt more start → Joins all indent stop start := by
  obtain ⟨e, more, rfl, hword, -⟩ := dropWhile_of_elseAhead h
  have hindent := indent_of_elseAhead h
  have hcode := Token.isLayout_of_keyword hword
  have htake : takeElse indent ctx ts = .ok true more := by
    simp [takeElse_of_some h, discard_eq_map, advance_of_seen (Context.skips_of_code hcode)]
  have hline := hts.of_suffix (elseAhead_suffix h)
  refine ⟨e, more, htake, hts.trans hline, hcode, hindent, fun start hopens => ?_⟩
  obtain ⟨front, hfront⟩ := (hts.trans hline).suffix
  exact ⟨front, e, more, hfront.symm, hword, hindent, Position.le_trans hstop hline.start_le, hopens⟩

section

variable (hctx : ctx.bracketed = false) (hall : Document all) (hblock : Nests ctx all block)
include hblock

theorem branch_aligned {otherwise : Parser (Mended Otherwise)} {keyword : Token}
    (hts : Ahead ctx.finish all ts) (hline : lineIndent? all keyword.range.start = some indent)
    (hother : ∀ ⦃mid stop⦄, Ahead ctx.finish all mid → stop ≤ startOf ctx.finish mid →
      wp otherwise ctx mid (fun o _ => Hung all indent stop o.value) (Stops ctx.finish all)) :
    wp (branch (expression n) block indent otherwise keyword) ctx ts
      (fun b _ => b.value.range.start = keyword.range.start ∧
        (∀ link ∈ b.value.chain, link.Hangs all indent) ∧
        AlignedBelow all [.stmt (.conditional b.value)])
      (Stops ctx.finish all) := by
  unfold branch
  simp only [wp_bind, wp_pure]
  refine (expression_places n).wp hts fun condition mid hmid _ => ?_
  refine hblock.wp (hts.trans hmid) fun body left hleft hbody => ?_
  have hstop : body.value.range.stop ≤ startOf ctx.finish left :=
    hleft.placed.walk_stop _ (Node.mem_walkFrom_of_mem List.mem_cons_self)
  refine wp_imp (hother (hts.trans (hmid.trans hleft.ahead)) hstop) (fun o rest ho => ?_)
  exact ⟨rfl, ho.hangs (b := .mk _ _ _ _), ho.aligned (b := .mk _ _ _ _) hline hbody.indented hbody.below⟩

include hctx hall

/-- By induction on the bound: behind each `else if` the chain goes on with the same indentation. -/
theorem otherwiseFor_hung (bound : List Token) {stop : Position} (hts : Ahead ctx.finish all ts)
    (hstop : stop ≤ startOf ctx.finish ts) :
    wp (otherwiseFor (expression n) block indent bound) ctx ts
      (fun o _ => Hung all indent stop o.value) (Stops ctx.finish all) := by
  induction bound generalizing ts stop with
  | nil => exact .nothing stop
  | cons _ bound ih =>
    unfold otherwiseFor
    simp only [wp_bind]
    cases helse : elseAhead indent ts with
    | none => exact (wp_of_ok (takeElse_of_none helse)).2 (.nothing stop)
    | some line =>
      obtain ⟨e, more, htake, hline, hcode, hindent, hjoins⟩ := takeElse_joins hts hstop helse
      have hmore := hline.trans (hline.of_suffix (List.suffix_cons e more))
      refine (wp_of_ok htake).2 ?_
      simp only [Bool.not_true, Bool.false_eq_true, ↓reduceIte, wp_bind, wp_peek, wp_ite, wp_pure]
      split
      · rename_i hif
        -- The `if` is on the line of the `else`.
        obtain ⟨hopens, hkeyword⟩ :=
          hall.on_line hctx hline.suffix hcode hindent (isLineEnd_of_keyword _ hif)
        refine wp_take hmore fun mid hmid => ?_
        refine wp_imp (branch_aligned hblock (hmore.trans hmid.ahead) hkeyword fun _ _ => ih) ?_
        rintro b rest ⟨hstart, hchain, hbelow⟩
        exact .elseIf (hjoins _ (hstart ▸ hopens)) hchain hbelow
      · exact hblock.wp hmore fun b rest _ hb => .block (hjoins _ hb.opens) hb.indented hb.below

theorem conditional_aligns : Aligns ctx all indent (conditional (expression n) block indent) := by
  intro ts hts hline
  unfold conditional
  simp only [wp_bind, wp_pure]
  refine wp_take hts fun mid hmid => ?_
  refine wp_imp (branch_aligned hblock (hts.trans hmid.ahead) hline fun left stop hleft hstop => ?_)
    (fun b rest hb => hb.2.2)
  exact (wp_otherwise indent).2 (otherwiseFor_hung hctx hall hblock _ hleft hstop)

omit hctx hall

/-! ## Loops and functions -/

theorem whileLoop_aligns : Aligns ctx all indent (whileLoop (expression n) block indent) := by
  intro ts hts hline
  unfold whileLoop
  simp only [wp_bind, wp_pure]
  refine wp_take hts fun mid hkeyword => ?_
  refine (expression_places n).wp (hts.trans hkeyword.ahead) fun condition last hlast _ => ?_
  refine hblock.wp (hts.trans (hkeyword.ahead.trans hlast)) fun body rest _ hbody => ?_
  exact hbody.statement [.expr condition] hline (by simp) rfl (by simp [Node.isExpression])

theorem forLoop_aligns : Aligns ctx all indent (forLoop (expression n) block indent) := by
  intro ts hts hline
  unfold forLoop
  simp only [wp_bind, wp_peek, wp_ite, wp_discard, wp_pure, wp_map]
  refine wp_take hts fun behind hkeyword => ?_
  have hbehind := hts.trans hkeyword.ahead
  refine wp_expect_take hbehind fun mid hname => ?_
  have hmid := hbehind.trans hname.ahead
  split
  · refine wp_take hmid fun from' hequals => ?_
    have hfrom := hmid.trans hequals.ahead
    refine (expression_places n).wp hfrom fun first mid₁ hmid₁ _ => ?_
    have hto := hfrom.trans hmid₁
    refine wp_expect_take hto fun from₂ hword => ?_
    have hfrom₂ := hto.trans hword.ahead
    refine (expression_places n).wp hfrom₂ fun last mid₂ hmid₂ _ => ?_
    have hby := hfrom₂.trans hmid₂
    split
    · refine wp_take hby fun from₃ hword₃ => ?_
      have hfrom₃ := hby.trans hword₃.ahead
      refine (expression_places n).wp hfrom₃ fun step last' hlast' _ => ?_
      refine hblock.wp (hfrom₃.trans hlast') fun body rest _ hbody => ?_
      exact hbody.statement [Name.node _, .expr first, .expr last, .expr step] hline (by simp) rfl
        (by simp [Node.isExpression, Name.node])
    · refine hblock.wp hby fun body rest _ hbody => ?_
      exact hbody.statement [Name.node _, .expr first, .expr last] hline (by simp) rfl
        (by simp [Node.isExpression, Name.node])
  · split
    · refine wp_take hmid fun from' hin => ?_
      have hfrom := hmid.trans hin.ahead
      refine (expression_places n).wp hfrom fun collection last hlast _ => ?_
      refine hblock.wp (hfrom.trans hlast) fun body rest _ hbody => ?_
      exact hbody.statement [Name.node _, .expr collection] hline (by simp) rfl
        (by simp [Node.isExpression, Name.node])
    · exact hmid.stops _

theorem function_aligns : Aligns ctx all indent (function (expression n) block indent) := by
  intro ts hts hline
  unfold function atLineEnd
  simp only [wp_bind, wp_discard, wp_peek, wp_pure, wp_ite]
  refine wp_take hts fun behind hname => ?_
  have hbehind := hts.trans hname.ahead
  refine wp_take hbehind fun inside hopen => ?_
  have hinside := hbehind.trans hopen.ahead
  refine wp_listItems (parameter_places (expression_places n)) hinside ?_
  intro parameters mid close behind' hmid _ hclose
  have hlist := hinside.trans (hmid.trans hclose.ahead)
  refine wp_expect_take hlist fun last harrow => ?_
  have hheader := hlist.trans harrow.ahead
  have hparts : ∀ c ∈ (nameOf (ctx.lookahead 0 ts)).node ::
      parameters.map Node.parameter, c.isExpression = true := by
    simp [Node.isExpression, Name.node]
  split
  · refine hblock.wp hheader fun body rest _ hbody => ?_
    exact hbody.statement _ hline (by simp) rfl hparts
  · refine (expression_places n).wp hheader fun value rest hrest _ => ?_
    refine wp_endOfLine (.plain (by simp) ?_) (hheader.trans hrest).stops
    exact List.forall_mem_append.2 ⟨hparts, by simp [Node.isExpression]⟩

include hctx hall

theorem statement_aligns : Aligns ctx all indent (statement (expression n) block indent) := by
  intro ts hts hline
  unfold statement
  simp only [wp_bind, wp_peek, wp_ite]
  split
  · exact conditional_aligns hctx hall hblock hts hline
  split
  · exact forLoop_aligns hblock hts hline
  split
  · exact whileLoop_aligns hblock hts hline
  split
  · exact hts.stops _
  refine wp_startsFunction fun starts => ?_
  split
  · exact function_aligns hblock hts hline
  · have hsimple := wp_and (simple_places (expression_places n) indent hts)
      (simple_yields (.any _) indent ctx ts)
    refine wp_mono hsimple ?_ (fun _ _ => And.left)
    rintro s rest ⟨-, hs⟩
    exact .plain (by rintro b rfl; cases hs) (isExpression_children_of_simpleOf hs)

end

/-! ## Suites -/

/-- Statements of one indentation, read from `ts` on. -/
structure Suited (all : List Token) (indent : Int) (ts : List Token) (ss : List Stmt) : Prop where
  leads : ∀ s ∈ ss, s.isAnchored = true → Leads all indent s.range.start
  opens : ∀ s ∈ ss.head?, OpensAt ts s.range.start
  below : AlignedBelow all (ss.map Stmt.node)

theorem Suited.nil : Suited all indent ts [] := ⟨by simp, by simp, .nil⟩

theorem Suited.append {mid : List Token} {ss ss' : List Stmt} (h : Suited all indent ts ss)
    (h' : Suited all indent mid ss') (hmid : ss = [] → mid = ts) : Suited all indent ts (ss ++ ss') where
  leads := List.forall_mem_append.2 ⟨h.leads, h'.leads⟩
  opens := by
    cases ss with
    | nil => exact hmid rfl ▸ h'.opens
    | cons s more => exact h.opens
  below := by
    rw [List.map_append]
    exact h.below.append h'.below

theorem ownComments_suited {layout : List Token} (h : ∀ t ∈ layout, t.isLayout = true)
    (rest : List Token) : Suited all indent (layout ++ rest) (ownComments layout) where
  leads s hs hanchored := by
    cases s with
    | comment => cases hanchored
    | _ => cases ownComments_isComment _ hs
  opens s hs := by
    obtain ⟨t, ht, hown⟩ := List.mem_filterMap.1 (List.mem_of_head? hs)
    split at hown
    · cases hown
      obtain ⟨front, behind, rfl⟩ := List.append_of_mem ht
      exact ⟨front, t, behind ++ rest, by simp, rfl, fun u hu => .inl (h u (List.mem_append_left _ hu))⟩
    · cases hown
  below := by
    refine .stmts fun s hs => ?_
    cases s with
    | comment => exact .plain (by simp) (by simp [Stmt.children])
    | _ => cases ownComments_isComment _ hs

theorem malformed_aligned (range : Range) (cause : Fault.Cause) :
    AlignedBelow all [(Stmt.malformed range cause).node] :=
  .plain (by simp) (by simp [Stmt.children])

section

variable {finish : Position} {first : Token} {more : List Token} (hall : Document all)
  (hblock : Nests ⟨finish, false, none⟩ all block) (hlays : Lays block ⟨finish, false, none⟩)
include hall hblock

/-- A line of a suite. If it is indented deeper it is malformed, and so is not anchored. -/
theorem attempt_aligned (hts : Ahead finish all (first :: more)) (hcode : first.isLayout = false)
    (hlead : first.isLineLeading = true) (hindent : indent ≤ indentOf indent first) :
    AlignedBelow all
        [(attempt (statement (expression n) block) indent ⟨finish, false, none⟩ first more).1.value.node] ∧
      ((attempt (statement (expression n) block) indent ⟨finish, false, none⟩ first
        more).1.value.isAnchored = true → first.indent = some indent) := by
  obtain ⟨i, hi⟩ := Option.isSome_iff_exists.1 hlead
  have hindentOf : indentOf indent first = i := by simp [indentOf, hi]
  by_cases hdeep : indent < indentOf indent first
  · simp only [attempt, hdeep, ↓reduceIte, recover]
    exact ⟨malformed_aligned _ _, fun h => by cases h⟩
  · obtain rfl : i = indent := by omega
    refine ⟨?_, fun _ => hi⟩
    refine attempt_cases (P := fun m _ => AlignedBelow all [m.value.node]) (malformed_aligned _ _) ?_
    refine wp_mono (statement_aligns rfl hall hblock hts ?_) (fun _ _ => id)
      (fun _ _ _ => malformed_aligned _ _)
    rw [Context.lookahead_zero_of_seen (Context.skips_of_code hcode)]
    exact lineIndent?_eq hall.rows (hts.suffix.mem List.mem_cons_self) hi rfl

omit hall hblock
include hlays

/-- The statement of an item is the line that begins with the first code; the item ends with a line. -/
theorem exists_line_of_item {item : Mended (List Stmt)} (hts : Scans ts)
    (hitem : suiteItem (statement (expression n) block) indent ⟨finish, false, none⟩ ts =
      .ok (some item) rest) (hdrop : ts.dropWhile Token.isLayout = first :: more)
    (hindent : indent ≤ indentOf indent first) :
    (∃ span stop, more = span ++ stop ∧
      Grammar.Header Grammar.Value (codeOf (first :: span))
        (attempt (statement (expression n) block) indent ⟨finish, false, none⟩ first more).1.value) ∧
      rest <:+ ts ∧ LineEnds rest := by
  have hstops : ∀ us, (statement (expression n) block indent ⟨finish, false, none⟩ us).rest <:+ us :=
    fun us => (statement_lasts (expression_sturdy .still n) (hlays.keeps .still) (.inl rfl) rfl us).suffix
  have hcomment := attempt_isComment (expression n) block indent ⟨finish, false, none⟩
  obtain ⟨ps, hheads, hruns, -⟩ := suiteItem_folds
    (fun us hus hcode => statement_folds hlays hus hcode) hstops hcomment hts _ rest hitem
  rw [suiteItem_of_first hdrop hindent] at hitem
  injection hitem with hvalue hrest
  rw [← hvalue] at hheads
  simp only [Option.map_some, Option.getD_some] at hheads
  rw [headsOf_item (hcomment first more)] at hheads
  cases hruns with
  | done => cases hheads
  | @piece _ span stop _ last head ps hstart hlast hcode hspelled hline hmore =>
    refine ⟨?_, (Runs.piece hstart hlast hcode hspelled hline hmore).suffix, hmore.lineEnds (.inl hline)⟩
    cases span with
    | nil => cases hlast
    | cons t span =>
      obtain ⟨rfl, rfl⟩ := List.cons.inj (hdrop.symm.trans hstart)
      obtain ⟨rfl, -⟩ := List.cons.inj hheads
      cases hspelled with
      | statement h => exact ⟨span, stop, rfl, h⟩

include hall hblock

theorem suiteItem_suited {item : Mended (List Stmt)} (hts : Ahead finish all ts) (hled : Led ts)
    (hitem : suiteItem (statement (expression n) block) indent ⟨finish, false, none⟩ ts =
      .ok (some item) rest) :
    Suited all indent ts item.value ∧ item.value ≠ [] ∧ Ahead finish all rest ∧ Led rest := by
  obtain ⟨first, more, hdrop, hindent⟩ := exists_first_of_item hitem
  obtain ⟨⟨span, stop, rfl, hheader⟩, hrest, hline⟩ :=
    exists_line_of_item hlays (hall.scans.suffix hts.suffix) hitem hdrop hindent
  have hcode := Token.isLayout_of_dropWhile hdrop
  have hfirst : Ahead finish all (first :: (span ++ stop)) :=
    hts.trans (hdrop ▸ hts.dropWhile Token.isLayout)
  have hahead := hts.trans (hts.of_suffix hrest)
  obtain ⟨haligned, hanchored⟩ := attempt_aligned hall hblock hfirst hcode (hled _ _ hdrop) hindent
  rw [suiteItem_of_first hdrop hindent] at hitem
  injection hitem with hvalue
  obtain rfl := Option.some.inj hvalue
  refine ⟨?_, by simp, hahead, hall.led hahead.suffix hline⟩
  have hlayout : ∀ t ∈ ts.takeWhile Token.isLayout, t.isLayout = true := fun _ => List.mem_takeWhile_imp
  have hsplit : ts.takeWhile Token.isLayout ++ first :: (span ++ stop) = ts := by
    rw [← hdrop, List.takeWhile_append_dropWhile]
  have hcomments := @ownComments_suited all indent _ hlayout (first :: (span ++ stop))
  rw [hsplit] at hcomments
  have hstatement : Suited all indent ts
      [(attempt (statement (expression n) block) indent ⟨finish, false, none⟩ first
        (span ++ stop)).1.value] := by
    refine ⟨fun s hs hanchor => ?_, fun s hs => ?_, haligned⟩
    · rw [List.mem_singleton.1 hs] at hanchor ⊢
      obtain ⟨t, ht, hstart⟩ := hheader.begins hanchor
      rw [Token.codeOf_cons_of_code hcode] at ht
      cases ht
      exact ⟨first, hfirst.suffix.mem List.mem_cons_self, hstart, hanchored hanchor⟩
    · cases hs
      have hopens := (hheader.opensAt.of_codeOf.append stop).behind hlayout
      rwa [List.cons_append, hsplit] at hopens
  exact hcomments.append hstatement fun _ => rfl

/-- By induction on the items: behind each of them the next code opens a line again. -/
theorem items_suited {items : List (Mended (List Stmt))} (hts : Ahead finish all ts) (hled : Led ts)
    (h : Items (suiteItem (statement (expression n) block) indent) ⟨finish, false, none⟩ ts items rest) :
    Suited all indent ts (items.flatMap (·.value)) := by
  induction h with
  | stop => exact .nil
  | item hitem _ _ ih =>
    obtain ⟨hitem, hne, hmid, hled⟩ := suiteItem_suited hall hblock hlays hts hled hitem
    rw [List.flatMap_cons]
    exact hitem.append (ih hmid hled) fun hnil => absurd hnil hne

theorem suite_suited (hts : Ahead finish all ts) (hled : Led ts) (E : Fault → List Token → Prop) :
    wp (suite (statement (expression n) block) indent) ⟨finish, false, none⟩ ts
      (fun m _ => Suited all indent ts m.value) E := by
  obtain ⟨items, rest, hitems⟩ :=
    exists_items (statement (expression n) block) indent ⟨finish, false, none⟩ ts
  exact (wp_of_ok (suite_of_items hitems)).2 (items_suited hall hblock hlays hts hled hitems)

end

/-! ## Blocks and scripts -/

/-- A block is read where the line of its header ends. -/
theorem wp_indented_lineEnds {Q : Mended Block → List Token → Prop} {header : Int}
    {body : Int → Token → Parser (Mended Block)} (hctx : ctx.bracketed = false)
    (hbody : LineEnds ts → ∀ first more, ts.dropWhile Token.isLayout = first :: more →
      header < indentOf header first →
      wp (body (indentOf header first) first) ctx ts Q (fun _ _ => True)) :
    wp (indented header body) ctx ts Q (fun _ _ => True) := by
  by_cases hline : LineEnds ts
  · exact wp_indented (fun _ => trivial) (hbody hline)
  · unfold wp
    split
    · rename_i hread
      exact absurd (indented_lineEnds hctx hread) hline
    · trivial

theorem blockOf_nested {finish : Position} {outer : Int} {ss : List Stmt} (hne : ss ≠ [])
    (hlt : outer < indent) (h : Suited all indent ts ss) : Nested all outer ts (blockOf finish ss) where
  indented := ⟨indent, hlt, by simpa using h.leads⟩
  opens := by
    obtain ⟨s, more, rfl⟩ := List.exists_cons_of_ne_nil hne
    have hlast := List.getLast?_eq_some_getLast hne
    have hstart : (blockOf finish (s :: more)).range.start = s.range.start := by
      simp only [blockOf, List.head?_cons, hlast]
      rfl
    rw [hstart]
    exact h.opens s rfl
  below := by
    refine .body ?_ (by simp) h.below
    rw [Node.children, blockOf_statements]

theorem nests_of_nested {finish : Position} (n : Nat)
    (h : ∀ outer ⦃ts⦄, Ahead finish all ts → wp (Parser.block n outer) ⟨finish, false, none⟩ ts
      (fun b _ => Nested all outer ts b.value) (fun _ _ => True)) :
    Nests ⟨finish, false, none⟩ all (Parser.block n) := by
  intro outer ts hts
  exact wp_mono (wp_and (block_mending n outer hts) (h outer hts)) (fun _ _ => id) (fun _ _ => And.left)

/-- By induction on the nesting: the lines below a header have the indentation of the first of them. -/
theorem block_nests (hall : Document all) (finish : Position) (n : Nat) :
    Nests ⟨finish, false, none⟩ all (Parser.block n) := by
  induction n with
  | zero =>
    exact nests_of_nested 0 fun outer ts _ => wp_indented_lineEnds rfl fun _ _ _ _ _ => trivial
  | succ n ih =>
    refine nests_of_nested (n + 1) fun outer ts hts => ?_
    refine wp_indented_lineEnds rfl fun hline first more hdrop hlt => (wp_bind _ _).2 ?_
    have hfirst := Int.le_of_eq (indentOf_of_lt hlt).symm
    have hled := hall.led hts.suffix hline
    refine wp_mono (wp_and (suite_suited hall ih (block_lays n finish) hts hled fun _ _ => True)
      (suite_ne_nil hdrop hfirst)) ?_ (fun _ _ _ => trivial)
    rintro body rest ⟨hbody, hne⟩
    exact blockOf_nested hne hlt hbody

theorem script_aligned (hall : Document all) (finish : Position) (horder : InOrder finish all) :
    wp script ⟨finish, false, none⟩ all
      (fun body _ => (∀ s ∈ body.value, s.isAnchored = true → Leads all 0 s.range.start) ∧
        AlignedBelow all (body.value.map Stmt.node))
      (fun _ _ => False) := by
  have hts : Ahead finish all all := ⟨horder, List.suffix_refl all⟩
  refine (wp_bind _ _).2 (wp_imp (suite_suited hall (block_nests hall finish nestingLimit)
    (block_lays nestingLimit finish) hts hall.led_all fun _ _ => False) ?_)
  intro body rest hbody
  -- The layout behind the last statement may hold comments.
  have htrailing : Suited all 0 rest (if rest.all Token.isLayout then ownComments rest else []) := by
    split
    · rename_i hlayout
      have hcomments := @ownComments_suited all 0 rest (List.all_eq_true.1 hlayout) []
      rwa [List.append_nil] at hcomments
    · exact .nil
  refine ⟨List.forall_mem_append.2 ⟨hbody.leads, htrailing.leads⟩, ?_⟩
  rw [List.map_append]
  exact hbody.below.append htrailing.below

end Parser

/-- Blocks follow the indentation. The statements of a script open lines without indentation, those of
a block open lines of one indentation, which is deeper than that of the line that the header begins
on, and an `else` opens a line with the indentation of the line that the chain of its `if` begins on. -/
theorem Program.parse_indentation (source : String) :
    (∀ s ∈ (Program.parse (tokenize source)).1.body, s.isAnchored = true →
      Leads (tokenize source) 0 s.range.start) ∧
    ∀ n ∈ (Program.parse (tokenize source)).1.walk, n.Aligned (tokenize source) := by
  have horder := (Parser.chain_iff_inOrder.1 (chain_tokenize source)).2
  obtain ⟨-, hleads, hbelow⟩ := Parser.parse_of_wp
    (Q := fun body _ => (∀ s ∈ body, s.isAnchored = true → Leads (tokenize source) 0 s.range.start) ∧
      Node.AlignedBelow (tokenize source) (body.map Stmt.node))
    (Parser.script_aligned (Parser.document_tokenize source) _ horder)
  exact ⟨hleads, Node.AlignedBelow.body rfl (by rintro b ⟨⟩) hbelow⟩

end PineScript
