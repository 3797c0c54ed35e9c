import PineScript.Proofs.Print.Compound

/-!
# Printed trees are read

Statement by statement a suite is read back from the lines it is printed as: behind each statement
stands a line of the same or a lower indentation, and it is no `else`. By induction on the levels
that are left this holds of blocks, and so of scripts.
-/

namespace PineScript

/-! ## How statements begin -/

/-- No other word is spelled like `else`. -/
theorem Word.eq_else {w : Word} (h : w.lexeme = (Word.keyword .else).lexeme) : w = .keyword .else := by
  have hkind : w.kind = .keyword := congrArg Prod.fst h
  have htext : w.text = "else" := congrArg Prod.snd h
  revert hkind htext
  cases w with
  | name s => simp [Word.kind]
  | literal v =>
    cases v with
    | bool b => cases b <;> simp [Word.text, Literal.text]
    | _ => simp [Word.kind, Literal.kind]
  | unary op => cases op <;> simp [Word.text, UnaryOp.text]
  | binary op => cases op <;> simp [Word.text, BinaryOp.text]
  | assign op => simp [Word.kind]
  | modifier m => cases m <;> simp [Word.text, Modifier.text]
  | jump k => cases k <;> simp [Word.text, JumpKind.text]
  | keyword k => cases k <;> simp [Word.text, Keyword.text]
  | mark m => cases m <;> simp [Word.text, Mark.text]

theorem Expr.wordsAt_head {place own : Nat} {ws : List Word} {w : Word} {more : List Word}
    (hws : ws = w :: more) (hw : w ≠ .keyword .else) :
    ∃ v vs, Expr.wordsAt place own ws = v :: vs ∧ v ≠ .keyword .else := by
  unfold Expr.wordsAt
  split
  · exact ⟨_, _, rfl, by decide⟩
  · exact ⟨w, more, hws, hw⟩

theorem Expr.words_head (e : Expr) : ∃ w ws, e.words = w :: ws ∧ w ≠ .keyword .else := by
  induction e using Expr.induction with
  | name n => exact ⟨_, _, rfl, by simp⟩
  | literal r v => exact ⟨_, _, rfl, by simp⟩
  | call r callee arguments ih _ =>
    obtain ⟨w, ws, hws, hw⟩ := ih
    obtain ⟨v, vs, hvs, hv⟩ := @Expr.wordsAt_head 8 callee.tightness _ _ _ hws hw
    exact ⟨v, _, by rw [words, hvs, List.cons_append], hv⟩
  | index r target subscript ih _ =>
    obtain ⟨w, ws, hws, hw⟩ := ih
    obtain ⟨v, vs, hvs, hv⟩ := @Expr.wordsAt_head 8 target.tightness _ _ _ hws hw
    exact ⟨v, _, by rw [words, hvs, List.cons_append], hv⟩
  | unary r op operand _ => exact ⟨_, _, rfl, by simp⟩
  | binary r op left right ih _ =>
    obtain ⟨w, ws, hws, hw⟩ := ih
    obtain ⟨v, vs, hvs, hv⟩ := @Expr.wordsAt_head (op.precedence + 1) left.tightness _ _ _ hws hw
    exact ⟨v, _, by rw [words, hvs, List.cons_append], hv⟩
  | ternary r condition whenTrue whenFalse ih _ _ =>
    obtain ⟨w, ws, hws, hw⟩ := ih
    obtain ⟨v, vs, hvs, hv⟩ := @Expr.wordsAt_head 1 condition.tightness _ _ _ hws hw
    exact ⟨v, _, by rw [words, hvs, List.cons_append], hv⟩

/-- The first line of a statement has its level and does not begin with `else`. -/
theorem Stmt.lines_head {s : Stmt} (hwell : s.isWellFormed) (level : Nat) :
    ∃ w ws more, s.lines level = ⟨level, w :: ws⟩ :: more ∧ w ≠ .keyword .else := by
  cases s with
  | comment | malformed => cases hwell
  | expression value =>
    obtain ⟨w, ws, hws, hw⟩ := value.words_head
    exact ⟨w, ws, [], by rw [lines, hws], hw⟩
  | declaration r modifier typeName name value =>
    cases modifier with
    | some m => exact ⟨_, _, _, rfl, by simp⟩
    | none => cases typeName <;> exact ⟨_, _, _, rfl, by simp⟩
  | conditional branch =>
    cases branch
    exact ⟨_, _, _, rfl, by simp⟩
  | assignment | jump | countingLoop | iteratingLoop | whileLoop | lineFunction | blockFunction =>
    exact ⟨_, _, _, rfl, by simp⟩

namespace Parser

variable {finish : Position} {ts us rest : List Token} {ctx : Context} {n level : Nat}
  {block : Int → Parser (Mended Block)}

/-! ## Statements -/

/-- Every statement of at most so many levels is read from the lines it is printed as. -/
theorem reads_statement (hblocks : ReadsBlocks n block finish) {s : Stmt} {b : Token}
    (hdepth : s.depth ≤ n) (hwell : s.isWellFormed) (hts : Below (s.lines level) (b :: ts))
    (hrest : Follows (indentAt level) rest) :
    ReadsAs (statement (expression n) block (indentAt level)) ⟨finish, false, none⟩ (ts ++ rest) rest
      s := by
  have hclose : Closes (indentAt (level + 1)) rest :=
    hrest.closes (indentAt_lt (Nat.lt_succ_self level))
  -- Each form is one line, or one line above a block.
  have hsingle : ∀ {ws}, Below [⟨level, ws⟩] (b :: ts) → Spells ts ws := by
    intro ws h
    obtain ⟨_, _, _, _, heq, _, hspell, _, hnil⟩ := h.cons_inv
    cases hnil
    obtain ⟨-, rfl⟩ := List.cons.inj heq
    simpa using hspell
  have hheader : ∀ {ws} {body : Block}, body.depth ≤ n → body.isWellFormed →
      Below (⟨level, ws⟩ :: body.lines (level + 1)) (b :: ts) →
      ∃ hs below, ts = hs ++ below ∧ Spells hs ws ∧ LineEnds (below ++ rest) ∧
        ReadsBlock block (indentAt level) finish (below ++ rest) rest body := by
    intro ws body hbody hwellBody h
    obtain ⟨_, first, hs, below, heq, _, hspell, _, hbelow⟩ := h.cons_inv
    obtain ⟨-, rfl⟩ := List.cons.inj heq
    exact ⟨first :: hs, below, rfl, hspell, hbelow.lineEnds hclose.lineEnds,
      hblocks body level below rest hbody hwellBody hbelow hclose⟩
  cases s with
  | comment | malformed => cases hwell
  | expression value => exact reads_expression hdepth (hsingle hts) hrest
  | declaration r modifier typeName name value =>
    exact reads_declaration r hdepth (hsingle hts) hrest
  | assignment r target op value => exact reads_assignment r hdepth (hsingle hts) hrest
  | jump r kind value => exact reads_jump r hwell hdepth (hsingle hts) hrest
  | conditional branch =>
    obtain ⟨r, condition, body, o⟩ := branch
    obtain ⟨_, first, hs, below, heq, _, hspell, _, hbelow⟩ := Below.cons_inv hts
    obtain ⟨-, rfl⟩ := List.cons.inj heq
    rw [List.append_assoc]
    exact reads_conditional r hblocks hdepth hwell hspell hbelow hrest
  | countingLoop r counter first last step body =>
    rw [Stmt.depth] at hdepth
    obtain ⟨hs, below, rfl, hspell, hline, hbody⟩ := hheader (by omega) hwell hts
    rw [List.append_assoc]
    exact reads_countingLoop r (by omega) (by omega) (by omega) hspell hline hbody
  | iteratingLoop r element collection body =>
    rw [Stmt.depth] at hdepth
    obtain ⟨hs, below, rfl, hspell, hline, hbody⟩ := hheader (by omega) hwell hts
    rw [List.append_assoc]
    exact reads_iteratingLoop r (by omega) hspell hline hbody
  | whileLoop r condition body =>
    rw [Stmt.depth] at hdepth
    obtain ⟨hs, below, rfl, hspell, hline, hbody⟩ := hheader (by omega) hwell hts
    rw [List.append_assoc]
    exact reads_whileLoop r (by omega) hspell hline hbody
  | lineFunction r name parameters value =>
    exact reads_lineFunction r hwell hdepth (hsingle hts) hrest.lineEnds
  | blockFunction r name parameters body =>
    rw [Stmt.depth] at hdepth
    rw [Stmt.isWellFormed, Bool.and_eq_true] at hwell
    obtain ⟨hs, below, rfl, hspell, hline, hbody⟩ := hheader (by omega) hwell.2 hts
    rw [List.append_assoc]
    exact reads_blockFunction r hwell.1 (by omega) hspell hline hbody

/-! ## Suites and blocks -/

theorem Closes.suiteItem {read : Int → Parser (Mended Stmt)} {indent : Int} (h : Closes indent rest) :
    suiteItem read indent ctx rest = .ok none rest := by
  refine suiteItem_of_lower fun first more heq => ?_
  obtain ⟨i, hi, hlt⟩ := h.next first more heq
  simpa [indentOf, hi] using hlt

/-- What stands behind a statement of a suite lets it end. -/
theorem follows_linesOf {ss : List Stmt} (hwell : Stmt.areWellFormed ss)
    (hus : Below (Stmt.linesOf level ss) us) (hclose : Closes (indentAt level) rest) :
    Follows (indentAt level) (us ++ rest) := by
  cases ss with
  | nil =>
    cases hus
    exact hclose.follows
  | cons s more =>
    rw [Stmt.areWellFormed, Bool.and_eq_true] at hwell
    obtain ⟨w, ws, lines, hlines, hw⟩ := Stmt.lines_head hwell.1 level
    rw [Stmt.linesOf, hlines, List.cons_append] at hus
    refine ⟨hus.lineEnds hclose.lineEnds, ?_⟩
    intro t more' heq
    obtain ⟨first, more'', v, vs, hdrop, hindent, hwords, hlexeme⟩ := hus.next rest
    obtain ⟨rfl, -⟩ := List.cons.inj (hdrop.symm.trans heq)
    obtain ⟨rfl, -⟩ := List.cons.inj hwords
    refine ⟨_, hindent, Int.le_refl _, fun _ => Bool.eq_false_iff.2 fun helse => hw ?_⟩
    exact Word.eq_else (hlexeme.symm.trans (Token.lexeme_eq_iff.2 (Token.isKeyword_iff.1 helse)))

/-- The items of a suite are its statements. -/
theorem suite_items (hblocks : ReadsBlocks n block ctx.finish) (ss : List Stmt)
    (hdepth : Stmt.depths ss ≤ n) (hwell : Stmt.areWellFormed ss)
    (hus : Below (Stmt.linesOf level ss) us) (hclose : Closes (indentAt level) rest) :
    ∃ items, Items (suiteItem (statement (expression n) block) (indentAt level)) ctx (us ++ rest)
        items rest ∧
      items.flatMap (·.faults) = [] ∧ (items.flatMap (·.value)).map Stmt.erase = ss.map Stmt.erase := by
  induction ss generalizing us with
  | nil =>
    cases hus
    exact ⟨[], .stop hclose.suiteItem, rfl, rfl⟩
  | cons s more ih =>
    rw [Stmt.depths, Nat.max_le] at hdepth
    rw [Stmt.areWellFormed, Bool.and_eq_true] at hwell
    obtain ⟨us, vs, rfl, hus, hvs⟩ := Below.append_inv hus
    obtain ⟨items, hitems, hfaults, hvalues⟩ := ih hdepth.2 hwell.2 hvs
    have hfollows := follows_linesOf hwell.2 hvs hclose
    obtain ⟨w, ws, lines, hlines, -⟩ := Stmt.lines_head hwell.1 level
    -- The line break in front of a statement is the layout that its item begins with.
    have hbelow := hus
    rw [hlines] at hbelow
    obtain ⟨b, first, ts, below, rfl, hb, hspell, hindent, -⟩ := hbelow.cons_inv
    obtain ⟨s', hread, herase⟩ := reads_statement hblocks hdepth.1 hwell.1 hus hfollows
    obtain ⟨-, -, -, -, hcode⟩ := Below.first_word hspell
    have hitem := @suiteItem_of_statement _ _ ctx (vs ++ rest) [b] (ts ++ below ++ (vs ++ rest)) first _
      (fun t ht => List.mem_singleton.1 ht ▸ hb) hcode hindent hread (by simp; omega)
    refine ⟨⟨[s'], []⟩ :: items, ?_, by simpa using hfaults, by simp [herase, hvalues]⟩
    rw [List.append_assoc]
    exact .item hitem (by simp; omega) hitems

theorem blockOf_erase (finish : Position) (ss : List Stmt) :
    (blockOf finish ss).erase = .mk .origin (Stmt.eraseAll ss) := by
  unfold blockOf
  split <;> rfl

theorem block_zero_reads (block : Int → Parser (Mended Block)) (finish : Position) :
    ReadsBlocks 0 block finish := by
  intro body level us rest hdepth
  cases body
  simp [Block.depth] at hdepth

theorem block_reads (n : Nat) (finish : Position) : ReadsBlocks n (Parser.block n) finish := by
  induction n with
  | zero => exact block_zero_reads _ finish
  | succ n ih =>
    intro body level us rest hdepth hwell hus hclose
    obtain ⟨r, ss⟩ := body
    rw [Block.depth] at hdepth
    rw [Block.isWellFormed, Bool.and_eq_true] at hwell
    obtain ⟨items, hitems, hfaults, hvalues⟩ := @suite_items us rest ⟨finish, false, none⟩ n (level + 1)
      _ ih ss (Nat.le_of_succ_le_succ hdepth) hwell.2 hus hclose
    have hsuite := suite_of_items hitems
    have hend := @LineEnds.endOfLine finish none _ (Below.lineEnds hus hclose.lineEnds)
    cases ss with
    | nil => simp at hwell
    | cons s more =>
      obtain ⟨w, ws, lines, hlines, -⟩ :=
        Stmt.lines_head (Bool.and_eq_true_iff.1 hwell.2).1 (level + 1)
      rw [Block.lines, Stmt.linesOf, hlines, List.cons_append] at hus
      obtain ⟨first, more', -, -, hdrop, hindent, -⟩ := hus.next rest
      have hread := block_of_suite hend hdrop hindent (indentAt_lt (Nat.lt_succ_self level)) hsuite
      rw [hfaults] at hread
      exact ⟨_, hread, by rw [blockOf_erase, Block.erase, Stmt.eraseAll_eq_map, hvalues,
        Stmt.eraseAll_eq_map]⟩

/-! ## Scripts -/

theorem closes_of_breaks {indent : Int} (h : ∀ t ∈ rest, t.kind = .newline) :
    Closes indent rest where
  lineEnds := by
    cases rest with
    | nil => exact .nil
    | cons t more => exact .of_newline (h t List.mem_cons_self) more
  next := by
    intro t more heq
    have hlayout : ∀ u ∈ rest, u.isLayout = true := fun u hu => by grind
    have hnil := @List.dropWhile_append_of_pos _ _ _ [] hlayout
    rw [List.append_nil, heq] at hnil
    cases hnil

/-- A script is made of the items in front of the last line breaks. -/
theorem parse_of_items {items : List (Mended (List Stmt))}
    (hitems : Items (suiteItem topStatement 0) ⟨finishOf ts, false, none⟩ ts items rest)
    (hrest : ∀ t ∈ rest, t.kind = .newline) :
    Program.parse ts =
      (⟨⟨.origin, finishOf ts⟩, items.flatMap (·.value)⟩, items.flatMap (·.faults)) := by
  have hown : ownComments rest = [] := by
    simp only [ownComments, List.filterMap_eq_nil_iff]
    intro t ht
    simp [hrest t ht]
  have hparse := parse_of_script (script_of_suite (suite_of_items hitems))
  rwa [hown, ite_self, List.append_nil] at hparse

theorem parse_of_breaks (h : ∀ t ∈ ts, t.kind = .newline) :
    Program.parse ts = (⟨⟨.origin, finishOf ts⟩, []⟩, []) :=
  parse_of_items (.stop (closes_of_breaks h).suiteItem) h

/-- A script is read from the tokens of its lines, with or without a line break behind them. -/
theorem parse_of_below {p : Program} {b : Token} (hwell : Stmt.areWellFormed p.body)
    (hdepth : Stmt.depths p.body ≤ nestingLimit) (hne : p.body ≠ []) (hts : Below p.lines (b :: ts))
    (hrest : ∀ t ∈ rest, t.kind = .newline) :
    (Program.parse (ts ++ rest)).2 = [] ∧ (Program.parse (ts ++ rest)).1.erase = p.erase := by
  obtain ⟨items, hitems, hfaults, hvalues⟩ :=
    @suite_items (b :: ts) rest ⟨finishOf (ts ++ rest), false, none⟩ nestingLimit 0 _
      (block_reads nestingLimit _) p.body hdepth hwell hts (closes_of_breaks hrest)
  -- Only the first statement of a script has no line break in front of it.
  have hitems' : Items (suiteItem topStatement 0) ⟨finishOf (ts ++ rest), false, none⟩ (ts ++ rest)
      items rest := by
    cases hitems with
    | stop =>
      cases hbody : p.body with
      | nil => exact absurd hbody hne
      | cons s more => simp [hbody] at hvalues
    | item hitem hlen hmore =>
      have hfirst := suiteItem_of_break hts.break_first hitem
      exact .item hfirst (suiteItem_length hfirst) hmore
  rw [parse_of_items hitems' hrest]
  exact ⟨hfaults, by rw [Program.erase, Program.erase, Stmt.eraseAll_eq_map, hvalues,
    Stmt.eraseAll_eq_map]⟩

end Parser

end PineScript
