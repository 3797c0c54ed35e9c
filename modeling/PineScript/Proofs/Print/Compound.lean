import PineScript.Proofs.Print.Function

/-!
# Printed loops and conditionals are read

A statement with a block is read back if the block is. The lines of an `if` with all that hangs on it
are read along the chain of its branches: each `else` stands at the indentation of the `if`, and
nothing but a line break stands between it and the block above.
-/

namespace PineScript.Parser

variable {finish : Position} {indent : Int} {ts rest below : List Token} {ctx : Context} {t : Token}
  {n : Nat} {block : Int → Parser (Mended Block)} {body : Block}

/-! ## Loops -/

theorem isKeyword_of_lexeme {word : Keyword} (h : t.lexeme = (Word.keyword word).lexeme) :
    t.isKeyword word.text = true :=
  Token.isKeyword_iff.2 (Token.lexeme_eq_iff.1 h)

theorem skips_of_lexeme {word : Word} (h : t.lexeme = word.lexeme) : ctx.skips t = false :=
  Context.skips_of_code (Token.isLayout_of_lexeme h)

theorem isKeyword_ne {word word' : String} (h : t.isKeyword word) (hne : word ≠ word') :
    t.isKeyword word' = false := by
  obtain ⟨hkind, htext⟩ := Token.isKeyword_iff.1 h
  simp [Token.isKeyword, hkind, htext, hne]

/-- The key words of statements end an expression. -/
theorem ends_of_keyword {word : Keyword} (h : t.isKeyword word.text) : Ends ctx (t :: rest) := by
  obtain ⟨hkind, htext⟩ := Token.isKeyword_iff.1 h
  refine .of_code (Token.isLayout_of_keyword h) ?_
  rintro (h | h | h | ⟨op, -, hop⟩)
  · grind
  · grind
  · grind
  · rw [htext] at hop
    revert hop
    cases word <;> cases op <;> decide

theorem reads_whileLoop {condition : Expr} (r : Range) (hdepth : condition.depth ≤ n)
    (hts : Spells ts (.keyword .while :: condition.words)) (hline : LineEnds below)
    (hbody : ReadsBlock block indent finish below rest body) :
    ReadsAs (statement (expression n) block indent) ⟨finish, false, none⟩ (ts ++ below) rest
      (.whileLoop r condition body) := by
  obtain ⟨w, us, rfl, hw, hus⟩ := Spells.cons_iff.1 hts
  obtain ⟨e, hread, herase, -⟩ := reads_value hdepth hus (@LineEnds.ends finish _ hline)
  obtain ⟨b, hblock, herase'⟩ := hbody
  have hwhile : w.isKeyword "while" = true := isKeyword_of_lexeme hw
  have hsee : Context.skips ⟨finish, false, none⟩ w = false := skips_of_lexeme hw
  refine ⟨.whileLoop ⟨w.range.start, b.range.stop⟩ e b, ?_, ?_⟩
  · simp [statement, peek_of_seen hsee, hwhile, isKeyword_ne hwhile, whileLoop, advance_of_seen hsee,
      hread, hblock]
  · simp [Stmt.erase, herase, herase']

theorem reads_iteratingLoop {element : Name} {collection : Expr} (r : Range)
    (hdepth : collection.depth ≤ n)
    (hts : Spells ts (.keyword .for :: .name element.text :: .keyword .in :: collection.words))
    (hline : LineEnds below) (hbody : ReadsBlock block indent finish below rest body) :
    ReadsAs (statement (expression n) block indent) ⟨finish, false, none⟩ (ts ++ below) rest
      (.iteratingLoop r element collection body) := by
  obtain ⟨w, us, rfl, hw, hus⟩ := Spells.cons_iff.1 hts
  obtain ⟨x, us, rfl, hx, hus⟩ := Spells.cons_iff.1 hus
  obtain ⟨i, us, rfl, hi, hus⟩ := Spells.cons_iff.1 hus
  obtain ⟨e, hread, herase, -⟩ := reads_value hdepth hus (@LineEnds.ends finish _ hline)
  obtain ⟨b, hblock, herase'⟩ := hbody
  obtain ⟨hxname, hxtext⟩ := isIdentifier_of_lexeme hx
  have hfor : w.isKeyword "for" = true := isKeyword_of_lexeme hw
  have hin : i.isKeyword "in" = true := isKeyword_of_lexeme hi
  have hequals : i.isOperator "=" = false := by grind
  have hsee : Context.skips ⟨finish, false, none⟩ w = false := skips_of_lexeme hw
  have hseex : Context.skips ⟨finish, false, none⟩ x = false := skips_of_lexeme hx
  have hseei : Context.skips ⟨finish, false, none⟩ i = false := skips_of_lexeme hi
  refine ⟨.iteratingLoop ⟨w.range.start, b.range.stop⟩ (nameOf x) e b, ?_, ?_⟩
  · simp [statement, peek_of_seen hsee, hfor, isKeyword_ne hfor, forLoop, advance_of_seen hsee,
      expect_of_seen hseex, hxname, peek_of_seen hseei, hequals, hin, discard_eq_map,
      advance_of_seen hseei, hread, hblock]
  · simp [Stmt.erase, nameOf, Name.erase, hxtext, herase, herase']

theorem LineEnds.not_keyword (h : LineEnds rest) (word : String) :
    (Context.lookahead ⟨finish, false, none⟩ 0 rest).isKeyword word = false := by
  have hend : (Context.lookahead ⟨finish, false, none⟩ 0 rest).isLineEnd = true := h.lookahead
  grind

theorem reads_countingLoop {counter : Name} {first last : Expr} {step : Option Expr} (r : Range)
    (hfirst : first.depth ≤ n) (hlast : last.depth ≤ n) (hstep : Expr.depthOf? step ≤ n)
    (hts : Spells ts (.keyword .for :: .name counter.text :: .mark .equals ::
      (first.words ++ .keyword .to :: (last.words ++
        (step.map fun e => .keyword .by :: e.words).getD []))))
    (hline : LineEnds below) (hbody : ReadsBlock block indent finish below rest body) :
    ReadsAs (statement (expression n) block indent) ⟨finish, false, none⟩ (ts ++ below) rest
      (.countingLoop r counter first last step body) := by
  obtain ⟨w, us, rfl, hw, hus⟩ := Spells.cons_iff.1 hts
  obtain ⟨x, us, rfl, hx, hus⟩ := Spells.cons_iff.1 hus
  obtain ⟨q, us, rfl, hq, hus⟩ := Spells.cons_iff.1 hus
  obtain ⟨fs, us, rfl, hfs, hus⟩ := Spells.append_iff.1 hus
  obtain ⟨u, us, rfl, hu, hus⟩ := Spells.cons_iff.1 hus
  obtain ⟨ls, us, rfl, hls, hsteps⟩ := Spells.append_iff.1 hus
  obtain ⟨b, hblock, herase⟩ := hbody
  obtain ⟨hxname, hxtext⟩ := isIdentifier_of_lexeme hx
  have hfor : w.isKeyword "for" = true := isKeyword_of_lexeme hw
  have hequals : q.isOperator "=" = true := Token.isOperator_iff.2 (Token.lexeme_eq_iff.1 hq)
  have hto : u.isKeyword "to" = true := isKeyword_of_lexeme hu
  have hsee : Context.skips ⟨finish, false, none⟩ w = false := skips_of_lexeme hw
  have hseex : Context.skips ⟨finish, false, none⟩ x = false := skips_of_lexeme hx
  have hseeq : Context.skips ⟨finish, false, none⟩ q = false := skips_of_lexeme hq
  have hseeu : Context.skips ⟨finish, false, none⟩ u = false := skips_of_lexeme hu
  obtain ⟨first', hreadf, herasef, -⟩ := reads_value hfirst hfs
    (@ends_of_keyword (ls ++ (us ++ below)) ⟨finish, false, none⟩ u .to hto)
  cases step with
  | none =>
    obtain rfl := Spells.nil_iff.1 hsteps
    obtain ⟨last', hreadl, herasel, -⟩ := reads_value hlast hls (@LineEnds.ends finish _ hline)
    simp only [List.nil_append] at hreadf
    refine ⟨.countingLoop ⟨w.range.start, b.range.stop⟩ (nameOf x) first' last' none b, ?_, ?_⟩
    · simp [statement, peek_of_seen hsee, hfor, isKeyword_ne hfor, forLoop, advance_of_seen hsee,
        expect_of_seen hseex, hxname, peek_of_seen hseeq, hequals, discard_eq_map,
        advance_of_seen hseeq, hreadf, expect_of_seen hseeu, hto, hreadl, peek_apply,
        hline.not_keyword, hblock]
    · simp [Stmt.erase, nameOf, Name.erase, hxtext, herasef, herasel, herase]
  | some step =>
    obtain ⟨v, us, rfl, hv, hus⟩ := Spells.cons_iff.1 hsteps
    have hby : v.isKeyword "by" = true := isKeyword_of_lexeme hv
    have hseev : Context.skips ⟨finish, false, none⟩ v = false := skips_of_lexeme hv
    obtain ⟨step', hreads, herases, -⟩ := reads_value hstep hus (@LineEnds.ends finish _ hline)
    obtain ⟨last', hreadl, herasel, -⟩ := reads_value hlast hls
      (@ends_of_keyword (us ++ below) ⟨finish, false, none⟩ v .by hby)
    simp only [List.cons_append] at hreadf
    refine ⟨.countingLoop ⟨w.range.start, b.range.stop⟩ (nameOf x) first' last' (some step') b, ?_, ?_⟩
    · simp [statement, peek_of_seen hsee, hfor, isKeyword_ne hfor, forLoop, advance_of_seen hsee,
        expect_of_seen hseex, hxname, peek_of_seen hseeq, hequals, discard_eq_map,
        advance_of_seen hseeq, hreadf, expect_of_seen hseeu, hto, hreadl, peek_of_seen hseev, hby,
        advance_of_seen hseev, map_eq_bind, hreads, hblock]
    · simp [Stmt.erase, nameOf, Name.erase, hxtext, herasef, herasel, herases, herase]

/-! ## Printed lines as tokens -/

/-- The indentation of a line below so many headers. -/
def indentAt (level : Nat) : Int := ((4 * level : Nat) : Int)

theorem indentAt_lt {j k : Nat} (h : j < k) : indentAt j < indentAt k := by
  unfold indentAt
  omega

/-- The tokens of printed lines, with a line break in front of each. -/
inductive Below : List Line → List Token → Prop
  | nil : Below [] []
  | cons {b first : Token} {line : Line} {lines : List Line} {ts us : List Token}
      (hb : b.kind = .newline) (hts : Spells (first :: ts) line.words)
      (hindent : first.indent = some (indentAt line.level)) (hmore : Below lines us) :
      Below (line :: lines) (b :: (first :: ts ++ us))

namespace Below

variable {lines more : List Line} {line : Line}

theorem cons_inv (h : Below (line :: lines) ts) :
    ∃ b first us vs, ts = b :: (first :: us ++ vs) ∧ b.kind = .newline ∧
      Spells (first :: us) line.words ∧ first.indent = some (indentAt line.level) ∧
      Below lines vs := by
  cases h with
  | cons hb hts hindent hmore => exact ⟨_, _, _, _, rfl, hb, hts, hindent, hmore⟩

theorem append_inv (h : Below (lines ++ more) ts) :
    ∃ us vs, ts = us ++ vs ∧ Below lines us ∧ Below more vs := by
  induction lines generalizing ts with
  | nil => exact ⟨[], ts, rfl, .nil, h⟩
  | cons line lines ih =>
    obtain ⟨b, first, us, vs, rfl, hb, hts, hindent, hmore⟩ := h.cons_inv
    obtain ⟨us', vs', rfl, hlines, hmore⟩ := ih hmore
    exact ⟨b :: (first :: us ++ us'), vs', by simp, .cons hb hts hindent hlines, hmore⟩

/-- The first word of a line is code and stands at its indentation. -/
theorem first_word {first : Token} (hts : Spells (first :: ts) line.words) :
    ∃ w ws, line.words = w :: ws ∧ first.lexeme = w.lexeme ∧ first.isLayout = false := by
  cases hwords : line.words with
  | nil => simp [hwords, Spells] at hts
  | cons w ws =>
    rw [hwords] at hts
    obtain ⟨t, us, heq, ht, -⟩ := Spells.cons_iff.1 hts
    obtain ⟨rfl, -⟩ := List.cons.inj heq
    exact ⟨w, ws, rfl, ht, Token.isLayout_of_lexeme ht⟩

/-- The next token of code behind the line break. -/
theorem next (h : Below (line :: lines) ts) (rest : List Token) :
    ∃ first more w ws, (ts ++ rest).dropWhile Token.isLayout = first :: more ∧
      first.indent = some (indentAt line.level) ∧ line.words = w :: ws ∧
      first.lexeme = w.lexeme := by
  obtain ⟨b, first, us, vs, rfl, hb, hts, hindent, -⟩ := h.cons_inv
  obtain ⟨w, ws, hwords, hlexeme, hcode⟩ := first_word hts
  have hlayout : b.isLayout = true := by grind
  exact ⟨first, us ++ vs ++ rest, w, ws, by simp [hlayout, hcode], hindent, hwords, hlexeme⟩

theorem break_first {b : Token} (h : Below lines (b :: ts)) : b.kind = .newline := by
  cases h with
  | cons hb _ _ _ => exact hb

theorem lineEnds (h : Below lines ts) (hrest : LineEnds rest) : LineEnds (ts ++ rest) := by
  cases h with
  | nil => exact hrest
  | cons hb _ _ _ => exact .of_newline hb _

/-- Lines that begin at a lower level close a block. -/
theorem closes {level : Nat} (h : Below lines ts)
    (hlevel : ∀ line more, lines = line :: more → line.level < level)
    (hrest : Closes (indentAt level) rest) : Closes (indentAt level) (ts ++ rest) where
  lineEnds := h.lineEnds hrest.lineEnds
  next := by
    cases lines with
    | nil =>
      cases h
      exact hrest.next
    | cons line lines =>
      intro t more heq
      obtain ⟨first, more', w, ws, hdrop, hindent, -⟩ := h.next rest
      obtain ⟨rfl, -⟩ := List.cons.inj (hdrop.symm.trans heq)
      exact ⟨_, hindent, indentAt_lt (hlevel line lines rfl)⟩

end Below

/-! ## Conditionals -/

theorem elseAhead_eq_some {r : List Token} (h : elseAhead indent ts = some r) :
    ∃ t more, ts.dropWhile Token.isLayout = t :: more ∧ t.isKeyword "else" ∧
      t.indent = some indent := by
  induction ts with
  | nil => cases h
  | cons t ts ih =>
    unfold elseAhead at h
    split at h
    · rename_i hlayout
      have : t.isLayout = true := by grind
      obtain ⟨u, more, hdrop, hu⟩ := ih h
      exact ⟨u, more, by simp [this, hdrop], hu⟩
    · split at h
      · rename_i helse
        simp only [Bool.and_eq_true, beq_iff_eq] at helse
        exact ⟨t, ts, by simp [Token.isLayout_of_keyword helse.1], helse⟩
      · cases h

theorem Follows.takeElse (h : Follows indent rest) : takeElse indent ctx rest = .ok false rest := by
  unfold Parser.takeElse
  cases hahead : elseAhead indent rest with
  | none => rfl
  | some r =>
    obtain ⟨t, more, hdrop, helse, hindent⟩ := elseAhead_eq_some hahead
    obtain ⟨i, hi, -, hnot⟩ := h.next t more hdrop
    rw [hnot (Option.some.inj (hi.symm.trans hindent))] at helse
    cases helse

theorem takeElse_of_else {b : Token} (hb : b.kind = .newline) (ht : t.isKeyword "else")
    (hindent : t.indent = some indent) : takeElse indent ctx (b :: t :: ts) = .ok true ts := by
  have hkind : t.kind = .keyword := (Token.isKeyword_iff.1 ht).1
  have hsee : ctx.skips t = false := Context.skips_of_code (Token.isLayout_of_keyword ht)
  simp [takeElse, elseAhead, hb, hkind, ht, hindent, discard_eq_map, advance_of_seen hsee]

/-- All blocks of at most so many levels are read from the lines they are printed as. -/
def ReadsBlocks (n : Nat) (block : Int → Parser (Mended Block)) (finish : Position) : Prop :=
  ∀ (body : Block) (level : Nat) (us rest : List Token), body.depth ≤ n → body.isWellFormed →
    Below (body.lines (level + 1)) us → Closes (indentAt (level + 1)) rest →
    ReadsBlock block (indentAt level) finish (us ++ rest) rest body

/-- A branch is read if what hangs on it is. -/
theorem branch_reads {level : Nat} {condition : Expr} {otherwise : Otherwise} {keyword : Token}
    {cs us behind : List Token} {hanging : Parser (Mended Otherwise)} (r : Range)
    (hblocks : ReadsBlocks n block finish) (hcond : condition.depth ≤ n) (hbody : body.depth ≤ n)
    (hwell : body.isWellFormed) (hcs : Spells cs condition.words)
    (hus : Below (body.lines (level + 1)) us) (hclose : Closes (indentAt (level + 1)) behind)
    (hanging_reads : ∃ o, hanging ⟨finish, false, none⟩ behind = .ok ⟨o, []⟩ rest ∧
      o.erase = otherwise.erase) :
    ∃ b, branch (expression n) block (indentAt level) hanging keyword ⟨finish, false, none⟩
        (cs ++ (us ++ behind)) = .ok ⟨b, []⟩ rest ∧
      b.erase = (Branch.mk r condition body otherwise).erase := by
  obtain ⟨e, hread, herase, -⟩ :=
    reads_value hcond hcs (@LineEnds.ends finish _ (hus.lineEnds hclose.lineEnds))
  obtain ⟨b, hblock, herase'⟩ := hblocks body level us behind hbody hwell hus hclose
  obtain ⟨o, hhanging, herase''⟩ := hanging_reads
  refine ⟨.mk ⟨keyword.range.start, Mended.stop ⟨b, []⟩ ⟨o, []⟩⟩ e b o, ?_, ?_⟩
  · simp [branch, hread, hblock, hhanging]
  · simp [Branch.erase, herase, herase', herase'']

theorem Otherwise.lines_level {level : Nat} {o : Otherwise} {line : Line} {more : List Line}
    (h : o.lines level = line :: more) : line.level < level + 1 := by
  cases o with
  | nothing => cases h
  | block b =>
    cases h
    exact Nat.lt_succ_self level
  | elseIf b =>
    cases b
    cases h
    exact Nat.lt_succ_self level

/-- What hangs on an `if` is read along its chain of branches. -/
theorem reads_otherwise {level : Nat} (hblocks : ReadsBlocks n block finish) (o : Otherwise)
    {us : List Token} {bound : List Token} (hdepth : o.depth ≤ n) (hwell : o.isWellFormed)
    (hus : Below (o.lines level) us) (hrest : Follows (indentAt level) rest)
    (hbound : (us ++ rest).length < bound.length) :
    ∃ o', otherwiseFor (expression n) block (indentAt level) bound ⟨finish, false, none⟩
      (us ++ rest) = .ok ⟨o', []⟩ rest ∧ o'.erase = o.erase := by
  match bound, hbound with
  | _ :: bound, hbound =>
  have hclose : Closes (indentAt (level + 1)) rest := hrest.closes (indentAt_lt (Nat.lt_succ_self level))
  match o with
  | .nothing =>
    cases hus
    exact ⟨.nothing, by simp [otherwiseFor, hrest.takeElse], rfl⟩
  | .block b =>
    obtain ⟨nl, first, ts, vs, rfl, hnl, hts, hindent, hbelow⟩ := hus.cons_inv
    obtain ⟨e, heq, helse⟩ := Spells.singleton_iff.1 hts
    obtain ⟨rfl, rfl⟩ := List.cons.inj heq
    obtain ⟨b', hblock, herase⟩ := hblocks b level vs rest hdepth hwell hbelow hclose
    have hif := @LineEnds.not_keyword finish _ (hbelow.lineEnds hclose.lineEnds) "if"
    refine ⟨.block b', ?_, by rw [Otherwise.erase, Otherwise.erase, herase]⟩
    simp [otherwiseFor, takeElse_of_else hnl (isKeyword_of_lexeme helse) hindent, peek_apply, hif,
      hblock]
  | .elseIf (.mk r condition body o) =>
    obtain ⟨nl, first, ts, vs, rfl, hnl, hts, hindent, hbelow⟩ := hus.cons_inv
    obtain ⟨e, ts', heq, helse, hts'⟩ := Spells.cons_iff.1 hts
    obtain ⟨rfl, rfl⟩ := List.cons.inj heq
    obtain ⟨i, cs, rfl, hif, hcs⟩ := Spells.cons_iff.1 hts'
    obtain ⟨bs, os, rfl, hbs, hos⟩ := hbelow.append_inv
    rw [Otherwise.depth, Branch.depth] at hdepth
    rw [Otherwise.isWellFormed, Branch.isWellFormed, Bool.and_eq_true] at hwell
    have hlen : (os ++ rest).length < bound.length := by
      simp at hbound ⊢
      omega
    have hchain := reads_otherwise hblocks o (by omega) hwell.2 hos hrest hlen
    have hcode := Token.isLayout_of_lexeme hif
    obtain ⟨b', hbranch, herase⟩ := @branch_reads _ _ _ _ _ level condition o i cs bs (os ++ rest) _ r
      hblocks (by omega) (by omega) hwell.1 hcs hbs (hos.closes (fun _ _ => Otherwise.lines_level) hclose)
      hchain
    refine ⟨.elseIf b', ?_, by rw [Otherwise.erase, Otherwise.erase, herase]⟩
    have hisIf : i.isKeyword "if" = true := isKeyword_of_lexeme hif
    simp [otherwiseFor, takeElse_of_else hnl (isKeyword_of_lexeme helse) hindent,
      peek_of_seen (Context.skips_of_code hcode), hisIf, advance_of_seen (Context.skips_of_code hcode),
      hbranch]

theorem reads_conditional {level : Nat} {condition : Expr} {o : Otherwise} {us : List Token}
    (r : Range) (hblocks : ReadsBlocks n block finish)
    (hdepth : (Branch.mk r condition body o).depth ≤ n)
    (hwell : (Branch.mk r condition body o).isWellFormed)
    (hts : Spells ts (.keyword .if :: condition.words))
    (hus : Below (body.lines (level + 1) ++ o.lines level) us)
    (hrest : Follows (indentAt level) rest) :
    ReadsAs (statement (expression n) block (indentAt level)) ⟨finish, false, none⟩
      (ts ++ (us ++ rest)) rest (.conditional (.mk r condition body o)) := by
  obtain ⟨i, cs, rfl, hif, hcs⟩ := Spells.cons_iff.1 hts
  obtain ⟨bs, os, rfl, hbs, hos⟩ := hus.append_inv
  rw [Branch.depth] at hdepth
  rw [Branch.isWellFormed, Bool.and_eq_true] at hwell
  have hclose : Closes (indentAt (level + 1)) rest :=
    hrest.closes (indentAt_lt (Nat.lt_succ_self level))
  have hchain := @reads_otherwise finish rest n block level hblocks o os
    (Context.endToken ⟨finish, false, none⟩ :: (os ++ rest)) (by omega) hwell.2 hos hrest (by simp)
  obtain ⟨b, hbranch, herase⟩ := @branch_reads _ _ _ _ _ level condition o i cs bs (os ++ rest)
    (otherwise (expression n) block (indentAt level)) r hblocks (by omega) (by omega) hwell.1 hcs hbs
    (hos.closes (fun _ _ => Otherwise.lines_level) hclose) hchain
  have hisIf : i.isKeyword "if" = true := isKeyword_of_lexeme hif
  have hsee : Context.skips ⟨finish, false, none⟩ i = false := skips_of_lexeme hif
  refine ⟨.conditional b, ?_, by rw [Stmt.erase, Stmt.erase, herase]⟩
  simp [statement, peek_of_seen hsee, hisIf, conditional, advance_of_seen hsee, hbranch]

end PineScript.Parser
