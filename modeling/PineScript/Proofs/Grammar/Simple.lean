import PineScript.Proofs.Grammar.Complete
import PineScript.Proofs.Grammar.Statement
import PineScript.Proofs.Parser.Suite

/-!
# Simple statements are read

A statement without a block is read from the code that derives it, if the line ends behind it and the
next line of code does not carry it on. Its form is told by its first tokens; behind a name at the
beginning of an expression nothing looks like another form.
-/

namespace PineScript.Parser

variable {finish : Position} {margin : Option Int} {indent : Int} {ts rest : List Token}

/-! ## The end of a line -/

/-- The line ends here. -/
def LineEnds (rest : List Token) : Prop :=
  ∀ t more, rest.dropWhile (·.kind == .comment) = t :: more → t.isLineEnd = true

theorem LineEnds.nil : LineEnds [] := by
  intro t more h
  cases h

theorem LineEnds.of_newline {t : Token} (h : t.kind = .newline) (more : List Token) :
    LineEnds (t :: more) := by
  intro u us heq
  rw [List.dropWhile_cons_of_neg (by simp [h])] at heq
  cases heq
  exact Token.isLineEnd_iff.2 (.inl h)

theorem lineEnds_iff {ctx : Context} (hctx : ctx.bracketed = false) :
    LineEnds rest ↔ (ctx.lookahead 0 rest).isLineEnd = true := by
  have hskips : ctx.skips = (·.kind == .comment) := by
    funext t
    simp [Context.skips, hctx]
  rw [ctx.lookahead_zero, hskips, LineEnds]
  cases rest.dropWhile (·.kind == .comment) with
  | nil => simp [Token.isLineEnd]
  | cons t more => simp

theorem LineEnds.lookahead (h : LineEnds rest) :
    (Context.lookahead ⟨finish, false, margin⟩ 0 rest).isLineEnd = true :=
  (lineEnds_iff rfl).1 h

theorem LineEnds.endOfLine (h : LineEnds rest) :
    endOfLine ⟨finish, false, margin⟩ rest = .ok () rest := by
  simp [Parser.endOfLine, atLineEnd, peek_apply, h.lookahead]

theorem wp_endOfLine_lineEnds {ctx : Context} (hctx : ctx.bracketed = false) :
    wp Parser.endOfLine ctx ts (fun _ rest => rest = ts ∧ LineEnds ts) (fun _ _ => True) := by
  unfold Parser.endOfLine atLineEnd
  simp only [wp_bind, wp_peek, wp_pure, wp_ite, wp_unexpected]
  split
  · trivial
  · rename_i hend
    exact ⟨trivial, (lineEnds_iff hctx).2 (by simpa using hend)⟩

theorem LineEnds.not_continues (h : LineEnds rest) :
    ¬ (Context.lookahead ⟨finish, false, margin⟩ 0 rest).Continues := by
  have hend : (Context.lookahead ⟨finish, false, margin⟩ 0 rest).kind = .newline ∨
      (Context.lookahead ⟨finish, false, margin⟩ 0 rest).kind = .eof :=
    Token.isLineEnd_iff.1 h.lookahead
  rintro (h | h | h | ⟨op, h, -⟩) <;> grind

theorem LineEnds.ends (h : LineEnds rest) : Ends ⟨finish, false, none⟩ rest where
  noJoin := fun _ _ => joinLine_of_margin_none rfl
  stops := h.not_continues

/-- The first token of what follows is a comment or ends the line. -/
theorem LineEnds.head {t : Token} {more : List Token} (h : LineEnds (t :: more)) :
    t.kind = .comment ∨ t.isLineEnd = true := by
  by_cases ht : t.kind = .comment
  · exact .inl ht
  · exact .inr (h t more (List.dropWhile_cons_of_neg (by simp [ht])))

/-! ## Which form a statement has -/

variable {nested : Parser Expr} {block : Int → Parser (Mended Block)} {ctx : Context} {t u : Token}

theorem startsFunction_of_first (ht : t.isLayout = false) (hname : t.isIdentifier = false) :
    startsFunction ctx (t :: ts) = .ok false (t :: ts) := by
  simp [startsFunction, Context.skips_of_code ht, hname]

theorem startsFunction_of_second (ht : t.isLayout = false)
    (hparen : (ctx.lookahead 0 ts).isPunctuation "(" = false) :
    startsFunction ctx (t :: ts) = .ok false (t :: ts) := by
  cases hname : t.isIdentifier with
  | false => exact startsFunction_of_first ht hname
  | true =>
    rw [ctx.lookahead_zero] at hparen
    simp only [startsFunction, List.dropWhile_cons, Context.skips_of_code ht, hname,
      Bool.false_eq_true, ↓reduceIte]
    cases hdrop : ts.dropWhile ctx.skips with
    | nil => rfl
    | cons u more =>
      rw [hdrop] at hparen
      simp only [List.head?_cons, Option.getD_some] at hparen
      simp [hparen]

/-- No expression in front of the end of a line looks like the header of a function. -/
theorem startsFunction_phrase (h : Grammar.Phrase ts) (hrest : LineEnds rest) :
    startsFunction ⟨finish, false, margin⟩ (ts ++ rest) = .ok false (ts ++ rest) := by
  obtain ⟨t, more, rfl, hopen⟩ := h.opens
  have ht := hopen.isLayout_eq_false
  cases hname : t.isIdentifier with
  | false => exact startsFunction_of_first ht hname
  | true =>
    cases more with
    | nil =>
      have hend := @LineEnds.lookahead finish margin _ hrest
      rw [List.singleton_append]
      exact startsFunction_of_second ht (by grind)
    | cons u more =>
      have hu := (h.second t u more rfl hname).isLayout_eq_false
      cases hparen : u.isPunctuation "(" with
      | false =>
        rw [List.cons_append]
        refine startsFunction_of_second ht ?_
        rwa [List.cons_append, Context.lookahead_zero_of_seen (Context.skips_of_code hu)]
      | true =>
        obtain ⟨left, hleft, hcont⟩ := h.call t u more rfl hname hparen
        have hclose := hleft rest
        have harrow : ∀ v vs, left ++ rest = v :: vs → v.isOperator "=>" = false := by
          intro v vs heq
          cases left with
          | nil =>
            rw [List.nil_append] at heq
            rw [heq] at hrest
            have := hrest.head
            grind
          | cons w left =>
            obtain ⟨rfl, -⟩ := List.cons.inj heq
            exact (hcont w left rfl).not_operator (by decide) (by intro op; cases op <;> decide)
        simp only [startsFunction, List.cons_append, List.dropWhile_cons, Context.skips_of_code ht,
          Context.skips_of_code hu, hname, hparen, hclose, Bool.false_eq_true, ↓reduceIte]
        split
        · rename_i v vs heq
          rw [harrow v vs (Option.some.inj heq)]
        · rfl

/-- A simple statement is read by its form. -/
theorem statement_of_simpleForm {s : Stmt}
    (hword : ∀ word ∈ ["if", "for", "while", "else"], t.isKeyword word = false)
    (ht : t.isLayout = false)
    (hfunction : startsFunction ⟨finish, false, none⟩ (t :: ts) = .ok false (t :: ts))
    (hform : simpleForm nested ⟨finish, false, some indent⟩ (t :: ts) = .ok s rest)
    (hrest : LineEnds rest) :
    statement nested block indent ⟨finish, false, none⟩ (t :: ts) = .ok ⟨s, []⟩ rest := by
  have hif := hword "if" (by decide)
  have hfor := hword "for" (by decide)
  have hwhile := hword "while" (by decide)
  have helse := hword "else" (by decide)
  simp [statement, peek_of_seen (Context.skips_of_code ht), hif, hfor, hwhile, helse, hfunction,
    simple, withMargin, hform, hrest.endOfLine]

theorem opens_keyword (h : t.Opens) (hkind : t.kind = .keyword) :
    t.text ∈ ["true", "false", "not"] := by
  rcases h with ⟨v, hv, htext⟩ | h | ⟨op, hop, htext⟩ | h
  · cases v with
    | bool b => cases b <;> simp [htext, Literal.text]
    | _ => simp [hkind, Literal.kind] at hv
  · grind
  · cases op <;> simp_all [UnaryOp.kind, UnaryOp.text]
  · grind

/-- No word that begins an expression begins another statement. -/
theorem opens_not_keyword (h : t.Opens) {word : String} (hword : word ∉ ["true", "false", "not"]) :
    t.isKeyword word = false := by
  refine Bool.eq_false_iff.2 fun hkey => hword ?_
  obtain ⟨hkind, htext⟩ := Token.isKeyword_iff.1 hkey
  exact htext ▸ opens_keyword h hkind

theorem jumpKind?_of_opens (h : t.Opens) : jumpKind? t = none := by
  unfold jumpKind?
  split
  · rename_i hkind
    have hwords : ∀ word ∈ ["true", "false", "not"], JumpKind.ofText? word = none := by decide
    exact hwords _ (opens_keyword h (by simpa using hkind))
  · rfl

theorem modifier?_of_opens (h : t.Opens) : modifier? t = none := by
  unfold modifier?
  split
  · rename_i hkind
    have hwords : ∀ word ∈ ["true", "false", "not"], Modifier.ofText? word = none := by decide
    exact hwords _ (opens_keyword h (by simpa using hkind))
  · rfl

theorem assignOp?_of_continues (h : u.Continues) : assignOp? u = none := by
  unfold assignOp?
  split
  · rename_i hkind
    rcases h with h | h | h | ⟨op, -, htext⟩
    · simp_all [Token.isPunctuation]
    · simp_all [Token.isPunctuation]
    · rw [(Token.isOperator_iff.1 h).2]
      decide
    · rw [htext]
      cases op <;> decide
  · rfl

/-- Behind a name at the beginning of an expression nothing looks like another statement. -/
theorem phrase_second (h : Grammar.Phrase (t :: ts)) (hname : t.isIdentifier) (hrest : LineEnds rest) :
    (Context.lookahead ⟨finish, false, margin⟩ 1 (t :: ts ++ rest)).isOperator "=" = false ∧
    (Context.lookahead ⟨finish, false, margin⟩ 1 (t :: ts ++ rest)).isIdentifier = false ∧
    assignOp? (Context.lookahead ⟨finish, false, margin⟩ 1 (t :: ts ++ rest)) = none := by
  rw [List.cons_append,
    Context.lookahead_succ_of_seen 0 (Context.skips_of_code (Token.isLayout_of_identifier hname))]
  cases ts with
  | nil =>
    have hend := Token.isLineEnd_iff.1 (@LineEnds.lookahead finish margin _ hrest)
    rw [List.nil_append]
    refine ⟨by grind, by grind, ?_⟩
    unfold assignOp?
    rw [if_neg (by grind)]
  | cons u ts =>
    have hu := h.second t u ts rfl hname
    rw [List.cons_append, Context.lookahead_zero_of_seen (Context.skips_of_code hu.isLayout_eq_false)]
    exact ⟨hu.not_equals, hu.not_identifier, assignOp?_of_continues hu⟩

theorem passLayout_of_opens {more : List Token} (ht : t.Opens) :
    passLayout ctx (t :: more) = .ok () (t :: more) :=
  passLayout_of_code ht.isLayout_eq_false

theorem modifier?_of_name (h : t.isIdentifier) : modifier? t = none := by
  simp [modifier?, Token.isIdentifier_iff.1 h]

theorem jumpKind?_of_name (h : t.isIdentifier) : jumpKind? t = none := by
  simp [jumpKind?, Token.isIdentifier_iff.1 h]

theorem name_not_keyword (h : t.isIdentifier) (word : String) : t.isKeyword word = false := by
  simp [Token.isKeyword, Token.isIdentifier_iff.1 h]

theorem modifier?_of_text {m : Modifier} (h : t.isKeyword m.text) : modifier? t = some m := by
  obtain ⟨hkind, htext⟩ := Token.isKeyword_iff.1 h
  simp [modifier?, hkind, htext, Modifier.ofText?_text]

theorem jumpKind?_of_modifier {m : Modifier} (h : t.isKeyword m.text) : jumpKind? t = none := by
  obtain ⟨hkind, htext⟩ := Token.isKeyword_iff.1 h
  simp only [jumpKind?, hkind, htext]
  cases m <;> decide

theorem assignOp?_of_text {op : AssignOp} (h : t.isOperator op.text) : assignOp? t = some op := by
  obtain ⟨hkind, htext⟩ := Token.isOperator_iff.1 h
  simp [assignOp?, hkind, htext, AssignOp.ofText?_text]

theorem jumpKind?_of_text {kind : JumpKind} (h : t.isKeyword kind.text) :
    jumpKind? t = some kind := by
  obtain ⟨hkind, htext⟩ := Token.isKeyword_iff.1 h
  simp [jumpKind?, hkind, htext, JumpKind.ofText?_text]

/-! ## The forms -/

section

variable {n : Nat} {e : Expr} (he : Grammar.Expression n ts e)
  (hends : Ends ⟨finish, false, some indent⟩ rest) (hline : LineEnds rest)
include he hends hline

theorem statement_expression :
    statement (expression n) block indent ⟨finish, false, none⟩ (ts ++ rest) =
      .ok ⟨.expression e, []⟩ rest := by
  have hphrase := he.phrase
  have hread := expression_complete n _ _ _ _ he hends
  have hfunction := @startsFunction_phrase finish none _ _ hphrase hline
  obtain ⟨t, more, rfl, hopen⟩ := hphrase.opens
  have hsee : Context.skips ⟨finish, false, some indent⟩ t = false :=
    Context.skips_of_code hopen.isLayout_eq_false
  refine statement_of_simpleForm ?_ hopen.isLayout_eq_false hfunction ?_ hline
  · intro word hword
    refine opens_not_keyword hopen ?_
    revert word
    decide
  · simp only [List.cons_append] at hread
    cases hname : t.isIdentifier with
    | false =>
      simp [simpleForm, peek_of_seen hsee, jumpKind?_of_opens hopen, modifier?_of_opens hopen,
        startsDeclaration, hname, hread, peekAt_apply]
    | true =>
      obtain ⟨hequals, hsecond, hassign⟩ :=
        @phrase_second finish (some indent) _ _ _ hphrase hname hline
      rw [List.cons_append] at hequals hsecond hassign
      simp [simpleForm, peek_of_seen hsee, jumpKind?_of_opens hopen, modifier?_of_opens hopen,
        startsDeclaration, hname, hread, peekAt_apply, hequals, hsecond, hassign]

theorem statement_assignment {x q : Token} {op : AssignOp} (hx : x.isIdentifier)
    (hq : q.isOperator op.text) :
    statement (expression n) block indent ⟨finish, false, none⟩ (x :: q :: (ts ++ rest)) =
      .ok ⟨.assignment ⟨x.range.start, e.range.stop⟩ (nameOf x) op e, []⟩ rest := by
  have hread := expression_complete n _ _ _ _ he hends
  obtain ⟨t, more, rfl, hopen⟩ := he.phrase.opens
  have hcodex := Token.isLayout_of_identifier hx
  have hseex : Context.skips ⟨finish, false, some indent⟩ x = false := Context.skips_of_code hcodex
  have hseeq : Context.skips ⟨finish, false, some indent⟩ q = false :=
    Context.skips_of_code (Token.isLayout_of_operator hq)
  obtain ⟨hkind, htext⟩ := Token.isOperator_iff.1 hq
  have hname : q.isIdentifier = false := by simp [Token.isIdentifier, hkind]
  have hequals : q.isOperator "=" = false := by
    simp only [Token.isOperator, hkind, htext]
    cases op <;> decide
  refine statement_of_simpleForm (fun _ _ => name_not_keyword hx _) hcodex
    (startsFunction_of_second hcodex ?_) ?_ hline
  · rw [Context.lookahead_zero_of_seen (Context.skips_of_code (Token.isLayout_of_operator hq))]
    simp [Token.isPunctuation, hkind]
  · simp only [List.cons_append] at hread
    simp [simpleForm, assignment, peek_of_seen hseex, jumpKind?_of_name hx, modifier?_of_name hx,
      startsDeclaration, hx, peekAt_apply, Context.lookahead_succ_of_seen 0 hseex,
      Context.lookahead_zero_of_seen hseeq, hname, hequals, assignOp?_of_text hq,
      advance_of_seen hseex, advance_of_seen hseeq, discard_eq_map, passLayout_of_opens hopen, hread]

/-- The modifier and the type may be left out. -/
theorem statement_declaration {ms tys : List Token} {first x q : Token} {modifier : Option Modifier}
    {typeName : Option String}
    (hms : Grammar.Optional (fun us m => ∃ t : Token, us = [t] ∧ t.isKeyword m.text) ms modifier)
    (htys : Grammar.Optional (fun us text => ∃ t : Token, us = [t] ∧ t.isIdentifier ∧ t.text = text)
      tys typeName)
    (hfirst : (ms ++ tys ++ [x]).head? = some first) (hx : x.isIdentifier) (hq : q.isOperator "=") :
    statement (expression n) block indent ⟨finish, false, none⟩
        (ms ++ (tys ++ x :: q :: (ts ++ rest))) =
      .ok ⟨.declaration ⟨first.range.start, e.range.stop⟩ modifier typeName (nameOf x) e, []⟩ rest := by
  have hread := expression_complete n _ _ _ _ he hends
  obtain ⟨v, more, rfl, hopen⟩ := he.phrase.opens
  simp only [List.cons_append] at hread
  have hcodex := Token.isLayout_of_identifier hx
  have hcodeq := Token.isLayout_of_operator hq
  have hqname : q.isIdentifier = false := by grind
  have hqparen : q.isPunctuation "(" = false := by grind
  have hxparen : x.isPunctuation "(" = false := by grind
  have hxequals : x.isOperator "=" = false := by grind
  have hsee : ∀ {t : Token} {ctx : Context}, t.isLayout = false → ctx.skips t = false :=
    Context.skips_of_code
  cases hms with
  | none =>
    cases htys with
    | none =>
      obtain rfl : x = first := by simpa using hfirst
      refine statement_of_simpleForm (fun _ _ => name_not_keyword hx _) hcodex
        (startsFunction_of_second hcodex ?_) ?_ hline
      · rwa [Context.lookahead_zero_of_seen (hsee hcodeq)]
      · simp [simpleForm, declaration, peek_of_seen (hsee hcodex), jumpKind?_of_name hx,
          modifier?_of_name hx, startsDeclaration, hx, peekAt_apply,
          Context.lookahead_succ_of_seen 0 (hsee hcodex), Context.lookahead_zero_of_seen (hsee hcodeq),
          hq, hqname, expect_of_seen (hsee hcodex), expect_of_seen (hsee hcodeq), discard_eq_map,
          passLayout_of_opens hopen, hread]
    | some hy =>
      obtain ⟨y, rfl, hy, rfl⟩ := hy
      obtain rfl : y = first := by simpa using hfirst
      have hcodey := Token.isLayout_of_identifier hy
      rw [List.nil_append, List.singleton_append]
      refine statement_of_simpleForm (fun _ _ => name_not_keyword hy _) hcodey
        (startsFunction_of_second hcodey ?_) ?_ hline
      · rwa [Context.lookahead_zero_of_seen (hsee hcodex)]
      · simp [simpleForm, declaration, peek_of_seen (hsee hcodey), jumpKind?_of_name hy,
          modifier?_of_name hy, startsDeclaration, hx, hy, peekAt_apply,
          Context.lookahead_succ_of_seen 0 (hsee hcodey),
          Context.lookahead_succ_of_seen 1 (hsee hcodey),
          Context.lookahead_succ_of_seen 0 (hsee hcodex), Context.lookahead_zero_of_seen (hsee hcodex),
          Context.lookahead_zero_of_seen (hsee hcodeq), hq, hxequals, map_eq_bind,
          advance_of_seen (hsee hcodey), expect_of_seen (hsee hcodex), expect_of_seen (hsee hcodeq),
          discard_eq_map, passLayout_of_opens hopen, hread]
  | @some _ m hm =>
    obtain ⟨w, rfl, hw⟩ := hm
    obtain rfl : w = first := by simpa using hfirst
    have hcode := Token.isLayout_of_keyword hw
    obtain ⟨hkind, htext⟩ := Token.isKeyword_iff.1 hw
    have hname : w.isIdentifier = false := by simp [Token.isIdentifier, hkind]
    refine statement_of_simpleForm ?_ hcode (startsFunction_of_first hcode hname) ?_ hline
    · simp only [Token.isKeyword, hkind, htext]
      cases m <;> decide
    · cases htys with
      | none =>
        simp [simpleForm, declaration, peek_of_seen (hsee hcode), jumpKind?_of_modifier hw,
          modifier?_of_text hw, startsDeclaration, hname, advance_of_seen (hsee hcode),
          peek_of_seen (hsee hcodex), hx, peekAt_apply, Context.lookahead_succ_of_seen 0 (hsee hcodex),
          Context.lookahead_zero_of_seen (hsee hcodeq), hq, hqname, expect_of_seen (hsee hcodex),
          expect_of_seen (hsee hcodeq), discard_eq_map, passLayout_of_opens hopen, hread]
      | some hy =>
        obtain ⟨y, rfl, hy, rfl⟩ := hy
        have hcodey := Token.isLayout_of_identifier hy
        simp [simpleForm, declaration, peek_of_seen (hsee hcode), jumpKind?_of_modifier hw,
          modifier?_of_text hw, startsDeclaration, hname, advance_of_seen (hsee hcode),
          peek_of_seen (hsee hcodey), hx, hy, peekAt_apply,
          Context.lookahead_succ_of_seen 0 (hsee hcodey), Context.lookahead_zero_of_seen (hsee hcodex),
          hq, map_eq_bind, advance_of_seen (hsee hcodey), expect_of_seen (hsee hcodex),
          expect_of_seen (hsee hcodeq), discard_eq_map, passLayout_of_opens hopen, hread]

theorem statement_return (ht : t.isKeyword JumpKind.return.text) :
    statement (expression n) block indent ⟨finish, false, none⟩ (t :: (ts ++ rest)) =
      .ok ⟨.jump ⟨t.range.start, e.range.stop⟩ .return (some e), []⟩ rest := by
  have hread := expression_complete n _ _ _ _ he hends
  obtain ⟨v, more, rfl, hopen⟩ := he.phrase.opens
  have hcode := Token.isLayout_of_keyword ht
  obtain ⟨hkind, htext⟩ := Token.isKeyword_iff.1 ht
  refine statement_of_simpleForm ?_ hcode (startsFunction_of_first hcode ?_) ?_ hline
  · simp only [Token.isKeyword, hkind, htext]
    decide
  · simp [Token.isIdentifier, hkind]
  · simp only [List.cons_append] at hread
    simp [simpleForm, jump, peek_of_seen (Context.skips_of_code hcode), jumpKind?_of_text ht,
      advance_of_seen (Context.skips_of_code hcode), atLineEnd,
      peek_of_seen (Context.skips_of_code hopen.isLayout_eq_false), hopen.isLineEnd_eq_false, hread]

end

theorem statement_jump {kind : JumpKind} (ht : t.isKeyword kind.text) (hline : LineEnds rest) :
    statement nested block indent ⟨finish, false, none⟩ (t :: rest) =
      .ok ⟨.jump t.range kind none, []⟩ rest := by
  have hcode := Token.isLayout_of_keyword ht
  obtain ⟨hkind, htext⟩ := Token.isKeyword_iff.1 ht
  refine statement_of_simpleForm ?_ hcode (startsFunction_of_first hcode ?_) ?_ hline
  · simp only [Token.isKeyword, hkind, htext]
    cases kind <;> decide
  · simp [Token.isIdentifier, hkind]
  · simp [simpleForm, jump, peek_of_seen (Context.skips_of_code hcode), jumpKind?_of_text ht,
      advance_of_seen (Context.skips_of_code hcode), atLineEnd, peek_apply, hline.lookahead]

/-- A simple statement is read from the code that derives it. A jump without a value ends with its
line, whatever follows. -/
theorem statement_of_simple {n : Nat} {s : Stmt} (h : Grammar.Simple (Grammar.Expression n) ts s)
    (hends : (∀ r kind, s ≠ .jump r kind none) → Ends ⟨finish, false, some indent⟩ rest)
    (hline : LineEnds rest) :
    statement (expression n) block indent ⟨finish, false, none⟩ (ts ++ rest) = .ok ⟨s, []⟩ rest := by
  cases h with
  | expression he => exact statement_expression he (hends (by simp)) hline
  | declaration hms htys hfirst hx hq he =>
    simpa using statement_declaration he (hends (by simp)) hline hms htys hfirst hx hq
  | assignment hx hq he => exact statement_assignment he (hends (by simp)) hline hx hq
  | jump ht => exact statement_jump ht hline
  | returning ht he => exact statement_return he (hends (by simp)) hline ht

end PineScript.Parser
