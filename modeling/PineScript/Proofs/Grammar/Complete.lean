import PineScript.Proofs.Grammar.Phrase

/-!
# What the grammar derives is read

Each reader gives back the expression that the tokens in front of it derive, and leaves what stands
behind them. A level reads as far as it can, so this holds where nothing behind the tokens carries
the expression on: `Ends` says so of a whole expression and `EndsLevel` of one level.
-/

namespace PineScript

theorem BinaryOp.text_injective {a b : BinaryOp} (h : a.text = b.text) : a = b := by
  have hab : some a = some b := by rw [← ofText?_text a, ← ofText?_text b, h]
  exact Option.some.inj hab

/-- The operators of one level are those of one precedence. -/
theorem BinaryOp.levels_drop {k : Nat} (hk : k < 6) :
    ∃ level, levels.drop k = level :: levels.drop (k + 1) ∧
      ∀ op : BinaryOp, op ∈ level ↔ op.precedence = k := by
  match k, hk with
  | 0, _ | 1, _ | 2, _ | 3, _ | 4, _ | 5, _ =>
    refine ⟨_, rfl, ?_⟩
    intro op
    cases op <;> decide

namespace Parser

variable {ctx : Context} {rest : List Token}

/-! ## Ends of expressions -/

/-- With this operator at its beginning, a line may carry on the expression above it. A colon may do
so only behind the first branch of a choice. -/
def Carries (spelling : String) : Prop := spelling = "?" ∨ ∃ op : BinaryOp, spelling = op.text

/-- Nothing carries the expression in front of here on. -/
structure Ends (ctx : Context) (rest : List Token) : Prop where
  noJoin : ∀ spellings, (∀ s ∈ spellings, Carries s) → joinLine spellings ctx rest = .ok () rest
  stops : ¬ (ctx.lookahead 0 rest).Continues

/-- Nothing carries the operation of a level in front of here on: there is no call, no subscript and
no operator of that level or a tighter one. -/
structure EndsLevel (k : Nat) (ctx : Context) (rest : List Token) : Prop where
  noJoin : ∀ spellings, (∀ s ∈ spellings, Carries s) → joinLine spellings ctx rest = .ok () rest
  noCall : (ctx.lookahead 0 rest).isPunctuation "(" = false
  noIndex : (ctx.lookahead 0 rest).isPunctuation "[" = false
  noOperator : ∀ op : BinaryOp, k ≤ op.precedence →
    (ctx.lookahead 0 rest).kind = .operator ∨ (ctx.lookahead 0 rest).kind = .keyword →
    (ctx.lookahead 0 rest).text ≠ op.text

theorem Ends.endsLevel (h : Ends ctx rest) (k : Nat) : EndsLevel k ctx rest where
  noJoin := h.noJoin
  noCall := Bool.eq_false_iff.2 fun hcall => h.stops (.inl hcall)
  noIndex := Bool.eq_false_iff.2 fun hindex => h.stops (.inr (.inl hindex))
  noOperator := fun op _ hkind htext => h.stops (.inr (.inr (.inr ⟨op, hkind, htext⟩)))

theorem EndsLevel.mono {k l : Nat} (h : EndsLevel k ctx rest) (hkl : k ≤ l) :
    EndsLevel l ctx rest where
  noJoin := h.noJoin
  noCall := h.noCall
  noIndex := h.noIndex
  noOperator := fun op hop => h.noOperator op (Nat.le_trans hkl hop)

theorem noJoin_of_code {t : Token} (ht : t.isLayout = false) (spellings : List String) :
    joinLine spellings ctx (t :: rest) = .ok () (t :: rest) := by
  refine joinLine_of_lookahead ?_
  rw [Context.lookahead_zero_of_seen (Context.skips_of_code ht)]
  intro hkind
  rw [Token.isLayout_iff.2 (.inl hkind)] at ht
  exact Bool.noConfusion ht

theorem Ends.of_code {t : Token} (ht : t.isLayout = false) (hstop : ¬ t.Continues) :
    Ends ctx (t :: rest) where
  noJoin := fun spellings _ => noJoin_of_code ht spellings
  stops := by rwa [Context.lookahead_zero_of_seen (Context.skips_of_code ht)]

/-- In front of punctuation that opens nothing an expression ends. -/
theorem Ends.of_punctuation {t : Token} {mark : String} (ht : t.isPunctuation mark = true)
    (hparen : mark ≠ "(") (hbracket : mark ≠ "[") : Ends ctx (t :: rest) := by
  refine .of_code (Token.isLayout_of_punctuation ht) fun h => ?_
  rcases h.of_punctuation ht with h | h
  · exact hparen h
  · exact hbracket h

/-- In front of an operator the tighter levels end. -/
theorem EndsLevel.of_operator {t : Token} {op : BinaryOp} {k : Nat} (ht : op.Written t)
    (hk : op.precedence < k) : EndsLevel k ctx (t :: rest) := by
  have hkind := ht.loose.1
  have hlayout : t.isLayout = false := ht.continues.isLayout_eq_false
  have hsee : ctx.lookahead 0 (t :: rest) = t :=
    Context.lookahead_zero_of_seen (Context.skips_of_code hlayout)
  refine ⟨fun spellings _ => noJoin_of_code hlayout spellings, ?_, ?_, ?_⟩
  · rw [hsee]; grind
  · rw [hsee]; grind
  · rw [hsee]
    intro op' hop' _ htext
    have hsame : op' = op := BinaryOp.text_injective (htext.symm.trans ht.2)
    subst hsame
    exact absurd hop' (Nat.not_le.2 hk)

/-- In front of a question mark every level of operators ends. -/
theorem EndsLevel.of_question {t : Token} {k : Nat} (ht : t.isOperator "?") :
    EndsLevel k ctx (t :: rest) := by
  obtain ⟨hkind, htext⟩ := Token.isOperator_iff.1 ht
  have hlayout : t.isLayout = false := Token.isLayout_of_operator ht
  have hsee : ctx.lookahead 0 (t :: rest) = t :=
    Context.lookahead_zero_of_seen (Context.skips_of_code hlayout)
  refine ⟨fun spellings _ => noJoin_of_code hlayout spellings, ?_, ?_, ?_⟩
  · rw [hsee]; grind
  · rw [hsee]; grind
  · rw [hsee, htext]
    intro op _ _
    cases op <;> decide

/-! ## Classes of tokens -/

theorem literal?_eq_some_iff {t : Token} {v : Literal} : literal? t = some v ↔ v.Written t := by
  constructor
  · intro h
    unfold literal? at h
    split at h
    · cases h; exact ⟨‹_›, rfl⟩
    · cases h; exact ⟨‹_›, rfl⟩
    · cases h; exact ⟨‹_›, rfl⟩
    · split at h
      · cases h; exact ⟨‹_›, ‹_›⟩
      · split at h
        · cases h; exact ⟨‹_›, ‹_›⟩
        · cases h
    · cases h
  · rintro ⟨hkind, htext⟩
    cases v with
    | number s => simp [literal?, hkind, Literal.kind, htext, Literal.text]
    | string s => simp [literal?, hkind, Literal.kind, htext, Literal.text]
    | color s => simp [literal?, hkind, Literal.kind, htext, Literal.text]
    | bool b => cases b <;> simp [literal?, hkind, Literal.kind, htext, Literal.text]

theorem unaryOp?_eq_some_iff {t : Token} {op : UnaryOp} :
    unaryOp? t = some op ↔ op.Written t := by
  unfold unaryOp? UnaryOp.Written
  constructor
  · intro h
    split at h
    · cases h; exact Token.isKeyword_iff.1 ‹_›
    · split at h
      · cases h; exact Token.isOperator_iff.1 ‹_›
      · split at h
        · cases h; exact Token.isOperator_iff.1 ‹_›
        · cases h
  · rintro ⟨hkind, htext⟩
    cases op <;> simp [Token.isKeyword, Token.isOperator, hkind, htext, UnaryOp.kind, UnaryOp.text]

theorem binaryOp?_of_written {level : List BinaryOp} {t : Token} {op : BinaryOp}
    (ht : op.Written t) (hop : op ∈ level) : binaryOp? level t = some op := by
  obtain ⟨hkind, htext⟩ := ht.loose
  have hkind' : (t.kind == .operator || t.kind == .keyword) = true := by simpa using hkind
  simp only [binaryOp?, hkind', ↓reduceIte]
  cases hfind : level.find? (·.text == t.text) with
  | none =>
    have := List.find?_eq_none.1 hfind op hop
    simp [htext] at this
  | some op' =>
    have htext' : op'.text = t.text := by simpa using List.find?_some hfind
    rw [BinaryOp.text_injective (htext'.trans htext)]

theorem EndsLevel.binaryOp?_eq_none {k : Nat} {level : List BinaryOp} (h : EndsLevel k ctx rest)
    (hlevel : ∀ op ∈ level, op.precedence = k) :
    binaryOp? level (ctx.lookahead 0 rest) = none := by
  unfold binaryOp?
  split
  · rename_i hkind
    rw [List.find?_eq_none]
    intro op hop
    have hne := h.noOperator op (Nat.le_of_eq (hlevel op hop).symm) (by simpa using hkind)
    simpa using fun htext => hne htext.symm
  · rfl

/-! ## Levels

`Complete` is what the readers of nested expressions are assumed to do, in every context. -/

/-- The reader gives every expression that is derived in front of an end. -/
def Complete (reader : Parser Expr) (derived : List Token → Expr → Prop) : Prop :=
  ∀ ctx ts e rest, derived ts e → Ends ctx rest → reader ctx (ts ++ rest) = .ok e rest

section Levels

variable {nested : Parser Expr} {derived : List Token → Expr → Prop} (hn : Complete nested derived)
  (hphrase : ∀ ts e, derived ts e → Grammar.Phrase ts) {k : Nat} {ts : List Token} {e : Expr}

include hn in
theorem primary_complete (h : Grammar.Primary derived ts e) (rest : List Token) :
    primary nested ctx (ts ++ rest) = .ok e rest := by
  cases h with
  | @literal t v ht =>
    have hlit : literal? t = some v := literal?_eq_some_iff.2 ht
    have hsee : ctx.skips t = false :=
      Context.skips_of_code (Token.Opens.isLayout_eq_false (.inl ⟨v, ht⟩))
    simp [primary, peek_of_seen hsee, hlit, discard_eq_map, advance_of_seen hsee]
  | @name t ht =>
    have hsee : ctx.skips t = false := Context.skips_of_code (Token.isLayout_of_identifier ht)
    have hlit : literal? t = none := by simp [literal?, Token.isIdentifier_iff.1 ht]
    simp [primary, peek_of_seen hsee, hlit, ht, discard_eq_map, advance_of_seen hsee, nameOf]
  | @parens o c ts e ho he hc =>
    have hsee : ctx.skips o = false := Context.skips_of_code (Token.isLayout_of_punctuation ho)
    have hlit : literal? o = none := by simp [literal?, (Token.isPunctuation_iff.1 ho).1]
    have hname : o.isIdentifier = false := by grind
    have hclose : c.isLayout = false := Token.isLayout_of_punctuation hc
    have hinner := hn { ctx with bracketed := true } ts e (c :: rest) he
      (.of_punctuation hc (by decide) (by decide))
    simp [primary, peek_of_seen hsee, hlit, hname, ho, discard_eq_map, advance_of_seen hsee,
      bracketed, hinner, expect_of_seen (Context.skips_of_code hclose), hc]

/-! ### Lists in parentheses -/

/-- The reader gives every item that is derived in front of a comma or the closing parenthesis, and
no item begins with that parenthesis. -/
structure CompleteItem {α : Type} (ctx : Context) (reader : Parser α)
    (derived : List Token → α → Prop) : Prop where
  reads : ∀ ts a t rest, derived ts a → t.isPunctuation "," ∨ t.isPunctuation ")" →
    reader ctx (ts ++ t :: rest) = .ok a (t :: rest)
  opens : ∀ ts a, derived ts a →
    ∃ t more, ts = t :: more ∧ t.isLayout = false ∧ t.isPunctuation ")" = false

theorem listItem_complete {α : Type} {reader : Parser α} {derived : List Token → α → Prop}
    (hitem : CompleteItem ctx reader derived) {ts : List Token} {a : α} {t : Token}
    (ha : derived ts a) (ht : t.isPunctuation "," ∨ t.isPunctuation ")") (rest : List Token) :
    listItem reader ctx (ts ++ t :: rest) =
      .ok (some a) (if t.isPunctuation "," then rest else t :: rest) := by
  obtain ⟨first, more, rfl, hfirst, hnot⟩ := hitem.opens _ _ ha
  have hread := hitem.reads _ _ _ rest ha ht
  have hcode : t.isLayout = false := ht.elim Token.isLayout_of_punctuation Token.isLayout_of_punctuation
  have hsee : ctx.skips t = false := Context.skips_of_code hcode
  have hpeek : peek ctx (first :: (more ++ t :: rest)) = .ok first (first :: (more ++ t :: rest)) :=
    peek_of_seen (Context.skips_of_code hfirst)
  rw [List.cons_append] at hread
  simp only [listItem, bind_apply, List.cons_append, hpeek, hnot, Bool.false_eq_true, ↓reduceIte,
    hread, peek_of_seen hsee]
  split
  · simp [discard_eq_map, advance_of_seen hsee]
  · have hclose : t.isPunctuation ")" = true := by simp_all
    simp [hclose]

theorem listItems_complete {α : Type} {reader : Parser α} {derived : List Token → α → Prop}
    (hitem : CompleteItem { ctx with bracketed := true } reader derived) {ts : List Token}
    {as : List α} {c : Token} (has : Grammar.Listed derived ts as) (hc : c.isPunctuation ")")
    (rest : List Token) : listItems reader ctx (ts ++ c :: rest) = .ok (as, c) rest := by
  have hsee : Context.skips { ctx with bracketed := true } c = false :=
    Context.skips_of_code (Token.isLayout_of_punctuation hc)
  have hitems : Items (listItem reader) { ctx with bracketed := true } (ts ++ c :: rest) as
      (c :: rest) := by
    have hstop : listItem reader { ctx with bracketed := true } (c :: rest) = .ok none (c :: rest) := by
      simp [listItem, peek_of_seen hsee, hc]
    induction has with
    | none => exact .stop hstop
    | @last ts a ha =>
      obtain ⟨t, more, rfl, -⟩ := hitem.opens _ _ ha
      have hread := listItem_complete hitem ha (.inr hc) rest
      rw [if_neg (by grind)] at hread
      refine .item hread ?_ (.stop hstop)
      simp only [List.cons_append, List.length_cons, List.length_append]
      omega
    | @more ts us comma a as ha hcomma _ ih =>
      have hread := listItem_complete hitem ha (.inl hcomma) (us ++ c :: rest)
      rw [if_pos hcomma] at hread
      rw [List.append_assoc, List.cons_append]
      exact .item hread (by simp; omega) ih
  simp [listItems, bracketed, hitems.collect_eq, advance_of_seen hsee]

theorem Ends.of_listed {t : Token} (ht : t.isPunctuation "," ∨ t.isPunctuation ")") :
    Ends ctx (t :: rest) := by
  rcases ht with ht | ht
  · exact .of_punctuation ht (by decide) (by decide)
  · exact .of_punctuation ht (by decide) (by decide)

include hn hphrase in
theorem argument_complete : CompleteItem ctx (argument nested) (Grammar.Argument derived) where
  reads := by
    intro ts a t rest ha ht
    cases ha with
    | @positional ts e he =>
      have hinner := hn ctx ts e (t :: rest) he (.of_listed ht)
      obtain ⟨first, more, rfl, hopen⟩ := (hphrase _ _ he).opens
      have hsee : ctx.skips first = false := Context.skips_of_code hopen.isLayout_eq_false
      -- Behind a name at the beginning there is no equals sign.
      have hpositional : (first.isIdentifier &&
          (ctx.lookahead 1 (first :: (more ++ t :: rest))).isOperator "=") = false := by
        rw [Context.lookahead_succ_of_seen 0 hsee]
        cases hname : first.isIdentifier with
        | false => rfl
        | true =>
          cases more with
          | nil =>
            have hcode : t.isLayout = false :=
              ht.elim Token.isLayout_of_punctuation Token.isLayout_of_punctuation
            rw [List.nil_append, Context.lookahead_zero_of_seen (Context.skips_of_code hcode)]
            grind
          | cons u more =>
            have hu := (hphrase _ _ he).second _ _ _ rfl hname
            rw [List.cons_append,
              Context.lookahead_zero_of_seen (Context.skips_of_code hu.isLayout_eq_false)]
            exact hu.not_equals
      simp only [argument, bind_apply, List.cons_append, peek_of_seen hsee, peekAt_apply, hpositional]
      rw [List.cons_append] at hinner
      simp [hinner]
    | @named n q ts e hname hq he =>
      have hinner := hn ctx ts e (t :: rest) he (.of_listed ht)
      have hsee : ctx.skips n = false := Context.skips_of_code (Token.isLayout_of_identifier hname)
      have hseeq : ctx.skips q = false := Context.skips_of_code (Token.isLayout_of_operator hq)
      simp [argument, peek_of_seen hsee, hname, peekAt_apply, Context.lookahead_succ_of_seen 0 hsee,
        Context.lookahead_zero_of_seen hseeq, hq, discard_eq_map, advance_of_seen hsee,
        advance_of_seen hseeq, hinner, nameOf]
  opens := by
    intro ts a ha
    cases ha with
    | positional he =>
      obtain ⟨t, more, rfl, hopen⟩ := (hphrase _ _ he).opens
      exact ⟨t, more, rfl, hopen.isLayout_eq_false, hopen.not_closeParen⟩
    | @named n q ts e hname _ _ =>
      exact ⟨n, q :: ts, rfl, Token.isLayout_of_identifier hname, by grind⟩

/-! ### Calls and subscripts -/

include hn hphrase in
theorem suffix_call {o c : Token} {arguments : List Argument} (e : Expr) (ho : o.isPunctuation "(")
    (hargs : Grammar.Listed (Grammar.Argument derived) ts arguments) (hc : c.isPunctuation ")")
    (rest : List Token) :
    suffix nested e ctx (o :: (ts ++ c :: rest)) =
      .ok (some (.call ⟨e.range.start, c.range.stop⟩ e arguments)) rest := by
  have hsee : ctx.skips o = false := Context.skips_of_code (Token.isLayout_of_punctuation ho)
  have hlist : listItems (argument nested) ctx (ts ++ c :: rest) = .ok (arguments, c) rest :=
    listItems_complete (argument_complete hn hphrase) hargs hc rest
  simp [suffix, peek_of_seen hsee, ho, discard_eq_map, advance_of_seen hsee, hlist]

include hn in
theorem suffix_index {o c : Token} {subscript : Expr} (e : Expr) (ho : o.isPunctuation "[")
    (hsub : derived ts subscript) (hc : c.isPunctuation "]") (rest : List Token) :
    suffix nested e ctx (o :: (ts ++ c :: rest)) =
      .ok (some (.index ⟨e.range.start, c.range.stop⟩ e subscript)) rest := by
  have hsee : ctx.skips o = false := Context.skips_of_code (Token.isLayout_of_punctuation ho)
  have hnot : o.isPunctuation "(" = false := by grind
  have hclose : c.isLayout = false := Token.isLayout_of_punctuation hc
  have hinner := hn { ctx with bracketed := true } ts subscript (c :: rest) hsub
    (.of_punctuation hc (by decide) (by decide))
  simp [suffix, peek_of_seen hsee, hnot, ho, discard_eq_map, advance_of_seen hsee, bracketed, hinner,
    expect_of_seen (Context.skips_of_code hclose), hc]

theorem EndsLevel.suffix_eq_none (h : EndsLevel k ctx rest) (e : Expr) :
    suffix nested e ctx rest = .ok none rest := by
  simp [suffix, peek_apply, h.noCall, h.noIndex]

include hn hphrase in
theorem postfix_rounds (h : Grammar.Postfix derived ts e) (ctx : Context) (rest : List Token) :
    ∃ first mid, primary nested ctx (ts ++ rest) = .ok first mid ∧
      Rounds (suffix nested) ctx first mid e rest := by
  induction h generalizing rest with
  | primary he => exact ⟨_, rest, primary_complete hn he rest, .refl⟩
  | @call o c ts us e arguments _ ho hargs hc ih =>
    obtain ⟨first, mid, hfirst, hrounds⟩ := ih (o :: (us ++ c :: rest))
    refine ⟨first, mid, ?_, hrounds.snoc (suffix_call hn hphrase e ho hargs hc rest) ?_⟩
    · simpa using hfirst
    · simp; omega
  | @index o c ts us e subscript _ ho hsub hc ih =>
    obtain ⟨first, mid, hfirst, hrounds⟩ := ih (o :: (us ++ c :: rest))
    refine ⟨first, mid, ?_, hrounds.snoc (suffix_index hn e ho hsub hc rest) ?_⟩
    · simpa using hfirst
    · simp; omega

include hn hphrase in
theorem suffixed_complete (h : Grammar.Postfix derived ts e) (hrest : EndsLevel k ctx rest) :
    suffixed nested ctx (ts ++ rest) = .ok e rest := by
  obtain ⟨first, mid, hfirst, hrounds⟩ := postfix_rounds hn hphrase h ctx rest
  simp [suffixed, hfirst, hrounds.iterate_eq (hrest.suffix_eq_none e)]

/-! ### Signs -/

/-- An operand of signs does not begin with one. -/
theorem postfix_head (h : Grammar.Postfix derived ts e) :
    ∃ t more, ts = t :: more ∧ t.isLayout = false ∧ unaryOp? t = none := by
  induction h with
  | primary he =>
    cases he with
    | @literal t v ht =>
      refine ⟨t, [], rfl, Token.Opens.isLayout_eq_false (.inl ⟨v, ht⟩), ?_⟩
      obtain ⟨hkind, htext⟩ := ht
      cases v with
      | bool b =>
        cases b <;>
          simp [unaryOp?, Token.isKeyword, Token.isOperator, hkind, htext, Literal.kind, Literal.text]
      | _ => simp [unaryOp?, Token.isKeyword, Token.isOperator, hkind, Literal.kind]
    | @name t ht =>
      have hkind := Token.isIdentifier_iff.1 ht
      exact ⟨t, [], rfl, Token.isLayout_of_identifier ht,
        by simp [unaryOp?, Token.isKeyword, Token.isOperator, hkind]⟩
    | @parens o c ts _ ho _ _ =>
      have hkind := (Token.isPunctuation_iff.1 ho).1
      exact ⟨o, _, rfl, Token.isLayout_of_punctuation ho,
        by simp [unaryOp?, Token.isKeyword, Token.isOperator, hkind]⟩
  | call _ _ _ _ ih =>
    obtain ⟨t, more, rfl, ht⟩ := ih
    exact ⟨t, _, rfl, ht⟩
  | index _ _ _ _ ih =>
    obtain ⟨t, more, rfl, ht⟩ := ih
    exact ⟨t, _, rfl, ht⟩

include hn hphrase in
/-- The signs in front of an operand, each with its place. -/
theorem unary_items (h : Grammar.Unary derived ts e) (hrest : EndsLevel k ctx rest) :
    ∃ signs mid operand, Items sign ctx (ts ++ rest) signs mid ∧
      suffixed nested ctx mid = .ok operand rest ∧
      e = signs.foldr (fun (op, r) e => .unary ⟨r.start, e.range.stop⟩ op e) operand := by
  induction h with
  | operand he =>
    have hread := suffixed_complete hn hphrase he hrest
    obtain ⟨t, more, rfl, hlayout, hsign⟩ := postfix_head he
    refine ⟨[], _, _, .stop ?_, hread, rfl⟩
    simp [sign, peek_of_seen (Context.skips_of_code hlayout), hsign]
  | @sign t op ts e ht _ ih =>
    obtain ⟨signs, mid, operand, hitems, hread, rfl⟩ := ih
    have hsee : ctx.skips t = false :=
      Context.skips_of_code (Token.Opens.isLayout_eq_false (.inr (.inr (.inl ⟨op, ht⟩))))
    refine ⟨(op, t.range) :: signs, mid, operand, .item ?_ ?_ hitems, hread, rfl⟩
    · simp [sign, peek_of_seen hsee, unaryOp?_eq_some_iff.2 ht, discard_eq_map, advance_of_seen hsee]
    · simp

include hn hphrase in
theorem signed_complete (h : Grammar.Unary derived ts e) (hrest : EndsLevel k ctx rest) :
    signed nested ctx (ts ++ rest) = .ok e rest := by
  obtain ⟨signs, mid, operand, hitems, hread, rfl⟩ := unary_items hn hphrase h hrest
  simp [signed, hitems.collect_eq, hread]

/-! ### Binary operators -/

theorem operation_complete {level : List BinaryOp} {tighter : Parser Expr} {t : Token}
    {op : BinaryOp} {ts : List Token} {left right : Expr} (ht : op.Written t) (hop : op ∈ level)
    (hts : Grammar.Phrase ts) (hright : tighter ctx (ts ++ rest) = .ok right rest) :
    operation level tighter left ctx (t :: (ts ++ rest)) =
      .ok (some (.binary (left.range.span right.range) op left right)) rest := by
  have hlayout : t.isLayout = false := ht.continues.isLayout_eq_false
  have hsee : ctx.skips t = false := Context.skips_of_code hlayout
  obtain ⟨first, more, rfl, hopen⟩ := hts.opens
  have hpass : passLayout ctx (first :: more ++ rest) = .ok () (first :: more ++ rest) :=
    passLayout_of_code hopen.isLayout_eq_false
  simp only [operation, bind_apply, noJoin_of_code hlayout, peek_of_seen hsee,
    binaryOp?_of_written ht hop, discard_eq_map, advance_of_seen hsee, pure_apply, hpass, hright]

theorem EndsLevel.operation_eq_none {k : Nat} {level : List BinaryOp} (h : EndsLevel k ctx rest)
    (hlevel : ∀ op ∈ level, op.precedence = k) (tighter : Parser Expr) (left : Expr) :
    operation level tighter left ctx rest = .ok none rest := by
  have hcarries : ∀ s ∈ level.map BinaryOp.text, Carries s := by
    intro s hs
    obtain ⟨op, -, rfl⟩ := List.mem_map.1 hs
    exact .inr ⟨op, rfl⟩
  simp [operation, h.noJoin _ hcarries, peek_apply, h.binaryOp?_eq_none hlevel]

/-- The operations of a level are read. -/
def LevelReads (nested : Parser Expr) (k : Nat) (ts : List Token) (e : Expr) : Prop :=
  ∀ ctx rest, EndsLevel k ctx rest →
    operations nested (BinaryOp.levels.drop k) ctx (ts ++ rest) = .ok e rest

/-- A level reads its first operand and then, round by round, operators with their right sides. -/
def LevelRounds (nested : Parser Expr) (k : Nat) (ts : List Token) (e : Expr) : Prop :=
  ∀ level ctx rest, BinaryOp.levels.drop k = level :: BinaryOp.levels.drop (k + 1) →
    (∀ op : BinaryOp, op ∈ level ↔ op.precedence = k) → EndsLevel (k + 1) ctx rest →
    ∃ first mid,
      operations nested (BinaryOp.levels.drop (k + 1)) ctx (ts ++ rest) = .ok first mid ∧
      Rounds (operation level (operations nested (BinaryOp.levels.drop (k + 1)))) ctx first mid e rest

/-- Behind its rounds the loop of a level stops where the level ends. -/
theorem LevelRounds.levelReads (h : LevelRounds nested k ts e) (hk : k < 6) :
    LevelReads nested k ts e := by
  intro ctx rest hrest
  obtain ⟨level, hdrop, hlevel⟩ := BinaryOp.levels_drop hk
  obtain ⟨first, mid, hfirst, hrounds⟩ :=
    h level ctx rest hdrop hlevel (hrest.mono (Nat.le_succ k))
  have hstop := hrest.operation_eq_none (fun op hop => (hlevel op).1 hop)
    (operations nested (BinaryOp.levels.drop (k + 1))) e
  rw [hdrop, operations, bind_apply, hfirst]
  exact hrounds.iterate_eq hstop

include hn hphrase in
theorem operations_complete (h : Grammar.Binary derived k ts e) :
    LevelReads nested k ts e ∧ (k < 6 → LevelRounds nested k ts e) := by
  -- The rounds carry the induction: the loop of a level takes its left side round by round, while
  -- the right side is one run of the next level.
  induction h with
  | unary he => exact ⟨fun ctx rest hrest => signed_complete hn hphrase he hrest, by simp⟩
  | @tighter k ts e he ih =>
    have hrounds : LevelRounds nested k ts e :=
      fun level ctx rest _ _ hrest => ⟨e, rest, ih.1 ctx rest hrest, .refl⟩
    exact ⟨hrounds.levelReads he.le_six, fun _ => hrounds⟩
  | @operation k t op ts us left right hleft hop ht hright ihl ihr =>
    have hk : k < 6 := hright.le_six
    have hrounds : LevelRounds nested k (ts ++ t :: us)
        (.binary ⟨left.range.start, right.range.stop⟩ op left right) := by
      intro level ctx rest hdrop hlevel hrest
      have hends : EndsLevel (k + 1) ctx (t :: (us ++ rest)) := .of_operator ht (by omega)
      obtain ⟨first, mid, hfirst, hmore⟩ :=
        ihl.2 hk level ctx (t :: (us ++ rest)) hdrop hlevel hends
      refine ⟨first, mid, ?_, hmore.snoc ?_ ?_⟩
      · simpa using hfirst
      · exact operation_complete ht ((hlevel op).2 hop) (hright.phrase hphrase) (ihr.1 ctx rest hrest)
      · simp only [List.length_cons, List.length_append]
        omega
    exact ⟨hrounds.levelReads hk, fun _ => hrounds⟩

/-! ### Choices -/

include hn hphrase in
theorem ternary_complete : Complete (ternary nested) (Grammar.Ternary derived) := by
  intro ctx ts e rest h hrest
  cases h with
  | binary he =>
    have hread := (operations_complete hn hphrase he).1 ctx rest (hrest.endsLevel 0)
    have hnot : (ctx.lookahead 0 rest).isOperator "?" = false :=
      Bool.eq_false_iff.2 fun hq => hrest.stops (.inr (.inr (.inl hq)))
    rw [List.drop_zero] at hread
    have hstay := hrest.noJoin ["?"] (by simp [Carries])
    simp [ternary, hread, hstay, peek_apply, hnot]
  | @choice q c ts us vs condition whenTrue whenFalse hcond hq htrue hc hfalse =>
    have hlayout : q.isLayout = false := Token.isLayout_of_operator hq
    have hsee : ctx.skips q = false := Context.skips_of_code hlayout
    have hcolon : c.isLayout = false := Token.isLayout_of_operator hc
    have hread := (operations_complete hn hphrase hcond).1 ctx (q :: (us ++ c :: (vs ++ rest)))
      (.of_question hq)
    -- A colon carries nothing on, so the first branch ends there.
    have hends : Ends ctx (c :: (vs ++ rest)) := by
      refine .of_code hcolon ?_
      intro hcont
      rw [hcont.not_operator (by decide) (by intro op; cases op <;> decide)] at hc
      exact Bool.noConfusion hc
    have htrue' := hn ctx us whenTrue _ htrue hends
    have hfalse' := hn ctx vs whenFalse rest hfalse hrest
    obtain ⟨first, us, rfl, hfirst⟩ := (hphrase _ _ htrue).opens
    obtain ⟨second, vs, rfl, hsecond⟩ := (hphrase _ _ hfalse).opens
    rw [List.drop_zero] at hread
    simp only [List.cons_append] at hread htrue' hfalse'
    simp only [ternary, bind_apply, List.append_assoc, List.cons_append, hread,
      noJoin_of_code hlayout, peek_of_seen hsee, hq, ↓reduceIte, discard_eq_map,
      advance_of_seen hsee, pure_apply, passLayout_of_code hfirst.isLayout_eq_false, htrue',
      noJoin_of_code hcolon, expect_of_seen (Context.skips_of_code hcolon), hc,
      passLayout_of_code hsecond.isLayout_eq_false, hfalse']
    rfl

end Levels

/-- An expression that the grammar derives is read. -/
theorem expression_complete (n : Nat) : Complete (expression n) (Grammar.Expression n) := by
  induction n with
  | zero => exact fun _ _ _ _ h => h.elim
  | succ n ih => exact ternary_complete ih fun _ _ he => he.phrase

end Parser

end PineScript
