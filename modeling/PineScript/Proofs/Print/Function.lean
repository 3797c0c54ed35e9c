import PineScript.Proofs.Print.Simple

/-!
# Printed functions are read

The header of a function is told from a call by the arrow behind its list, so the brackets in the
defaults of its parameters have to match.
-/

namespace PineScript

/-! ## Parameters -/

theorem Grammar.Parameter.balanced {nested : List Token → Expr → Prop}
    (hphrase : ∀ ts e, nested ts e → Phrase ts) {ts : List Token} {p : PineScript.Parameter}
    (h : Parameter nested ts p) : Balanced ts := by
  cases h with
  | plain hwords _ _ => exact .of_names hwords
  | default hwords _ _ hq hvalue =>
    refine (Balanced.of_names hwords).append (.cons (.inl ?_) (hphrase _ _ hvalue).balanced)
    simp [(Token.isOperator_iff.1 hq).1]

namespace Parameter

theorem splitWords_ne_nil (cs : List Char) : splitWords cs ≠ [] := by
  unfold splitWords
  split
  · simp
  · split
    · simp
    · split <;> simp

theorem intercalate_splitWords (cs : List Char) : [' '].intercalate (splitWords cs) = cs := by
  induction cs with
  | nil => rfl
  | cons c cs ih =>
    obtain ⟨w, ws, hsplit⟩ := List.exists_cons_of_ne_nil (splitWords_ne_nil cs)
    rw [hsplit] at ih
    by_cases hc : c = ' '
    · rw [splitWords, if_pos hc, hsplit, List.intercalate_cons_cons, ih, hc]
      rfl
    · simp only [splitWords, if_neg hc, hsplit]
      cases ws with
      | nil => simpa using ih
      | cons v ws => simpa [List.intercalate_cons_cons] using ih

/-- The words of a type make up its text again. -/
theorem typeOf_typeWords {typeName : Option String} {ts : List Token} (hne : typeName ≠ some "")
    (h : Spells ts (typeWords typeName)) : Parser.typeOf ts = typeName := by
  cases typeName with
  | none =>
    obtain rfl := Spells.nil_iff.1 h
    rfl
  | some text =>
    have htexts : ts.map (·.text) = (splitWords text.toList).map String.ofList := by
      have := congrArg (List.map Prod.snd) h
      simpa [typeWords, Token.lexeme, Word.lexeme, Word.text, Function.comp_def] using this
    have hjoin : " ".intercalate (ts.map (·.text)) = text := by
      rw [htexts, ← String.toList_inj, String.toList_intercalate, List.map_map]
      simpa [Function.comp_def] using intercalate_splitWords text.toList
    have htext : text ≠ "" := fun heq => hne (by rw [heq])
    simp [Parser.typeOf, hjoin, htext]

theorem isIdentifier_of_typeWords {typeName : Option String} {ts : List Token}
    (h : Spells ts (typeWords typeName)) : ∀ t ∈ ts, t.isIdentifier := by
  intro t ht
  have hmem : t.lexeme ∈ (typeWords typeName).map Word.lexeme := h ▸ List.mem_map_of_mem ht
  obtain ⟨w, hw, heq⟩ := List.mem_map.1 hmem
  rw [Token.isIdentifier_iff, (Token.lexeme_eq_iff.1 heq.symm).1]
  cases typeName with
  | none => cases hw
  | some text =>
    obtain ⟨cs, -, rfl⟩ := List.mem_map.1 hw
    rfl

theorem derives {p : Parameter} (hwell : p.isWellFormed) {n : Nat}
    (hdepth : Expr.depthOf? p.default ≤ n) {ts : List Token} (hts : Spells ts p.words) :
    ∃ p', Grammar.Parameter (Grammar.Expression n) ts p' ∧ p'.erase = p.erase := by
  obtain ⟨r, typeName, name, default⟩ := p
  obtain ⟨tys, us, rfl, htys, hus⟩ := Spells.append_iff.1 hts
  obtain ⟨x, us, rfl, hx, hdefault⟩ := Spells.cons_iff.1 hus
  obtain ⟨hxname, hxtext⟩ := Parser.isIdentifier_of_lexeme hx
  have htype : Parser.typeOf tys = typeName :=
    typeOf_typeWords (by simpa [isWellFormed] using hwell) htys
  have hwords : ∀ t ∈ tys ++ [x], t.isIdentifier := by
    intro t ht
    rcases List.mem_append.1 ht with ht | ht
    · exact isIdentifier_of_typeWords htys t ht
    · rwa [List.mem_singleton.1 ht]
  have hfirst : ∃ first, (tys ++ [x]).head? = some first := by
    cases tys <;> exact ⟨_, rfl⟩
  obtain ⟨first, hfirst⟩ := hfirst
  have hlast : (tys ++ [x]).getLast? = some x := by simp
  have hname : Name.erase (Parser.nameOf x) = name.erase := by
    simp [Parser.nameOf, Name.erase, hxtext]
  cases default with
  | none =>
    obtain rfl := Spells.nil_iff.1 hdefault
    refine ⟨_, .plain hwords hfirst hlast, ?_⟩
    simp [erase, htype, hname]
  | some value =>
    obtain ⟨q, vs, rfl, hq, hvs⟩ := Spells.cons_iff.1 hdefault
    obtain ⟨e, he, herase⟩ := value.derives hdepth hvs
    have hparam := Grammar.Parameter.default hwords hfirst hlast
      (Token.isOperator_iff.2 (Token.lexeme_eq_iff.1 hq)) he
    rw [List.append_assoc, List.singleton_append] at hparam
    refine ⟨_, hparam, ?_⟩
    simp [erase, htype, hname, herase]

theorem depth_le_depths {p : Parameter} {ps : List Parameter} (h : p ∈ ps) :
    Expr.depthOf? p.default ≤ depths ps := by
  induction ps with
  | nil => cases h
  | cons q more ih =>
    rw [depths, List.foldr_cons, ← depths]
    rcases List.mem_cons.1 h with rfl | h
    · exact Nat.le_max_left _ _
    · exact Nat.le_trans (ih h) (Nat.le_max_right _ _)

end Parameter

namespace Parser

variable {finish : Position} {indent : Int} {ts rest : List Token} {ctx : Context}

theorem collect_parameterWord {words : List Token} (hwords : ∀ t ∈ words, t.isIdentifier)
    (hrest : (ctx.lookahead 0 rest).isIdentifier = false) :
    collect parameterWord ctx (words ++ rest) = .ok words rest := by
  refine Items.collect_eq ?_
  induction words with
  | nil => exact .stop (by simp [parameterWord, peek_apply, hrest])
  | cons t words ih =>
    have ht := hwords t List.mem_cons_self
    have hsee : ctx.skips t = false := Context.skips_of_code (Token.isLayout_of_identifier ht)
    refine .item ?_ ?_ (ih fun u hu => hwords u (List.mem_cons_of_mem t hu))
    · simp [parameterWord, peek_of_seen hsee, ht, advance_of_seen hsee]
    · simp

theorem parameter_complete {nested : Parser Expr} {derived : List Token → Expr → Prop}
    (hn : Complete nested derived) :
    CompleteItem ctx (parameter nested) (Grammar.Parameter derived) where
  reads := by
    intro ts p t rest hp ht
    have hsee : ctx.skips t = false := by grind
    cases hp with
    | plain hwords hfirst hname =>
      have hcollect := @collect_parameterWord (t :: rest) ctx _ hwords
        (by rw [Context.lookahead_zero_of_seen hsee]; grind)
      have hequals : t.isOperator "=" = false := by grind
      simp [parameter, hcollect, hfirst, hname, peek_of_seen hsee, hequals]
    | @default words ts first name q value hwords hfirst hname hq hvalue =>
      have hseeq : ctx.skips q = false := Context.skips_of_code (Token.isLayout_of_operator hq)
      have hcollect := @collect_parameterWord (q :: (ts ++ t :: rest)) ctx _ hwords
        (by rw [Context.lookahead_zero_of_seen hseeq]; grind)
      have hread := hn ctx ts value (t :: rest) hvalue (.of_listed ht)
      simp [parameter, hcollect, hfirst, hname, peek_of_seen hseeq, hq, discard_eq_map,
        advance_of_seen hseeq, map_eq_bind, hread]
  opens := by
    intro ts p hp
    have hhead : ∀ {words : List Token} {first : Token}, (∀ t ∈ words, t.isIdentifier) →
        words.head? = some first → ∀ vs, ∃ t more, words ++ vs = t :: more ∧ t.isLayout = false ∧
          t.isPunctuation ")" = false := by
      intro words first hwords hfirst vs
      cases words with
      | nil => cases hfirst
      | cons t words =>
        have ht := hwords t List.mem_cons_self
        exact ⟨t, words ++ vs, rfl, Token.isLayout_of_identifier ht, by grind⟩
    cases hp with
    | plain hwords hfirst _ => simpa using hhead hwords hfirst []
    | default hwords hfirst _ _ _ => exact hhead hwords hfirst _

/-! ## Functions -/

/-- The tokens of a header, with the parameters that are read from it. -/
theorem functionHeader_tokens {n : Nat} {name : Name} {parameters : List Parameter}
    (hwell : parameters.all Parameter.isWellFormed) (hdepth : Parameter.depths parameters ≤ n)
    (hts : Spells ts (functionHeader name parameters)) :
    ∃ x o ps c a parameters', ts = x :: o :: (ps ++ [c, a]) ∧ x.isIdentifier ∧ x.text = name.text ∧
      o.isPunctuation "(" ∧ Grammar.Listed (Grammar.Parameter (Grammar.Expression n)) ps parameters' ∧
      parameters'.map Parameter.erase = parameters.map Parameter.erase ∧ c.isPunctuation ")" ∧
      a.isOperator "=>" := by
  obtain ⟨x, us, rfl, hx, hus⟩ := Spells.cons_iff.1 hts
  obtain ⟨us, vs, rfl, hus, hvs⟩ := Spells.append_iff.1 hus
  obtain ⟨o, ps, c, rfl, ho, hps, hc⟩ := hus.inParens
  obtain ⟨a, rfl, ha⟩ := Spells.singleton_iff.1 hvs
  obtain ⟨hxname, hxtext⟩ := isIdentifier_of_lexeme hx
  obtain ⟨parameters', hlisted, herase⟩ := Spells.listed (fun p hp us hus =>
    Parameter.derives (List.all_eq_true.1 hwell p hp)
      (Nat.le_trans (Parameter.depth_le_depths hp) hdepth) hus) hps
  exact ⟨x, o, ps, c, a, parameters', by simp, hxname, hxtext, ho, hlisted, herase, hc,
    Token.isOperator_iff.2 (Token.lexeme_eq_iff.1 ha)⟩

variable {x o c a : Token} {ps : List Token} {parameters : List Parameter} {n : Nat}
  {block : Int → Parser (Mended Block)}

theorem startsFunction_header (hx : x.isIdentifier) (ho : o.isPunctuation "(")
    (hps : Grammar.Balanced ps) (hc : c.isPunctuation ")") (ha : a.isOperator "=>") :
    startsFunction ctx (x :: o :: (ps ++ c :: a :: rest)) =
      .ok true (x :: o :: (ps ++ c :: a :: rest)) := by
  have hseex : ctx.skips x = false := Context.skips_of_code (Token.isLayout_of_identifier hx)
  have hseeo : ctx.skips o = false := Context.skips_of_code (Token.isLayout_of_punctuation ho)
  have hclose : behindClosing 1 (ps ++ c :: a :: rest) = some (a :: rest) := by
    rw [hps 0, Grammar.behindClosing_close (.inl hc)]
    rfl
  simp [startsFunction, hseex, hseeo, hx, ho, hclose, ha]

/-- A function is read from behind its header on. -/
theorem statement_function (hx : x.isIdentifier) (ho : o.isPunctuation "(")
    (hps : Grammar.Listed (Grammar.Parameter (Grammar.Expression n)) ps parameters)
    (hc : c.isPunctuation ")") (ha : a.isOperator "=>") :
    statement (expression n) block indent ctx (x :: o :: (ps ++ c :: a :: rest)) =
      (do
        if ← atLineEnd then
          let body ← block indent
          let range : Range := ⟨x.range.start, body.value.range.stop⟩
          return ⟨.blockFunction range (nameOf x) parameters body.value, body.faults⟩
        else
          let value ← expression n
          endOfLine
          let range : Range := ⟨x.range.start, value.range.stop⟩
          return ⟨.lineFunction range (nameOf x) parameters value, []⟩ : Parser (Mended Stmt))
        ctx rest := by
  have hseex : ctx.skips x = false := Context.skips_of_code (Token.isLayout_of_identifier hx)
  have hseeo : ctx.skips o = false := Context.skips_of_code (Token.isLayout_of_punctuation ho)
  have hseea : ctx.skips a = false := Context.skips_of_code (Token.isLayout_of_operator ha)
  have hbalanced := hps.balanced fun _ _ => Grammar.Parameter.balanced fun _ _ => Grammar.Expression.phrase
  have hlist := @listItems_complete ctx _ _ _
    (parameter_complete (expression_complete n)) _ _ _ hps hc (a :: rest)
  simp [statement, peek_of_seen hseex, name_not_keyword hx,
    startsFunction_header hx ho hbalanced hc ha, function, advance_of_seen hseex, discard_eq_map,
    advance_of_seen hseeo, hlist, expect_of_seen hseea, ha]

theorem reads_lineFunction {name : Name} {parameters : List Parameter} {value : Expr} (r : Range)
    (hwell : parameters.all Parameter.isWellFormed)
    (hdepth : max (Parameter.depths parameters) value.depth ≤ n)
    (hts : Spells ts (functionHeader name parameters ++ value.words)) (hrest : LineEnds rest) :
    ReadsAs (statement (expression n) block indent) ⟨finish, false, none⟩ (ts ++ rest) rest
      (.lineFunction r name parameters value) := by
  obtain ⟨hparams, hvalue⟩ := Nat.max_le.1 hdepth
  obtain ⟨hs, us, rfl, hheader, hus⟩ := Spells.append_iff.1 hts
  obtain ⟨x, o, ps, c, a, parameters', rfl, hx, hxtext, ho, hps, herases, hc, ha⟩ :=
    functionHeader_tokens hwell hparams hheader
  obtain ⟨e, hread, herase, v, vs, rfl, hopen⟩ :=
    reads_value hvalue hus (@LineEnds.ends finish _ hrest)
  refine ⟨.lineFunction ⟨x.range.start, e.range.stop⟩ (nameOf x) parameters' e, ?_, ?_⟩
  · simp only [List.cons_append, List.append_assoc, List.nil_append] at hread ⊢
    rw [statement_function hx ho hps hc ha]
    simp [atLineEnd, peek_of_seen (Context.skips_of_code hopen.isLayout_eq_false),
      hopen.isLineEnd_eq_false, hread, hrest.endOfLine]
  · simp [Stmt.erase, nameOf, Name.erase, hxtext, herases, herase]

/-- The reader gives the block, up to ranges, and stops at `rest`. -/
def ReadsBlock (block : Int → Parser (Mended Block)) (indent : Int) (finish : Position)
    (ts rest : List Token) (body : Block) : Prop :=
  ∃ b, block indent ⟨finish, false, none⟩ ts = .ok ⟨b, []⟩ rest ∧ b.erase = body.erase

theorem reads_blockFunction {name : Name} {parameters : List Parameter} {body : Block}
    {below : List Token} (r : Range) (hwell : parameters.all Parameter.isWellFormed)
    (hdepth : Parameter.depths parameters ≤ n) (hts : Spells ts (functionHeader name parameters))
    (hline : LineEnds below) (hbody : ReadsBlock block indent finish below rest body) :
    ReadsAs (statement (expression n) block indent) ⟨finish, false, none⟩ (ts ++ below) rest
      (.blockFunction r name parameters body) := by
  obtain ⟨x, o, ps, c, a, parameters', rfl, hx, hxtext, ho, hps, herases, hc, ha⟩ :=
    functionHeader_tokens hwell hdepth hts
  obtain ⟨b, hread, herase⟩ := hbody
  refine ⟨.blockFunction ⟨x.range.start, b.range.stop⟩ (nameOf x) parameters' b, ?_, ?_⟩
  · simp only [List.cons_append, List.append_assoc, List.nil_append]
    rw [statement_function hx ho hps hc ha]
    simp [atLineEnd, peek_apply, hline.lookahead, hread]
  · simp [Stmt.erase, nameOf, Name.erase, hxtext, herases, herase]

end Parser

end PineScript
