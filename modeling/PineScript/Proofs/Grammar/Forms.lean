import PineScript.Proofs.Grammar.Ending
import PineScript.Proofs.Grammar.Simple
import PineScript.Proofs.Parser.PlacedStmt
import PineScript.Proofs.Parser.Seen

/-!
# Forms of statements are derived

A statement without a block that was read is derived by the code that was taken, and the next line
does not carry its value on. The parameters of a function are derived likewise.
-/

namespace PineScript.Parser

variable {n : Nat} {ctx : Context} {ts mid : List Token} {t : Token}

/-! ## Words and operators -/

/-- What a table finds for the text of a token of the right kind. -/
theorem spelled_of_table {α : Type} {kind : TokenKind} {table : List α} {text : α → String} {a : α}
    (h : (if t.kind == kind then table.find? (text · == t.text) else none) = some a) :
    t.kind = kind ∧ t.text = text a := by
  split at h
  · next hkind =>
    have htext : text a = t.text := by simpa using List.find?_some h
    exact ⟨by simpa using hkind, htext.symm⟩
  · cases h

theorem isKeyword_of_jumpKind? {kind : JumpKind} (h : jumpKind? t = some kind) :
    t.isKeyword kind.text = true :=
  Token.isKeyword_iff.2 (spelled_of_table h)

theorem isKeyword_of_modifier? {modifier : Modifier} (h : modifier? t = some modifier) :
    t.isKeyword modifier.text = true :=
  Token.isKeyword_iff.2 (spelled_of_table h)

theorem isOperator_of_assignOp? {op : AssignOp} (h : assignOp? t = some op) :
    t.isOperator op.text = true :=
  Token.isOperator_iff.2 (spelled_of_table h)

/-! ## Values -/

/-- A value that was read is derived, and nothing carries it on. -/
theorem expression_whole (n : Nat) (ctx : Context) (hts : Scans ts) :
    wp (expression n) ctx ts
      (fun e rest => ∃ us, Spans ts us rest ∧ Grammar.Expression n us e ∧ Settles ctx rest)
      (fun _ _ => True) := by
  refine wp_mono (wp_and (expression_sound n ctx ts hts) (expression_settles n ctx ts)) ?_
    (fun _ _ _ => trivial)
  rintro e rest ⟨⟨us, hus, he⟩, hsettles⟩
  exact ⟨us, hus, he, hsettles⟩

theorem expression_whole_behind (n : Nat) (ctx : Context) (hts : Scans ts) :
    wp (expression n) ctx (ts.dropWhile Token.isLayout)
      (fun e rest => ∃ us, Spans ts us rest ∧ Grammar.Expression n us e ∧ Settles ctx rest)
      (fun _ _ => True) := by
  refine wp_imp (expression_whole n ctx (hts.dropWhile _)) ?_
  rintro e rest ⟨us, hus, he, hsettles⟩
  obtain ⟨t, more, rfl, -⟩ := he.phrase.opens
  exact ⟨t :: more, hus.of_dropWhile (fun _ => id) (List.cons_ne_nil t more), he, hsettles⟩

/-! ## Simple statements -/

/-- The statement is derived by the code that was taken. Only a jump without a value says nothing
about the next line. -/
def Formed (n : Nat) (ctx : Context) (ts : List Token) (s : Stmt) (rest : List Token) : Prop :=
  ∃ us, Spans ts us rest ∧ Grammar.Simple (Grammar.Expression n) us s ∧
    ((∀ r kind, s ≠ .jump r kind none) → Settles ctx rest)

theorem jump_formed {kind : JumpKind} (hts : Scans ts)
    (hkind : jumpKind? (ctx.lookahead 0 ts) = some kind) :
    wp (jump (expression n) kind) ctx ts (Formed n ctx ts) (fun _ _ => True) := by
  have hkeyword := isKeyword_of_jumpKind? hkind
  have htake := Spans.take (isLineEnd_of_keyword _ hkeyword)
  unfold jump atLineEnd
  simp only [wp_bind, wp_advance, wp_peek, wp_ite, wp_pure]
  split
  · exact ⟨_, htake, .jump hkeyword, fun h => absurd rfl (h _ _)⟩
  · rename_i hvalue
    obtain rfl : kind = .return := by
      simp only [Bool.or_eq_true, not_or, bne_iff_ne, ne_eq, not_not] at hvalue
      exact hvalue.1
    refine wp_imp (expression_whole n ctx (hts.behind htake)) ?_
    rintro e rest ⟨us, hus, he, hsettles⟩
    exact ⟨_, htake.trans hus, .returning hkeyword he, fun _ => hsettles⟩

/-- A declaration from its name on. -/
theorem named_formed {ms tys : List Token} {first : Token} {modifier : Option Modifier}
    {typeName : Option String} (hts : Scans ts)
    (hms : Grammar.Optional (fun us m => ∃ t : Token, us = [t] ∧ t.isKeyword m.text) ms modifier)
    (htys : Grammar.Optional (fun us text => ∃ t : Token, us = [t] ∧ t.isIdentifier ∧ t.text = text)
      tys typeName)
    (hspans : Spans ts (ms ++ tys) mid)
    (hfirst : (ms ++ tys ++ [ctx.lookahead 0 mid]).head? = some first) :
    wp (do
        let name ← expect Token.isIdentifier .variableName
        discard <| expect (·.isOperator "=") .equals
        passLayout
        let value ← expression n
        return .declaration ⟨first.range.start, value.range.stop⟩ modifier typeName (nameOf name) value)
      ctx mid (Formed n ctx ts) (fun _ _ => True) := by
  rw [wp_bind, wp_expect]
  split
  · rename_i hx
    have hname := hspans.trans (.take (isLineEnd_of_identifier _ hx))
    simp only [wp_bind, wp_discard, wp_passLayout, wp_pure]
    refine wp_expect_spans isLineEnd_of_operator fun q more hmore hq => ?_
    have hequals := hname.trans hmore
    refine wp_imp (expression_whole_behind n ctx (hts.behind hequals)) ?_
    rintro e rest ⟨us, hus, he, hsettles⟩
    refine ⟨_, hequals.trans hus, ?_, fun _ => hsettles⟩
    simpa using Grammar.Simple.declaration hms htys hfirst hx hq he
  · trivial

/-- A declaration behind its modifier. -/
theorem typed_formed {ms : List Token} {first : Token} {modifier : Option Modifier} (hts : Scans ts)
    (hms : Grammar.Optional (fun us m => ∃ t : Token, us = [t] ∧ t.isKeyword m.text) ms modifier)
    (hspans : Spans ts ms mid) (hfirst : (ms ++ [ctx.lookahead 0 mid]).head? = some first) :
    wp (do
        let typed := (← peek).isIdentifier && (← peekAt 1).isIdentifier
        let typeName ← if typed then (fun t => some t.text) <$> advance else pure none
        let name ← expect Token.isIdentifier .variableName
        discard <| expect (·.isOperator "=") .equals
        passLayout
        let value ← expression n
        return .declaration ⟨first.range.start, value.range.stop⟩ modifier typeName (nameOf name) value)
      ctx mid (Formed n ctx ts) (fun _ _ => True) := by
  rw [wp_bind, wp_peek, wp_bind, wp_peekAt, wp_ite]
  split
  · rename_i htyped
    have hy := (Bool.and_eq_true_iff.1 htyped).1
    have htake := hspans.trans (.take (isLineEnd_of_identifier _ hy))
    rw [map_bind, wp_bind, wp_advance]
    refine named_formed hts hms (.some ⟨_, rfl, hy, rfl⟩) htake ?_
    rw [List.append_assoc, List.singleton_append]
    cases ms <;> exact hfirst
  · rw [pure_bind]
    exact named_formed hts hms .none (by simpa using hspans) (by simpa using hfirst)

theorem declaration_formed (hts : Scans ts) :
    wp (declaration (expression n)) ctx ts (Formed n ctx ts) (fun _ _ => True) := by
  unfold declaration
  rw [wp_bind, wp_peek]
  cases hm : modifier? (ctx.lookahead 0 ts) with
  | none => exact typed_formed hts .none (.refl ts) rfl
  | some m =>
    have hkeyword := isKeyword_of_modifier? hm
    change wp (discard advance >>= _) ctx ts _ _
    rw [wp_bind, wp_discard, wp_advance]
    exact typed_formed hts (.some ⟨_, rfl, hkeyword⟩) (.take (isLineEnd_of_keyword _ hkeyword)) rfl

theorem assignment_formed {op : AssignOp} (hts : Scans ts)
    (hx : (ctx.lookahead 0 ts).isIdentifier = true) (hop : assignOp? (ctx.lookahead 1 ts) = some op) :
    wp (assignment (expression n) op) ctx ts (Formed n ctx ts) (fun _ _ => True) := by
  have hq := isOperator_of_assignOp? hop
  rw [lookahead_succ] at hq
  have hspans := (Spans.take (isLineEnd_of_identifier _ hx)).trans
    (Spans.take (isLineEnd_of_operator _ hq))
  unfold assignment
  simp only [wp_bind, wp_discard, wp_advance, wp_passLayout, wp_pure]
  refine wp_imp (expression_whole_behind n ctx (hts.behind hspans)) ?_
  rintro e rest ⟨us, hus, he, hsettles⟩
  exact ⟨_, hspans.trans hus, .assignment hx hq he, fun _ => hsettles⟩

theorem simpleForm_formed (hts : Scans ts) :
    wp (simpleForm (expression n)) ctx ts (Formed n ctx ts) (fun _ _ => True) := by
  unfold simpleForm
  rw [wp_bind, wp_peek]
  cases hkind : jumpKind? (ctx.lookahead 0 ts) with
  | some kind => exact jump_formed hts hkind
  | none =>
    rw [wp_bind]
    refine wp_startsDeclaration fun starts => ?_
    rw [wp_ite]
    split
    · exact declaration_formed hts
    · rw [wp_bind, wp_peekAt]
      split
      · exact assignment_formed hts ‹_› ‹_›
      · rw [wp_bind]
        refine wp_imp (expression_whole n ctx hts) ?_
        rintro e rest ⟨us, hus, he, hsettles⟩
        exact ⟨us, hus, .expression he, fun _ => hsettles⟩

/-! ## Parameters -/

theorem words_sound (ctx : Context) (ts : List Token) :
    wp (collect parameterWord) ctx ts
      (fun words rest => Spans ts words rest ∧ ∀ t ∈ words, t.isIdentifier = true)
      (fun _ _ => True) := by
  refine wp_collect _ ?_ ⟨.refl ts, by simp⟩
  rintro words mid ⟨hspans, hwords⟩
  unfold parameterWord
  simp only [wp_bind, wp_peek, wp_ite, wp_pure, wp_advance]
  split
  · rename_i hname
    refine ⟨hspans.trans (.take (isLineEnd_of_identifier _ hname)), fun t ht => ?_⟩
    rcases List.mem_append.1 ht with ht | ht
    · exact hwords t ht
    · obtain rfl : t = ctx.lookahead 0 mid := by simpa using ht
      exact hname
  · simpa using ⟨hspans, hwords⟩

theorem parameter_sound {nested : Parser Expr} {derived : List Token → Expr → Prop}
    (hn : Sound nested derived) : Sound (parameter nested) (Grammar.Parameter derived) := by
  intro ctx ts hts
  unfold parameter
  rw [wp_bind]
  refine wp_imp (words_sound ctx ts) ?_
  rintro words mid ⟨hwords, hnames⟩
  split
  · rename_i first name hfirst hname
    rw [wp_bind, wp_peek, wp_ite]
    split
    · rename_i hq
      have hequals := hwords.trans (.take (isLineEnd_of_operator _ hq))
      simp only [wp_bind, wp_discard, wp_advance, map_eq_bind, wp_pure]
      refine wp_imp (hn ctx _ (hts.behind hequals)) ?_
      rintro e rest ⟨us, hus, he⟩
      exact ⟨_, hequals.trans hus, by simpa using .default hnames hfirst hname hq he⟩
    · exact ⟨words, hwords, .plain hnames hfirst hname⟩
  · trivial

theorem parameter_ne_nil {derived : List Token → Expr → Prop} {us : List Token} {p : Parameter}
    (h : Grammar.Parameter derived us p) : us ≠ [] := by
  cases h with
  | plain _ hfirst _ =>
    rintro rfl
    cases hfirst
  | default => simp

end PineScript.Parser
