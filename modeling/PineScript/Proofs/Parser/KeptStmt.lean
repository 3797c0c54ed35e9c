import PineScript.Proofs.Parser.KeptExpr
import PineScript.Proofs.Parser.PlacedStmt

/-!
# Statements of an input that varies

Every reader of statements keeps what it does. Further lines are not indented and do not begin with
an `else`, so they neither belong to the blocks of a statement that is read without a fault nor carry
it on.
-/

namespace PineScript.Parser

variable {V : Variation} {ctx : Context} {ts ts' : List Token} {b : Bool}

/-! ## Simple statements -/

theorem atLineEnd_steady (ctx : Context) (ts : List Token) : Steady V atLineEnd ctx ts :=
  .peek (fun _ _ ht ht' => by simp only [ht, ht']) (.pure rfl)

theorem endOfLine_steady (ctx : Context) (ts : List Token) : Steady V endOfLine ctx ts :=
  .after (atLineEnd_steady ctx ts) fun _ _ _ => .ite (fun _ => .unexpected _) fun _ => .pure rfl

theorem isIdentifier_of_startsDeclaration {rest : List Token}
    (h : startsDeclaration ctx ts = .ok true rest) : (ctx.lookahead 0 ts).isIdentifier = true := by
  have hstarts : wp startsDeclaration ctx ts
      (fun b _ => b = true → (ctx.lookahead 0 ts).isIdentifier = true) (fun _ _ => True) := by
    unfold startsDeclaration
    simp only [wp_bind, wp_peek, wp_peekAt, wp_pure, wp_ite]
    split
    · simp
    · rename_i hname
      rw [Bool.not_eq_true', Bool.not_eq_false] at hname
      simp only [hname, implies_true, ite_self]
  exact (wp_of_ok h).1 hstarts rfl

section

variable (hctx : ctx.bracketed = false)
include hctx

/-- Further tokens are seen as they stand, as far as they matter. -/
theorem Keeps.peekAt_outside {α : Type} {S : Scale V α} {n : Nat} {k k' : Token → Parser α}
    (hblind : Blind k')
    (hidle : ∀ m < n, (ctx.lookahead m ts).isLineEnd = true → ∀ t t', k' t = k' t')
    (h : Keeps V S b (k (ctx.lookahead n ts)) (k' (ctx.lookahead n ts)) ctx ts) :
    Keeps V S b (Parser.peekAt n >>= k) (Parser.peekAt n >>= k') ctx ts :=
  .peekAt hblind hidle (fun _ => .inr (.inl hctx)) h

theorem startsDeclaration_steady (ts : List Token) : Steady V startsDeclaration ctx ts := by
  refine .peek ?_ (.ite (fun _ => .pure rfl) fun hname => ?_)
  · intro t t' ht ht'
    simp [Token.isIdentifier_of_lineEnd, ht, ht']
  · refine .peekAt_outside hctx ?_ ?_ (.ite (fun _ => .pure rfl) fun _ =>
      .peekAt_outside hctx ?_ ?_ (.pure rfl))
    · intro t t' ht ht'
      simp [Token.isIdentifier_of_lineEnd, Token.isOperator_of_lineEnd, ht, ht']
    · intro m hm hend
      obtain rfl : m = 0 := by omega
      simp [Token.isIdentifier_of_lineEnd hend] at hname
    · intro t t' ht ht'
      simp [Token.isOperator_of_lineEnd, ht, ht']
    · intro m hm hend t t'
      -- The first token is a name; if the second is none, the third does not matter.
      obtain rfl | rfl : m = 0 ∨ m = 1 := by omega
      · simp [Token.isIdentifier_of_lineEnd hend] at hname
      · simp [Token.isIdentifier_of_lineEnd hend]

end

section

variable {nested : Parser Expr} (hnested : Sturdy V nested) (hctx : ctx.bracketed = false)
  (hreal : (ctx.lookahead 0 ts).isLineEnd = false)
include hnested hreal

/-- An expression behind a token that announces it. -/
theorem marked_steady : Steady V (do let _ ← advance; some <$> nested) ctx ts :=
  .advance hreal (.after (hnested.steady _ _) fun _ _ _ => .pure rfl)

theorem jump_steady (kind : JumpKind) : Steady V (jump nested kind) ctx ts := by
  refine .advance hreal (.after (atLineEnd_steady _ _) fun _ _ _ => ?_)
  refine .ite (fun _ => .pure rfl) fun _ => ?_
  exact .after (hnested.steady _ _) fun _ _ _ => .pure rfl

include hctx in
theorem declaration_steady : Steady V (declaration nested) ctx ts := by
  unfold declaration
  simp only [discard_bind, map_bind, pure_bind]
  refine .peek_code hreal (.ite (fun _ => .advance hreal ?_) fun _ => ?_)
  -- With or without a modifier the same is read from here on.
  all_goals
    refine .peek ?_ (.peekAt_outside hctx ?_ ?_
      (.ite (fun htyped => .advance (by grind) ?_) fun _ => ?_))
    · intro t t' ht ht'
      simp [Token.isIdentifier_of_lineEnd, ht, ht']
    · intro t t' ht ht'
      simp [Token.isIdentifier_of_lineEnd, ht, ht']
    · intro m hm hend t t'
      obtain rfl : m = 0 := by omega
      simp [Token.isIdentifier_of_lineEnd hend]
    all_goals
      refine .expect (fun _ => Token.isIdentifier_of_lineEnd) fun _ => ?_
      refine .expect (fun _ ht => Token.isOperator_of_lineEnd ht _) fun _ => ?_
      refine .passLayout hnested.takes.hungry ?_
      exact .after (hnested.steady _ _) fun _ _ _ => .pure rfl

theorem assignment_steady (hsecond : (ctx.lookahead 1 ts).isLineEnd = false) (op : AssignOp) :
    Steady V (assignment nested op) ctx ts := by
  rw [lookahead_succ] at hsecond
  unfold assignment
  simp only [discard_bind]
  refine .advance hreal (.advance hsecond (.passLayout hnested.takes.hungry ?_))
  exact .after (hnested.steady _ _) fun _ _ _ => .pure rfl

omit hreal in
include hctx in
theorem simpleForm_steady (ts : List Token) : Steady V (simpleForm nested) ctx ts := by
  refine .peek ?_ ?_
  · intro t t' ht ht'
    simp only [jumpKind?_of_lineEnd, modifier?_of_lineEnd, Token.isIdentifier_of_lineEnd, ht, ht']
  · split
    · exact jump_steady hnested (isLineEnd_of_jumpKind? ‹_›) _
    · refine .after (startsDeclaration_steady hctx ts) fun starts mid hmid => ?_
      have hstay : wp startsDeclaration ctx ts (fun _ rest => rest = ts) (fun _ _ => True) :=
        wp_startsDeclaration fun _ => rfl
      obtain rfl := (wp_of_ok hmid).1 hstay
      refine .ite (fun hdeclares => ?_) fun _ => .peekAt_outside hctx ?_ ?_ ?_
      · refine declaration_steady hnested hctx (Bool.eq_false_iff.2 fun hend => ?_)
        rw [modifier?_of_lineEnd hend, Option.isSome_none, Bool.false_or] at hdeclares
        subst hdeclares
        have hname := isIdentifier_of_startsDeclaration hmid
        rw [Token.isIdentifier_of_lineEnd hend] at hname
        cases hname
      · intro t t' ht ht'
        simp only [assignOp?_of_lineEnd, ht, ht']
      · intro m hm hend t t'
        obtain rfl : m = 0 := by omega
        simp only [Token.isIdentifier_of_lineEnd hend]
      · split
        · rename_i hname hassign
          exact assignment_steady hnested (by grind) (isLineEnd_of_assignOp? hassign) _
        · exact .after (hnested.steady _ _) fun _ _ _ => .pure rfl

omit hreal in
include hctx in
theorem simple_steady {indent : Int} (hindent : V.Fits indent) (ts : List Token) :
    Steady V (simple nested indent) ctx ts := by
  have hform : Steady V (simpleForm nested) { ctx with margin := some indent } ts :=
    @simpleForm_steady V { ctx with margin := some indent } nested hnested hctx ts
  exact .after (.withMargin hindent hform) fun _ _ _ =>
    .after (endOfLine_steady _ _) fun _ _ _ => .pure rfl

end

/-! ## What hangs on an `if` -/

/-- An `else` stands behind layout only. -/
theorem dropWhile_of_elseAhead {indent : Int} {rest : List Token}
    (h : elseAhead indent ts = some rest) :
    ∃ t more, rest = t :: more ∧ t.isKeyword "else" = true ∧
      ts.dropWhile Token.isLayout = t :: more := by
  induction ts with
  | nil => cases h
  | cons t ts ih =>
    rw [elseAhead] at h
    split at h
    · obtain ⟨u, more, hrest, helse, hdrop⟩ := ih h
      refine ⟨u, more, hrest, helse, ?_⟩
      rw [List.dropWhile_cons_of_pos (by grind), hdrop]
    · split at h <;> cases h
      exact ⟨t, ts, rfl, by grind, List.dropWhile_cons_of_neg (by grind)⟩

/-- Whether an `else` stands behind some layout does not depend on what follows it. -/
theorem isSome_elseAhead (indent : Int) (gap : List Token) {first : Token}
    (hfirst : first.isLayout = false) (us vs : List Token) :
    (elseAhead indent (gap ++ first :: us)).isSome =
      (elseAhead indent (gap ++ first :: vs)).isSome := by
  induction gap with
  | nil =>
    have hkind : (first.kind == .newline || (first.kind == .comment && !first.isLineLeading)) =
        false := by
      grind
    simp only [List.nil_append, elseAhead, hkind, Bool.false_eq_true, ↓reduceIte]
    split <;> rfl
  | cons t gap ih =>
    simp only [List.cons_append, elseAhead]
    split
    · exact ih
    · split <;> rfl

theorem isSome_elseAhead_ending (e : Ending) (indent : Int) :
    (elseAhead indent e.new).isSome = (elseAhead indent e.old).isSome := by
  cases e with
  | same => rfl
  | exchange E => exact isSome_elseAhead indent (E.lineBreak :: E.gap) E.isCode _ _
  | sequel s =>
    cases h : elseAhead indent s.tail with
    | none => exact congrArg Option.isSome h
    | some rest =>
      obtain ⟨t, more, -, helse, hdrop⟩ := dropWhile_of_elseAhead h
      rw [s.dropWhile_tail] at hdrop
      rw [(s.fresh t more hdrop).2] at helse
      cases helse

/-- No `else` comes or goes. -/
theorem isSome_elseAhead_varied (indent : Int) (h : Varied V ts ts') :
    (elseAhead indent ts').isSome = (elseAhead indent ts).isSome := by
  have hbreak {t : Token} {us : List Token} (ht : t.kind = .newline) :
      elseAhead indent (t :: us) = elseAhead indent us := by
    simp only [elseAhead, ht, beq_self_eq_true, Bool.true_or, ↓reduceIte]
  induction h with
  | ends hold hnew => rw [hold, hnew, isSome_elseAhead_ending]
  | keep _ _ ih =>
    simp only [elseAhead]
    split
    · exact ih
    · split <;> rfl
  | @comment c ts ts' _ hc hindent _ _ ih =>
    have hpassed : (c.kind == .newline || (c.kind == .comment && !c.isLineLeading)) = true := by
      simp [hc, Token.isLineLeading, hindent]
    rwa [elseAhead, if_pos hpassed]
  | @newline t r ts ts' ht _ _ ih => rwa [hbreak ht, @hbreak (t.moveTo r) _ ht]
  | @blank t c r ts ts' _ ht _ hc _ ih => rwa [hbreak ht, @hbreak (t.moveTo r) _ ht, hbreak hc]

theorem takeElse_of_none {indent : Int} (h : elseAhead indent ts = none) :
    takeElse indent ctx ts = .ok false ts := by
  rw [takeElse, h]

theorem takeElse_of_some {indent : Int} {rest : List Token} (h : elseAhead indent ts = some rest) :
    takeElse indent ctx ts = (do discard advance; return true : Parser Bool) ctx rest := by
  rw [takeElse, h]

theorem takeElse_keeps (indent : Int) (ctx : Context) (ts : List Token) :
    Keeps V .plain b (takeElse indent) (takeElse indent) ctx ts := by
  have htake : ∀ (t : Token) (more : List Token), t.isKeyword "else" = true →
      Keeps V .plain b (do discard advance; return true : Parser Bool)
        (do discard advance; return true) ctx (t :: more) := by
    intro t more helse
    simp only [discard_bind]
    refine .advance ?_ (.pure rfl)
    rw [Context.lookahead_zero_of_seen (Context.skips_of_code (Token.isLayout_of_keyword helse))]
    grind
  cases hold : elseAhead indent ts with
  | none =>
    refine ⟨(takeElse_of_none hold) ▸ List.suffix_refl ts, fun _ ts' hts _ => ?_⟩
    have hsame := isSome_elseAhead_varied indent hts
    rw [hold, Option.isSome_none, Option.isSome_eq_false_iff, Option.isNone_iff_eq_none] at hsame
    rw [takeElse_of_none hold, takeElse_of_none hsame]
    exact .ok rfl hts
  | some rest =>
    obtain ⟨t, more, rfl, helse, hdrop⟩ := dropWhile_of_elseAhead hold
    have hsuffix := (htake t more helse).suffix
    refine ⟨?_, fun hadmits ts' hts hcounts => ?_⟩
    · rw [takeElse_of_some hold]
      exact hsuffix.trans (hdrop ▸ List.dropWhile_suffix _)
    · have hsame := isSome_elseAhead_varied indent hts
      rw [hold, Option.isSome_some, Option.isSome_iff_exists] at hsame
      obtain ⟨rest', hnew⟩ := hsame
      obtain ⟨t', more', rfl, -, hdrop'⟩ := dropWhile_of_elseAhead hnew
      rw [takeElse_of_some hold] at hcounts ⊢
      rw [takeElse_of_some hnew]
      rcases hts.behind_layout with ⟨hnil, -⟩ | ⟨_, _, _, hbehind, hbehind', hcode, hmore⟩
      · rw [hdrop] at hnil
        cases hnil
      · rw [hdrop] at hbehind
        rw [hdrop'] at hbehind'
        cases hbehind
        cases hbehind'
        refine (htake t more helse).same hadmits _ (.keep (by grind) ?_) hcounts
        exact hmore.resolve_right (Keeps.not_short hsuffix hcounts.kept)

theorem takeElse_length {indent : Int} {rest : List Token}
    (h : takeElse indent ctx ts = .ok true rest) : rest.length < ts.length := by
  cases helse : elseAhead indent ts with
  | none =>
    rw [takeElse_of_none helse] at h
    cases h
  | some left =>
    obtain ⟨t, more, rfl, hkeyword, hdrop⟩ := dropWhile_of_elseAhead helse
    have hseen : ctx.skips t = false := Context.skips_of_code (Token.isLayout_of_keyword hkeyword)
    have htaken : wp (do discard advance; return true : Parser Bool) ctx (t :: more)
        (fun _ rest => rest = more) (fun _ _ => True) := by
      simp only [wp_bind, wp_discard, wp_advance_of_seen hseen, wp_pure]
    rw [takeElse_of_some helse] at h
    obtain rfl := (wp_of_ok h).1 htaken
    have hle := length_dropWhile_le Token.isLayout ts
    rw [hdrop] at hle
    exact hle

/-- What hangs on an `if`, where `rest` reads what hangs on the next one. -/
def hanging (nested : Parser Expr) (block : Int → Parser (Mended Block)) (indent : Int)
    (rest : Parser (Mended Otherwise)) : Parser (Mended Otherwise) := do
  if !(← takeElse indent) then return ⟨.nothing, []⟩
  if (← peek).isKeyword "if" then
    let b ← branch nested block indent rest (← advance)
    return ⟨.elseIf b.value, b.faults⟩
  let b ← block indent
  return ⟨.block b.value, b.faults⟩

/-- What is read behind a reader matters only on what it leaves. -/
theorem bind_congr_of_ok {α β : Type} {p : Parser α} {k k' : α → Parser β}
    (h : ∀ a mid, p ctx ts = .ok a mid → k a ctx mid = k' a ctx mid) :
    (p >>= k) ctx ts = (p >>= k') ctx ts := by
  rw [bind_apply, bind_apply]
  cases hread : p ctx ts with
  | fault e mid => rfl
  | ok a mid => exact h a mid hread

theorem suffix_of_ok {α : Type} {p : Parser α} {a : α} {rest : List Token}
    (h : (p ctx ts).rest <:+ ts) (hread : p ctx ts = .ok a rest) : rest <:+ ts := by
  rwa [hread] at h

section

variable {nested : Parser Expr} {block : Int → Parser (Mended Block)} (indent : Int)
  (hnested : ∀ ctx ts, (nested ctx ts).rest <:+ ts)
  (hblock : ∀ indent ctx ts, (block indent ctx ts).rest <:+ ts)
include hnested hblock

theorem branch_congr {rest rest' : Parser (Mended Otherwise)}
    (h : ∀ mid, mid <:+ ts → rest ctx mid = rest' ctx mid) (keyword : Token) :
    branch nested block indent rest keyword ctx ts =
      branch nested block indent rest' keyword ctx ts := by
  refine bind_congr_of_ok fun condition mid hmid => bind_congr_of_ok fun body left hleft => ?_
  have hsuffix := (suffix_of_ok (hblock indent ctx mid) hleft).trans
    (suffix_of_ok (hnested ctx ts) hmid)
  rw [bind_apply, bind_apply, h left hsuffix]

theorem hanging_congr {rest rest' : Parser (Mended Otherwise)}
    (h : ∀ mid : List Token, mid.length < ts.length → rest ctx mid = rest' ctx mid) :
    hanging nested block indent rest ctx ts = hanging nested block indent rest' ctx ts := by
  refine bind_congr_of_ok fun found mid helse => ?_
  cases found with
  | false => rfl
  | true =>
    have hshort := takeElse_length helse
    have htail : (mid.dropWhile ctx.skips).tail <:+ mid :=
      (List.tail_suffix _).trans (List.dropWhile_suffix _)
    cases hif : (ctx.lookahead 0 mid).isKeyword "if" with
    | false => simp [peek_apply, hif]
    | true =>
      have hsame := branch_congr indent hnested hblock (fun left hleft => h left <| by
        have := (hleft.trans htail).length_le
        omega) (ctx.lookahead 0 mid)
      simp [peek_apply, advance_apply, hif, hsame]

/-- The chain of branches does not depend on its bound, since each `else` is a token. -/
theorem otherwiseFor_congr {bound bound' : List Token} (hbound : ts.length < bound.length)
    (hbound' : ts.length < bound'.length) :
    otherwiseFor nested block indent bound ctx ts =
      otherwiseFor nested block indent bound' ctx ts := by
  induction bound generalizing bound' ts with
  | nil => exact absurd hbound (Nat.not_lt_zero _)
  | cons _ bound ih =>
    match bound', hbound' with
    | _ :: bound', hbound' =>
      simp only [List.length_cons] at hbound hbound'
      exact hanging_congr indent hnested hblock fun mid hmid => ih (by omega) (by omega)

theorem otherwise_eq_hanging :
    otherwise nested block indent =
      hanging nested block indent (otherwise nested block indent) := by
  funext ctx ts
  exact hanging_congr indent hnested hblock fun mid hmid =>
    otherwiseFor_congr indent hnested hblock hmid (Nat.lt_succ_self _)

end

/-- Blocks that keep what they do. -/
structure BlockKeeps (V : Variation) (block : Int → Parser (Mended Block)) : Prop where
  suffix : ∀ indent ctx ts, (block indent ctx ts).rest <:+ ts
  lasts : ∀ ⦃indent : Int⦄, V.Fits indent → ∀ ctx ts, Lasts V (block indent) ctx ts

section

variable {nested : Parser Expr} {block : Int → Parser (Mended Block)} (hnested : Sturdy V nested)
  (hblock : BlockKeeps V block) {indent : Int} (hindent : V.Fits indent)
include hnested hblock hindent

theorem branch_lasts {rest : Parser (Mended Otherwise)}
    (hrest : ∀ mid, mid <:+ ts → Lasts V rest ctx mid) (keyword : Token) :
    Lasts V (branch nested block indent rest keyword) ctx ts := by
  have hcondition := hnested.steady ctx ts
  refine .after hcondition fun condition mid hmid => ?_
  have hbody := hblock.lasts hindent ctx mid
  have hmid' := suffix_of_ok hcondition.suffix hmid
  refine .part hbody ?_ fun body body' left hleft hlike => ?_
  · intro body left hreads
    rw [bind_apply] at hreads
    cases hrun : rest ctx left with
    | fault e _ =>
      rw [hrun] at hreads
      cases hreads
    | ok other _ =>
      rw [hrun] at hreads
      exact (List.append_eq_nil_iff.1 hreads).1
  refine .part (hrest left ((suffix_of_ok hbody.suffix hleft).trans hmid'))
    (fun other _ hreads => (List.append_eq_nil_iff.1 hreads).2) fun other other' _ _ hother => ?_
  obtain ⟨body, faults⟩ := body
  obtain ⟨body', faults'⟩ := body'
  obtain ⟨other, others⟩ := other
  obtain ⟨other', others'⟩ := other'
  obtain ⟨rfl, hfaults⟩ := hlike
  obtain ⟨rfl, hothers⟩ := hother
  refine .pure ⟨?_, List.rel_append hfaults hothers⟩
  cases other <;> rfl

theorem otherwise_lasts (ts : List Token) : Lasts V (otherwise nested block indent) ctx ts := by
  have hsuffix : ∀ ctx ts, (nested ctx ts).rest <:+ ts := fun ctx ts => (hnested.steady ctx ts).suffix
  induction hlen : ts.length using Nat.strongRecOn generalizing ts with
  | ind n ih =>
    rw [otherwise_eq_hanging indent hsuffix hblock.suffix]
    refine .after (takeElse_keeps indent ctx ts) fun found mid hmid => ?_
    -- Each `else` is taken from the tokens, so that less is left for the rest of the chain.
    cases found with
    | false => exact .pure (.refl _)
    | true =>
      have hshort := takeElse_length hmid
      refine .peek ?_ (.ite (fun hif => ?_) fun _ => ?_)
      · intro t t' ht ht'
        simp [Token.isKeyword_of_lineEnd, ht, ht']
      · refine .advance (by grind) (.wrap (fun _ _ h => by rw [h])
          (branch_lasts hnested hblock hindent (fun left hleft => ih _ ?_ left rfl) _))
        have := (hleft.trans ((List.tail_suffix _).trans (List.dropWhile_suffix _))).length_le
        omega
      · exact .wrap (fun _ _ h => by rw [h]) (hblock.lasts hindent ctx mid)

variable (hreal : (ctx.lookahead 0 ts).isLineEnd = false)
include hreal

theorem conditional_lasts : Lasts V (conditional nested block indent) ctx ts :=
  .advance hreal (.wrap (fun _ _ h => by rw [h]) (branch_lasts hnested hblock hindent
    (fun left _ => otherwise_lasts hnested hblock hindent left) _))

/-! ## Loops -/

theorem forLoop_lasts : Lasts V (forLoop nested block indent) ctx ts := by
  unfold forLoop
  simp only [discard_bind, pure_bind]
  refine .advance hreal (.expect (fun _ => Token.isIdentifier_of_lineEnd) fun _ =>
    .peek ?_ (.ite (fun hequals => .advance (by grind) ?_) fun _ =>
      .ite (fun hin => .advance (by grind) ?_) fun _ => .unexpected _))
  · intro t t' ht ht'
    simp [Token.isOperator_of_lineEnd, Token.isKeyword_of_lineEnd, ht, ht']
  · refine .after (hnested.steady _ _) fun first _ _ => ?_
    refine .expect (fun _ ht => Token.isKeyword_of_lineEnd ht _) fun _ => ?_
    refine .after (hnested.steady _ _) fun last _ _ => .peek ?_ ?_
    · intro t t' ht ht'
      simp [Token.isKeyword_of_lineEnd, ht, ht']
    · refine .ite (fun hby => ?_) fun _ =>
        .wrap (fun _ _ h => by rw [h]) (hblock.lasts hindent _ _)
      exact .after (marked_steady hnested (by grind)) fun _ _ _ =>
        .wrap (fun _ _ h => by rw [h]) (hblock.lasts hindent _ _)
  · refine .after (hnested.steady _ _) fun collection _ _ => ?_
    exact .wrap (fun _ _ h => by rw [h]) (hblock.lasts hindent _ _)

theorem whileLoop_lasts : Lasts V (whileLoop nested block indent) ctx ts :=
  .advance hreal (.after (hnested.steady _ _) fun _ _ _ =>
    .wrap (fun _ _ h => by rw [h]) (hblock.lasts hindent _ _))

end

/-! ## Functions -/

theorem parameterWord_steady (ctx : Context) (ts : List Token) : Steady V parameterWord ctx ts := by
  refine .peek ?_ (.ite (fun hname => .advance (by grind) (.pure rfl)) fun _ => .pure rfl)
  intro t t' ht ht'
  simp [Token.isIdentifier_of_lineEnd, ht, ht']

theorem parameter_steady {nested : Parser Expr} (hnested : Sturdy V nested) (ctx : Context)
    (ts : List Token) : Steady V (parameter nested) ctx ts := by
  unfold parameter
  simp only [discard_bind, pure_bind]
  refine .after (.collect_plain (parameterWord_steady ctx) fun _ _ _ _ =>
    parameterWord_takes.short) fun words _ _ => ?_
  split
  · refine .peek ?_ (.ite (fun hequals => ?_) fun _ => .pure rfl)
    · intro t t' ht ht'
      simp [Token.isOperator_of_lineEnd, ht, ht']
    · exact .after (marked_steady hnested (by grind)) fun _ _ _ => .pure rfl
  · exact .unexpected _

theorem function_lasts {nested : Parser Expr} {block : Int → Parser (Mended Block)}
    (hnested : Sturdy V nested) (hblock : BlockKeeps V block) {indent : Int}
    (hindent : V.Fits indent) (hreal : (ctx.lookahead 0 ts).isLineEnd = false)
    (hsecond : (ctx.lookahead 1 ts).isLineEnd = false) :
    Lasts V (function nested block indent) ctx ts := by
  rw [lookahead_succ] at hsecond
  unfold function
  simp only [discard_bind]
  refine .advance hreal (.advance hsecond ?_)
  refine .after (listItems_keeps (parameter_takes hnested.takes) (parameter_steady hnested _) _)
    fun parameters _ _ => ?_
  refine .expect (fun _ ht => Token.isOperator_of_lineEnd ht _) fun _ => ?_
  refine .after (atLineEnd_steady _ _) fun _ _ _ => .ite (fun _ => ?_) fun _ => ?_
  · exact .wrap (fun _ _ h => by rw [h]) (hblock.lasts hindent _ _)
  · exact .after (hnested.steady _ _) fun _ _ _ =>
      .after (endOfLine_steady _ _) fun _ _ _ => .pure (.refl _)

/-! ## Telling functions from other statements

Whether a function starts is decided behind the bracket that closes its list, which might be found
among the further lines. It is not: a call that is read has been closed. -/

/-- A function is told by its name, its list and the arrow right behind it. -/
theorem startsFunction_eq (ctx : Context) (ts : List Token) :
    startsFunction ctx ts =
      .ok ((ctx.lookahead 0 ts).isIdentifier && (ctx.lookahead 1 ts).isPunctuation "(" &&
        ((behindClosing 1 ((ts.dropWhile ctx.skips).tail.dropWhile ctx.skips).tail).any
          fun rest => rest.head?.any (·.isOperator "=>"))) ts := by
  have hend : ctx.endToken.isIdentifier = false ∧ ctx.endToken.isPunctuation "(" = false :=
    ⟨rfl, rfl⟩
  rw [lookahead_succ, ctx.lookahead_zero, ctx.lookahead_zero]
  unfold startsFunction
  cases ts.dropWhile ctx.skips with
  | nil => simp [hend]
  | cons name rest =>
    simp only [List.head?_cons, Option.getD_some, List.tail_cons]
    cases rest.dropWhile ctx.skips with
    | nil => cases name.isIdentifier <;> simp [hend]
    | cons first more =>
      cases name.isIdentifier with
      | false => rfl
      | true =>
        cases hopen : first.isPunctuation "(" with
        | false => simp [hopen]
        | true =>
          cases hbehind : behindClosing 1 more with
          | none => simp [hopen, hbehind]
          | some rest => cases rest <;> simp [hopen, hbehind]

theorem behindClosing_append {depth : Nat} {rest : List Token} (us : List Token)
    (h : behindClosing depth ts = some rest) :
    behindClosing depth (ts ++ us) = some (rest ++ us) := by
  induction ts generalizing depth with
  | nil => cases h
  | cons t ts ih =>
    rw [behindClosing] at h
    rw [List.cons_append, behindClosing]
    split at h
    · rw [if_pos ‹_›]
      exact ih h
    · rw [if_neg ‹_›]
      split at h
      · rw [if_pos ‹_›]
        split at h
        · cases h
          rw [if_pos ‹_›]
        · rw [if_neg ‹_›]
          exact ih h
      · rw [if_neg ‹_›]
        exact ih h

/-- One more token does not close two brackets. -/
theorem behindClosing_concat {depth : Nat} (hdepth : 1 ≤ depth) (c : Token)
    (h : behindClosing depth ts = none) : behindClosing (depth + 1) (ts ++ [c]) = none := by
  induction ts generalizing depth with
  | nil =>
    simp only [List.nil_append, behindClosing]
    grind
  | cons t ts ih =>
    rw [behindClosing] at h
    rw [List.cons_append, behindClosing]
    split at h
    · rw [if_pos ‹_›]
      exact ih (Nat.le_add_left 1 depth) h
    · rw [if_neg ‹_›]
      split at h
      · rw [if_pos ‹_›, if_neg (by omega)]
        split at h
        · cases h
        · have hless := ih (by omega) h
          rwa [Nat.sub_add_cancel hdepth] at hless
      · rw [if_neg ‹_›]
        exact ih hdepth h

/-- Layout does not count. -/
theorem behindClosing_layout {t : Token} (ht : t.isLayout = true) (depth : Nat) (ts : List Token) :
    behindClosing depth (t :: ts) = behindClosing depth ts := by
  have hmark : ∀ mark, t.isPunctuation mark = false := by grind
  simp only [behindClosing, hmark, Bool.or_self, Bool.false_eq_true, ↓reduceIte]

theorem behindClosing_seen (ctx : Context) (depth : Nat) (ts : List Token) :
    behindClosing depth (ctx.seen ts) = (behindClosing depth ts).map ctx.seen := by
  induction ts generalizing depth with
  | nil => rfl
  | cons t ts ih =>
    cases hskips : ctx.skips t with
    | true =>
      have hseen : ctx.seen (t :: ts) = ctx.seen ts := List.filter_cons_of_neg (by simp [hskips])
      rw [hseen, ih, behindClosing_layout (isLayout_of_skips hskips)]
    | false =>
      have hseen : ctx.seen (t :: ts) = t :: ctx.seen ts :=
        List.filter_cons_of_pos (by simp [hskips])
      rw [hseen, behindClosing, behindClosing]
      split
      · exact ih _
      · split
        · split
          · rfl
          · exact ih _
        · exact ih _

/-- Where the brackets match, the first of them is closed. -/
theorem behindClosing_of_balanced {front inside : List Token} {name first : Token}
    (hbalanced : Grammar.Balanced front) (hfront : ctx.seen front = name :: first :: inside)
    (hname : name.isIdentifier = true) (hopen : first.isPunctuation "(" = true) :
    behindClosing 1 inside ≠ none := by
  intro hnone
  -- Put one more parenthesis behind: matching brackets leave it to be the one that closes.
  let close : Token := { kind := .punctuation, text := ")", range := .origin }
  have hseen : ctx.seen (front ++ [close]) = name :: first :: (inside ++ [close]) := by
    have hclose : ctx.seen [close] = [close] :=
      List.filter_cons_of_pos (by simp [Context.skips, close])
    rw [ctx.seen_append, hfront, hclose]
    rfl
  have hclosed : behindClosing 1 (ctx.seen (front ++ [close])) = some [] := by
    rw [behindClosing_seen, hbalanced 0 [close]]
    rfl
  have hmark : ∀ mark, name.isPunctuation mark = false := by grind
  rw [hseen, behindClosing] at hclosed
  simp only [hmark, Bool.or_self, Bool.false_eq_true, ↓reduceIte] at hclosed
  rw [Grammar.behindClosing_open (.inl hopen), behindClosing_concat (Nat.le_refl 1) close hnone]
    at hclosed
  cases hclosed

/-- A statement that begins like a call is an expression, which ends with the line. -/
theorem simple_of_call {nested : Parser Expr} (hnested : Takes nested) (indent : Int)
    (hname : (ctx.lookahead 0 ts).isIdentifier = true)
    (hopen : (ctx.lookahead 1 ts).isPunctuation "(" = true) :
    wp (simple nested indent) ctx ts
      (fun _ rest => Beyond ctx ts rest ∧ (ctx.lookahead 0 rest).isLineEnd = true)
      (fun _ _ => True) := by
  have hjump : jumpKind? (ctx.lookahead 0 ts) = none := by
    unfold jumpKind?
    grind
  have hmodifier : modifier? (ctx.lookahead 0 ts) = none := by
    unfold modifier?
    grind
  have hassign : assignOp? (ctx.lookahead 1 ts) = none := by
    unfold assignOp?
    grind
  have hequals : (ctx.lookahead 1 ts).isOperator "=" = false := by grind
  have hsecond : (ctx.lookahead 1 ts).isIdentifier = false := by grind
  unfold simple simpleForm
  simp only [wp_bind, wp_withMargin, wp_peek, wp_pure, ctx.lookahead_margin, hjump]
  unfold startsDeclaration
  simp only [wp_bind, wp_peek, wp_peekAt, wp_pure, wp_ite, ctx.lookahead_margin, hmodifier, hname,
    hequals, hsecond, hassign, Bool.not_true, Bool.false_eq_true, ↓reduceIte, Bool.false_and,
    Option.isSome_none, Bool.or_self]
  refine hnested.wp fun value rest hrest => ?_
  unfold endOfLine atLineEnd
  simp only [wp_bind, wp_peek, wp_pure, wp_ite]
  split
  · trivial
  · rename_i hend
    exact ⟨hrest, by simpa using hend⟩

/-- The next code and what is seen behind it. -/
theorem seen_of_lookahead (h : (ctx.lookahead 0 ts).isLineEnd = false) :
    ctx.seen ts = ctx.lookahead 0 ts :: ctx.seen (ts.dropWhile ctx.skips).tail := by
  rw [ctx.lookahead_zero] at h ⊢
  cases hdrop : ts.dropWhile ctx.skips with
  | nil =>
    rw [hdrop] at h
    cases h
  | cons t more => exact Context.seen_of_dropWhile hdrop

/-- The list of a call that is a statement is closed. -/
theorem behindClosing_of_call {nested : Parser Expr} (hnested : Takes nested) {indent : Int}
    {left : List Token} {stmt : Stmt} (hname : (ctx.lookahead 0 ts).isIdentifier = true)
    (hopen : (ctx.lookahead 1 ts).isPunctuation "(" = true)
    (hread : simple nested indent ctx ts = .ok stmt left) :
    behindClosing 1 ((ts.dropWhile ctx.skips).tail.dropWhile ctx.skips).tail ≠ none := by
  intro hnone
  obtain ⟨⟨front, hts, hbalanced, t, ht, hseen⟩, hend⟩ :=
    (wp_of_ok hread).1 (simple_of_call hnested indent hname hopen)
  -- The tokens that are seen: a name, a parenthesis and what follows.
  have hall : ctx.seen front ++ ctx.seen left = ctx.lookahead 0 ts :: ctx.lookahead 1 ts ::
      ctx.seen ((ts.dropWhile ctx.skips).tail.dropWhile ctx.skips).tail := by
    rw [← ctx.seen_append, ← hts, seen_of_lookahead (by grind), lookahead_succ,
      @seen_of_lookahead ctx (ts.dropWhile ctx.skips).tail (by rw [← lookahead_succ]; grind)]
  match hfront : ctx.seen front with
  | [] =>
    have hmem := Context.mem_seen ht hseen
    rw [hfront] at hmem
    cases hmem
  | [_] =>
    -- The name alone is not all of the statement, since the line does not end behind it.
    simp only [hfront, List.cons_append, List.nil_append, List.cons.injEq] at hall
    rw [ctx.lookahead_eq_seen, hall.2] at hend
    change (ctx.lookahead 1 ts).isLineEnd = true at hend
    grind
  | _ :: _ :: inside =>
    simp only [hfront, List.cons_append, List.cons.injEq] at hall
    obtain ⟨hfirst, hsecond, hinside⟩ := hall
    refine behindClosing_of_balanced hbalanced hfront (hfirst ▸ hname) (hsecond ▸ hopen) ?_
    cases hclosed : behindClosing 1 inside with
    | none => rfl
    | some behind =>
      have hmore := behindClosing_append (ctx.seen left) hclosed
      rw [hinside, behindClosing_seen, hnone] at hmore
      cases hmore

/-- A function starts with a list that is closed. -/
theorem exists_of_startsFunction {left : List Token} (h : startsFunction ctx ts = .ok true left) :
    ∃ name rest first more, ts.dropWhile ctx.skips = name :: rest ∧
      rest.dropWhile ctx.skips = first :: more ∧ name.isIdentifier = true ∧
      first.isPunctuation "(" = true ∧ behindClosing 1 more ≠ none := by
  unfold startsFunction at h
  injection h with hfound
  split at hfound
  · split at hfound
    · split at hfound
      · split at hfound
        · rename_i hfirst _ _ _ _ hname hsecond hopen _ _ _ hbehind
          exact ⟨_, _, _, _, hfirst, hsecond, hname, hopen, by simp [hbehind]⟩
        · cases hfound
      · cases hfound
    · cases hfound
  · cases hfound

theorem behindClosing_ending {e : Ending} (h : e.heeds = true) (depth : Nat) :
    behindClosing (depth + 1) e.new = behindClosing (depth + 1) e.old := by
  cases e with
  | same => rfl
  | sequel => cases h
  | exchange E =>
    have hgap : Grammar.Balanced (E.lineBreak :: E.gap) := balanced_of_layout E.isLayout_gap
    exact (hgap depth _).trans ((E.sameClosing depth).trans (hgap depth _).symm)

/-- A bracket is closed in front of the end, or in it at the same place. -/
theorem behindClosing_varied (depth : Nat) (h : Varied V ts ts')
    (hclosed : V.ending.heeds = true ∨ behindClosing (depth + 1) ts ≠ none) :
    (∃ rest rest', behindClosing (depth + 1) ts = some rest ∧
      behindClosing (depth + 1) ts' = some rest' ∧ Varied V rest rest') ∨
    behindClosing (depth + 1) ts' = behindClosing (depth + 1) ts := by
  have hbreak {t : Token} {us : List Token} (ht : t.kind = .newline) (depth : Nat) :
      behindClosing depth (t :: us) = behindClosing depth us :=
    behindClosing_layout (Token.isLayout_iff.2 (.inl ht)) depth us
  induction h generalizing depth with
  | ends hold hnew =>
    subst hold hnew
    cases hheeds : V.ending.heeds with
    | true => exact .inr (behindClosing_ending hheeds depth)
    | false =>
      rw [Ending.old_eq_nil hheeds, hheeds] at hclosed
      simp [behindClosing] at hclosed
  | @keep t ts ts' _ hmore ih =>
    cases hopen : (t.isPunctuation "(" || t.isPunctuation "[") with
    | true =>
      simp only [behindClosing, hopen, ↓reduceIte] at hclosed ⊢
      exact ih (depth + 1) hclosed
    | false =>
      simp only [behindClosing, hopen, Bool.false_eq_true, ↓reduceIte] at hclosed ⊢
      cases hclose : (t.isPunctuation ")" || t.isPunctuation "]") with
      | false =>
        simp only [hclose, Bool.false_eq_true, ↓reduceIte] at hclosed ⊢
        exact ih depth hclosed
      | true =>
        cases depth with
        | zero => exact .inl ⟨ts, ts', rfl, rfl, hmore⟩
        | succ depth =>
          simp only [hclose, ↓reduceIte] at hclosed
          exact ih depth hclosed
  | comment _ hc _ _ _ ih =>
    rw [behindClosing_layout (Token.isLayout_iff.2 (.inr hc))]
    exact ih depth hclosed
  | @newline t r _ _ ht _ _ ih =>
    rw [hbreak ht] at hclosed ⊢
    rw [@hbreak (t.moveTo r) _ ht]
    exact ih depth hclosed
  | @blank t c r _ _ _ ht _ hc _ ih =>
    rw [hbreak ht] at hclosed ⊢
    rw [@hbreak (t.moveTo r) _ ht, hbreak hc]
    exact ih depth hclosed

/-- No layout comes between a bracket and an arrow on the same line. -/
theorem arrow_varied (h : Varied V ts ts') :
    ts'.head?.any (·.isOperator "=>") = ts.head?.any (·.isOperator "=>") := by
  have hbreak : ∀ us : List Token, (∀ t ∈ us.head?, t.kind = .newline) →
      us.head?.any (·.isOperator "=>") = false := by
    intro us hus
    cases hhead : us.head? with
    | none => rfl
    | some t =>
      have := hus t hhead
      simp only [Option.any_some]
      grind
  cases h with
  | ends hold hnew =>
    rw [hold, hnew, hbreak _ V.ending.newline_of_old, hbreak _ V.ending.newline_of_new]
  | keep => rfl
  | @comment c _ ts' _ hc _ hend _ =>
    rw [hbreak ts hend, List.head?_cons, Option.any_some]
    grind
  | @newline t r _ _ ht => rfl
  | @blank t b r _ _ ht => rfl

/-- Whether a function starts is seen as before, where a call is closed. -/
theorem startsFunction_varied (hctx : ctx.bracketed = false) (h : Varied V ts ts')
    (hclosed : V.ending.heeds = true ∨ ((ctx.lookahead 0 ts).isIdentifier = true →
      (ctx.lookahead 1 ts).isPunctuation "(" = true →
      behindClosing 1 ((ts.dropWhile ctx.skips).tail.dropWhile ctx.skips).tail ≠ none))
    {found : Bool} (hfound : startsFunction ctx ts = .ok found ts) :
    startsFunction (V.context ctx) ts' = .ok found ts' := by
  have hskips : (V.context ctx).skips = ctx.skips := rfl
  have houtside : ¬ ctx.bracketed = true := by simp [hctx]
  rw [startsFunction_eq] at hfound ⊢
  injection hfound with hfound
  subst hfound
  congr 1
  have hfirst := h.lookahead_outside (n := 0) hctx fun m hm => absurd hm (Nat.not_lt_zero m)
  cases hname : (ctx.lookahead 0 ts).isIdentifier with
  | false =>
    have hname' : ((V.context ctx).lookahead 0 ts').isIdentifier = false := by
      rcases hfirst with hsame | ⟨-, hend⟩
      · rwa [hsame]
      · exact Token.isIdentifier_of_lineEnd hend
    rw [hname', Bool.false_and, Bool.false_and, Bool.false_and, Bool.false_and]
  | true =>
    -- The name is code, so the next token is seen behind it in both cases.
    have hreal : (ctx.lookahead 0 ts).isLineEnd = false := by grind
    obtain ⟨hsame, hmore⟩ := h.advance hreal
    have hmore := hmore.resolve_right fun hinside => houtside hinside.1
    have hsecond := hmore.lookahead_outside (n := 0) hctx fun m hm => absurd hm (Nat.not_lt_zero m)
    rw [hsame, hname, lookahead_succ, lookahead_succ, hskips]
    rw [lookahead_succ] at hclosed
    cases hopen : (ctx.lookahead 0 (ts.dropWhile ctx.skips).tail).isPunctuation "(" with
    | false =>
      have hopen' : ((V.context ctx).lookahead 0 (ts'.dropWhile ctx.skips).tail).isPunctuation "(" =
          false := by
        rcases hsecond with hsame | ⟨-, hend⟩
        · rwa [hsame]
        · exact Token.isPunctuation_of_lineEnd hend _
      rw [hopen', Bool.and_false, Bool.false_and, Bool.false_and]
    | true =>
      have hreal' : (ctx.lookahead 0 (ts.dropWhile ctx.skips).tail).isLineEnd = false := by grind
      obtain ⟨hsame', hinside⟩ := hmore.advance hreal'
      have hinside := hinside.resolve_right fun hinside => houtside hinside.1
      rw [hsame', hopen]
      rcases behindClosing_varied 0 hinside (hclosed.imp_right fun h => h hname hopen) with
        ⟨rest, rest', hsome, hsome', hrest⟩ | heq
      · rw [hsome, hsome', Option.any_some, Option.any_some, arrow_varied hrest]
      · rw [heq]

/-! ## Statements -/

section

variable {nested : Parser Expr} {block : Int → Parser (Mended Block)} (hnested : Sturdy V nested)
  (hblock : BlockKeeps V block) {indent : Int} (hindent : V.Fits indent)
  (hctx : ctx.bracketed = false)
include hnested hblock hindent hctx

/-- The statements that no key word opens. -/
theorem named_lasts (ts : List Token) :
    Lasts V (do
      if ← startsFunction then function nested block indent
      else return ⟨← simple nested indent, []⟩) ctx ts := by
  refine .look (startsFunction_eq ctx ts) (fun ts' hts hcounts => ?_) (.ite (fun hfound => ?_)
    fun _ => .after (simple_steady hnested hctx hindent ts) fun _ _ _ => .pure (.refl _))
  · refine startsFunction_varied hctx hts (hcounts.reads.imp_right fun hreads hname hopen hnone => ?_)
      (startsFunction_eq ctx ts)
    -- An open list might be closed by the further lines, but then the call would not be read.
    simp only [hnone, Option.any_none, Bool.and_false, Bool.false_eq_true, ↓reduceIte] at hreads
    rw [bind_apply] at hreads
    cases hread : simple nested indent ctx ts with
    | ok stmt left => exact behindClosing_of_call hnested.takes hname hopen hread hnone
    | fault e left =>
      rw [hread] at hreads
      cases hreads
  · simp only [Bool.and_eq_true] at hfound
    exact function_lasts hnested hblock hindent (by grind) (by grind)

theorem statement_lasts (ts : List Token) : Lasts V (statement nested block indent) ctx ts := by
  refine .peek ?_ ?_
  · intro t t' ht ht'
    simp only [Token.isKeyword_of_lineEnd, ht, ht', Bool.false_eq_true, ↓reduceIte]
  · refine .ite (fun hif => conditional_lasts hnested hblock hindent (by grind)) fun _ => ?_
    refine .ite (fun hfor => forLoop_lasts hnested hblock hindent (by grind)) fun _ => ?_
    refine .ite (fun hwhile => whileLoop_lasts hnested hblock hindent (by grind)) fun _ => ?_
    exact .ite (fun _ => .fail _ _) fun _ => named_lasts hnested hblock hindent hctx ts

end

end PineScript.Parser
