import PineScript.Proofs.Grammar.Complete
import PineScript.Proofs.Parser.Spans

/-!
# What is read is derived

On tokens as they are scanned, a reader that succeeds has taken code that derives what it gives.
Layout may stand among the code, where the readers do not look at it or join lines.
-/

namespace PineScript

namespace Parser

theorem binaryOp?_written {level : List BinaryOp} {t : Token} {op : BinaryOp} (ht : t.Scanned)
    (h : binaryOp? level t = some op) : op ∈ level ∧ op.Written t := by
  unfold binaryOp? at h
  split at h
  · rename_i hkind
    have htext : op.text = t.text := by simpa using List.find?_some h
    refine ⟨List.mem_of_find?_eq_some h, ?_, htext.symm⟩
    simp only [Bool.or_eq_true, beq_iff_eq] at hkind
    rcases hkind with hkind | hkind
    · have hnot := ht.operator hkind
      rw [← htext] at hnot
      rw [hkind]
      cases op <;> first | rfl | exact absurd (by decide) hnot
    · have hmem := ht.keyword hkind
      rw [← htext] at hmem
      rw [hkind]
      cases op <;> first | rfl | exact absurd hmem (by decide)
  · cases h

theorem isLineEnd_of_binaryOp? {level : List BinaryOp} {t : Token} {op : BinaryOp}
    (h : binaryOp? level t = some op) : t.isLineEnd = false := by
  unfold binaryOp? at h
  split at h
  · rename_i hkind
    simp only [Bool.or_eq_true, beq_iff_eq] at hkind
    rcases hkind with hkind | hkind <;> simp [Token.isLineEnd, hkind]
  · cases h

/-- A line that is joined to a level goes on with one of its operators. -/
theorem binaryOp?_of_carriesOn {margin : Int} {level : List BinaryOp} {t : Token}
    (h : carriesOn margin (level.map BinaryOp.text) t = true) : binaryOp? level t ≠ none := by
  obtain ⟨-, hkind, hmem⟩ := carriesOn_iff.1 h
  obtain ⟨op, hop, htext⟩ := List.mem_map.1 hmem
  have hkind' : (t.kind == .operator || t.kind == .keyword) = true := by simpa using hkind
  rw [binaryOp?, if_pos hkind', ne_eq, List.find?_eq_none]
  exact fun hnone => hnone op hop (by simp [htext])

/-- A line that is joined to a condition goes on with the question mark. -/
theorem isOperator_of_carriesOn {margin : Int} {t : Token} {text : String} (ht : t.Scanned)
    (hword : text ∉ keywords) (h : carriesOn margin [text] t = true) : t.isOperator text = true := by
  obtain ⟨-, hkind, hmem⟩ := carriesOn_iff.1 h
  have htext : t.text = text := List.mem_singleton.1 hmem
  rcases hkind with hkind | hkind
  · exact Token.isOperator_iff.2 ⟨hkind, htext⟩
  · exact absurd (htext ▸ ht.keyword hkind) hword

/-- What the reader gives is derived by the code that it takes. -/
def Sound {α : Type} (reader : Parser α) (derived : List Token → α → Prop) : Prop :=
  ∀ ctx ts, Scans ts →
    wp reader ctx ts (fun a rest => ∃ us, Spans ts us rest ∧ derived us a) (fun _ _ => True)

/-- A token that is asked for is taken, if it is there. -/
theorem wp_expect_spans {ctx : Context} {ts : List Token} {test : Token → Bool} {wanted : Expected}
    {Q : Token → List Token → Prop} (hline : ∀ t, test t = true → t.isLineEnd = false)
    (h : ∀ t more, Spans ts [t] more → test t = true → Q t more) :
    wp (expect test wanted) ctx ts Q (fun _ _ => True) := by
  rw [wp_expect]
  split
  · rename_i htest
    exact h _ _ (.take (hline _ htest)) htest
  · trivial

theorem isLineEnd_of_punctuation {mark : String} (t : Token) (h : t.isPunctuation mark = true) :
    t.isLineEnd = false := by
  grind

theorem isLineEnd_of_operator {text : String} (t : Token) (h : t.isOperator text = true) :
    t.isLineEnd = false := by
  grind

theorem isLineEnd_of_keyword {word : String} (t : Token) (h : t.isKeyword word = true) :
    t.isLineEnd = false := by
  grind

theorem isLineEnd_of_identifier (t : Token) (h : t.isIdentifier = true) : t.isLineEnd = false := by
  grind

/-- Behind layout that is passed over, a reader takes the same code. -/
theorem Sound.behind_layout {α : Type} {reader : Parser α} {derived : List Token → α → Prop}
    (h : Sound reader derived) (hne : ∀ us a, derived us a → us ≠ []) {ctx : Context}
    {ts : List Token} (hts : Scans ts) :
    wp reader ctx (ts.dropWhile Token.isLayout) (fun a rest => ∃ us, Spans ts us rest ∧ derived us a)
      (fun _ _ => True) := by
  refine wp_imp (h ctx _ (hts.dropWhile _)) ?_
  rintro a rest ⟨us, hus, ha⟩
  exact ⟨us, hus.of_dropWhile (fun _ => id) (hne us a ha), ha⟩

section Levels

variable {nested : Parser Expr} {derived : List Token → Expr → Prop} (hn : Sound nested derived)
include hn

theorem primary_sound : Sound (primary nested) (Grammar.Primary derived) := by
  intro ctx ts hts
  unfold primary
  simp only [wp_bind, wp_peek]
  cases hlit : literal? (ctx.lookahead 0 ts) with
  | some v =>
    have hwritten := literal?_eq_some_iff.1 hlit
    have hline := Token.Opens.isLineEnd_eq_false (.inl ⟨v, hwritten⟩)
    simp only [wp_bind, wp_discard, wp_advance, wp_pure]
    exact ⟨_, .take hline, .literal hwritten⟩
  | none =>
    simp only [wp_ite, wp_bind, wp_discard, wp_advance, wp_pure, wp_bracketed, wp_unexpected]
    split
    · rename_i hname
      exact ⟨_, .take (isLineEnd_of_identifier _ hname), .name hname⟩
    · split
      · rename_i ho
        have hopen := Spans.take (isLineEnd_of_punctuation _ ho)
        refine wp_mono (hn _ _ (hts.behind hopen)) ?_ (fun _ _ _ => trivial)
        rintro e rest ⟨us, hus, he⟩
        refine wp_expect_spans isLineEnd_of_punctuation ?_
        intro c more hclose hc
        exact ⟨_, (hopen.trans hus).trans hclose, .parens ho he hc⟩
      · trivial

/-! ## Lists in parentheses -/

theorem argument_sound : Sound (argument nested) (Grammar.Argument derived) := by
  intro ctx ts hts
  unfold argument
  simp only [wp_bind, wp_peek, wp_peekAt, wp_ite, wp_discard, wp_pure, wp_advance]
  split
  · rename_i hnamed
    obtain ⟨hname, hequals⟩ := Bool.and_eq_true_iff.1 hnamed
    rw [lookahead_succ] at hequals
    have hspans := (Spans.take (isLineEnd_of_identifier _ hname)).trans
      (Spans.take (isLineEnd_of_operator _ hequals))
    refine wp_mono (hn _ _ (hts.behind hspans)) ?_ (fun _ _ _ => trivial)
    rintro e rest ⟨us, hus, he⟩
    exact ⟨_, hspans.trans hus, .named hname hequals he⟩
  · refine wp_mono (hn _ _ hts) ?_ (fun _ _ _ => trivial)
    rintro e rest ⟨us, hus, he⟩
    exact ⟨us, hus, .positional he⟩

omit hn

/-- Where the items so far have been taken, either the list may go on or it ends here. -/
def ListedUpTo {α : Type} (derived : List Token → α → Prop) (ctx : Context) (ts : List Token)
    (as : List α) (rest : List Token) : Prop :=
  (∀ us bs, Grammar.Listed derived us bs → Grammar.Listed derived (ts ++ us) (as ++ bs)) ∨
    Grammar.Listed derived ts as ∧ (ctx.lookahead 0 rest).isPunctuation ")" = true

theorem ListedUpTo.listed {α : Type} {derived : List Token → α → Prop} {ctx : Context}
    {ts rest : List Token} {as : List α} (h : ListedUpTo derived ctx ts as rest) :
    Grammar.Listed derived ts as := by
  rcases h with h | ⟨h, -⟩
  · simpa using h [] [] .none
  · exact h

theorem listItem_sound {α : Type} {reader : Parser α} {derived : List Token → α → Prop}
    (hreader : Sound reader derived) (hne : ∀ ts a, derived ts a → ts ≠ []) {ctx : Context}
    {ts us : List Token} {as : List α} (hus : Scans us) (h : ListedUpTo derived ctx ts as us) :
    wp (listItem reader) ctx us
      (fun o rest =>
        (o = none → rest = us ∧ (ctx.lookahead 0 us).isPunctuation ")" = true) ∧
        ∀ a, o = some a → rest.length < us.length ∧
          ∃ vs, Spans us vs rest ∧ ListedUpTo derived ctx (ts ++ vs) (as ++ [a]) rest)
      (fun _ _ => True) := by
  unfold listItem
  simp only [wp_bind, wp_peek, wp_ite, wp_pure, wp_discard, wp_unexpected, wp_advance]
  split
  · rename_i hclose
    exact ⟨fun _ => ⟨trivial, hclose⟩, by simp⟩
  · rename_i hopen
    -- The list does not end here, so it may go on.
    have hmore : ∀ vs bs, Grammar.Listed derived vs bs →
        Grammar.Listed derived (ts ++ vs) (as ++ bs) := h.resolve_right fun hend => hopen hend.2
    refine wp_mono (hreader ctx us hus) ?_ (fun _ _ _ => trivial)
    rintro a rest ⟨vs, hvs, ha⟩
    have hlen := hvs.length_lt (hne vs a ha)
    split
    · rename_i hcomma
      have hboth := hvs.trans (.take (isLineEnd_of_punctuation _ hcomma))
      refine ⟨by simp, fun _ heq => ?_⟩
      cases heq
      refine ⟨hboth.length_lt (by simp), _, hboth, .inl fun ws bs hws => ?_⟩
      simpa using hmore _ _ (.more ha hcomma hws)
    · split
      · rename_i hc
        refine ⟨by simp, fun _ heq => ?_⟩
        cases heq
        exact ⟨hlen, vs, hvs, .inr ⟨hmore _ _ (.last ha), hc⟩⟩
      · trivial

theorem listItems_sound {α : Type} {reader : Parser α} {derived : List Token → α → Prop}
    (hreader : Sound reader derived) (hne : ∀ ts a, derived ts a → ts ≠ []) {ctx : Context}
    {ts : List Token} (hts : Scans ts) :
    wp (listItems reader) ctx ts
      (fun result rest => ∃ us, Spans ts (us ++ [result.2]) rest ∧
        Grammar.Listed derived us result.1 ∧ result.2.isPunctuation ")" = true)
      (fun _ _ => True) := by
  unfold listItems
  simp only [wp_bracketed, wp_bind, wp_advance, wp_pure]
  refine wp_mono (wp_collect_of_progress
    (fun as rest => ∃ us, Spans ts us rest ∧
      ListedUpTo derived { ctx with bracketed := true } us as rest)
    (fun as rest => ∃ us, Spans ts us rest ∧ Grammar.Listed derived us as ∧
      (Context.lookahead { ctx with bracketed := true } 0 rest).isPunctuation ")" = true)
    ?_ ⟨[], .refl ts, .inl fun us bs h => h⟩) ?_ (fun _ _ => id)
  · rintro as mid ⟨us, hus, hlisted⟩
    refine wp_imp (listItem_sound hreader hne (hts.behind hus) hlisted) ?_
    rintro o rest ⟨hnone, hsome⟩
    refine ⟨fun ho => ?_, fun a ho => ?_⟩
    · obtain ⟨rfl, hc⟩ := hnone ho
      exact ⟨us, hus, hlisted.listed, hc⟩
    · obtain ⟨hlen, vs, hvs, hnext⟩ := hsome a ho
      exact ⟨hlen, us ++ vs, hus.trans hvs, hnext⟩
  · rintro as rest ⟨us, hus, hlisted, hc⟩
    exact ⟨us, hus.trans (.take (isLineEnd_of_punctuation _ hc)), hlisted, hc⟩

/-! ## Calls and subscripts -/

include hn

theorem suffix_sound (hphrase : ∀ ts e, derived ts e → Grammar.Phrase ts) {ctx : Context}
    {ts us : List Token} {e : Expr} (hus : Scans us) (he : Grammar.Postfix derived ts e) :
    wp (suffix nested e) ctx us
      (fun o rest => ∃ vs, Spans us vs rest ∧ Grammar.Postfix derived (ts ++ vs) (o.getD e))
      (fun _ _ => True) := by
  have hargument : ∀ ts a, Grammar.Argument derived ts a → ts ≠ [] := by
    rintro ts a (h | _)
    · obtain ⟨t, more, rfl, -⟩ := (hphrase _ _ h).opens
      exact List.cons_ne_nil t more
    · exact List.cons_ne_nil _ _
  have hstay : ∃ vs, Spans us vs us ∧ Grammar.Postfix derived (ts ++ vs) e :=
    ⟨[], .refl us, by simpa using he⟩
  unfold suffix
  simp only [wp_bind, wp_peek, wp_ite, wp_discard, wp_pure, wp_bracketed, wp_advance]
  split
  · rename_i ho
    have hopen := Spans.take (isLineEnd_of_punctuation _ ho)
    refine wp_imp (listItems_sound (argument_sound hn) hargument (hus.behind hopen)) ?_
    rintro ⟨arguments, c⟩ rest ⟨vs, hvs, hargs, hc⟩
    exact ⟨_, hopen.trans hvs, .call he ho hargs hc⟩
  · split
    · rename_i ho
      have hopen := Spans.take (isLineEnd_of_punctuation _ ho)
      refine wp_imp (hn _ _ (hus.behind hopen)) ?_
      rintro subscript rest ⟨vs, hvs, hsub⟩
      refine wp_expect_spans isLineEnd_of_punctuation ?_
      intro c more hclose hc
      exact ⟨_, (hopen.trans hvs).trans hclose, .index he ho hsub hc⟩
    · exact hstay

theorem suffixed_sound (hphrase : ∀ ts e, derived ts e → Grammar.Phrase ts) :
    Sound (suffixed nested) (Grammar.Postfix derived) := by
  intro ctx ts hts
  unfold suffixed
  rw [wp_bind]
  refine wp_imp (primary_sound hn ctx ts hts) ?_
  rintro first mid ⟨us, hus, hfirst⟩
  refine wp_iterate (fun e rest => ∃ vs, Spans ts vs rest ∧ Grammar.Postfix derived vs e) ?_
    ⟨us, hus, .primary hfirst⟩
  rintro e rest ⟨vs, hvs, he⟩
  refine wp_imp (suffix_sound hn hphrase (hts.behind hvs) he) ?_
  rintro o rest ⟨ws, hws, ho⟩
  exact ⟨vs ++ ws, hvs.trans hws, ho⟩

/-! ## Signs and operators -/

omit hn in
theorem signs_sound (ctx : Context) (ts : List Token) :
    wp (collect sign) ctx ts
      (fun signs rest => ∃ us, Spans ts us rest ∧ ∀ vs e, Grammar.Unary derived vs e →
        Grammar.Unary derived (us ++ vs)
          (signs.foldr (fun (op, r) e => .unary ⟨r.start, e.range.stop⟩ op e) e))
      (fun _ _ => True) := by
  -- The invariant speaks of any operand, since the signs are read before it.
  refine wp_collect _ ?_ ⟨[], .refl ts, fun _ _ he => he⟩
  rintro signs mid ⟨us, hus, hsigns⟩
  unfold sign
  simp only [wp_bind, wp_peek]
  cases hop : unaryOp? (ctx.lookahead 0 mid) with
  | none => exact ⟨us, hus, by simpa using hsigns⟩
  | some op =>
    have hwritten := unaryOp?_eq_some_iff.1 hop
    have hline := Token.Opens.isLineEnd_eq_false (.inr (.inr (.inl ⟨op, hwritten⟩)))
    simp only [wp_bind, wp_discard, wp_advance, wp_pure]
    refine ⟨_, hus.trans (.take hline), fun vs e he => ?_⟩
    have hsign := hsigns _ _ (.sign hwritten he)
    simpa using hsign

theorem signed_sound (hphrase : ∀ ts e, derived ts e → Grammar.Phrase ts) :
    Sound (signed nested) (Grammar.Unary derived) := by
  intro ctx ts hts
  unfold signed
  simp only [wp_bind, wp_pure]
  refine wp_imp (@signs_sound derived ctx ts) ?_
  rintro signs mid ⟨us, hus, hsigns⟩
  refine wp_imp (suffixed_sound hn hphrase ctx mid (hts.behind hus)) ?_
  rintro e rest ⟨vs, hvs, he⟩
  exact ⟨us ++ vs, hus.trans hvs, hsigns vs e (.operand he)⟩

omit hn in
/-- The operator may stand on the line or open the next one. -/
theorem operation_sound {level : List BinaryOp} {tighter : Parser Expr} {k : Nat} {ctx : Context}
    {ts us : List Token} {left : Expr} (hlevel : ∀ op ∈ level, op.precedence = k)
    (htighter : Sound tighter (Grammar.Binary derived (k + 1)))
    (hphrase : ∀ ts e, derived ts e → Grammar.Phrase ts) (hus : Scans us)
    (hleft : Grammar.Binary derived k ts left) :
    wp (operation level tighter left) ctx us
      (fun o rest => ∃ vs, Spans us vs rest ∧ Grammar.Binary derived k (ts ++ vs) (o.getD left))
      (fun _ _ => True) := by
  have hne : ∀ us e, Grammar.Binary derived (k + 1) us e → us ≠ [] := by
    intro us e he
    obtain ⟨t, more, rfl, -⟩ := (he.phrase hphrase).opens
    exact List.cons_ne_nil t more
  -- From the operator on it makes no difference whether a line was joined.
  have hread : ∀ {mid : List Token} {op : BinaryOp}, Scans mid →
      (∀ vs rest, Spans mid vs rest → vs ≠ [] → Spans us vs rest) →
      binaryOp? level (ctx.lookahead 0 mid) = some op →
      wp tighter ctx ((mid.dropWhile ctx.skips).tail.dropWhile Token.isLayout)
        (fun right rest => ∃ vs, Spans us vs rest ∧ Grammar.Binary derived k (ts ++ vs)
          (.binary (left.range.span right.range) op left right)) (fun _ _ => True) := by
    intro mid op hmid hback hop
    have hline := isLineEnd_of_binaryOp? hop
    obtain ⟨hmem, hwritten⟩ := binaryOp?_written (hmid.lookahead hline) hop
    have hoperator := Spans.take hline
    refine wp_imp (htighter.behind_layout hne (hmid.behind hoperator)) ?_
    rintro right rest ⟨vs, hvs, hright⟩
    exact ⟨_, hback _ _ (hoperator.trans hvs) (by simp),
      .operation hleft (hlevel op hmem) hwritten hright⟩
  unfold operation
  rw [wp_bind]
  rcases joinLine_cases (level.map BinaryOp.text) ctx us with
    hstay | ⟨margin, t, more, -, -, hdrop, hcarries, hjoin⟩
  · rw [wp_of_ok hstay, wp_bind, wp_peek]
    cases hop : binaryOp? level (ctx.lookahead 0 us) with
    | none => exact ⟨[], .refl us, by simpa using hleft⟩
    | some op =>
      simp only [wp_bind, wp_discard, wp_advance, wp_passLayout, wp_pure]
      exact hread hus (fun _ _ h _ => h) hop
  · have hcode := Token.isLayout_of_dropWhile hdrop
    have hmid : Scans (t :: more) := hdrop ▸ hus.dropWhile _
    have hsee : ctx.lookahead 0 (t :: more) = t :=
      Context.lookahead_zero_of_seen (Context.skips_of_code hcode)
    rw [wp_of_ok hjoin, wp_bind, wp_peek]
    cases hop : binaryOp? level (ctx.lookahead 0 (t :: more)) with
    | none =>
      rw [hsee] at hop
      exact absurd hop (binaryOp?_of_carriesOn hcarries)
    | some op =>
      simp only [wp_bind, wp_discard, wp_advance, wp_passLayout, wp_pure]
      refine hread hmid (fun vs rest h hne => ?_) hop
      rw [← hdrop] at h
      exact h.of_dropWhile (fun _ => id) hne

/-- By induction on the levels that are tighter than `k`. -/
theorem operations_sound (hphrase : ∀ ts e, derived ts e → Grammar.Phrase ts) {k tighter : Nat}
    (hk : k + tighter = 6) :
    Sound (operations nested (BinaryOp.levels.drop k)) (Grammar.Binary derived k) := by
  induction tighter generalizing k with
  | zero =>
    subst hk
    intro ctx ts hts
    refine wp_imp (signed_sound hn hphrase ctx ts hts) ?_
    rintro e rest ⟨us, hus, he⟩
    exact ⟨us, hus, .unary he⟩
  | succ tighter ih =>
    obtain ⟨level, hdrop, hlevel⟩ := BinaryOp.levels_drop (k := k) (by omega)
    have htighter := @ih (k + 1) (by omega)
    intro ctx ts hts
    rw [hdrop, operations, wp_bind]
    refine wp_imp (htighter ctx ts hts) ?_
    rintro first mid ⟨us, hus, hfirst⟩
    refine wp_iterate (fun e rest => ∃ vs, Spans ts vs rest ∧ Grammar.Binary derived k vs e) ?_
      ⟨us, hus, .tighter hfirst⟩
    rintro e rest ⟨vs, hvs, he⟩
    refine wp_imp (operation_sound (fun op hop => (hlevel op).1 hop) htighter hphrase
      (hts.behind hvs) he) ?_
    rintro o rest ⟨ws, hws, ho⟩
    exact ⟨vs ++ ws, hvs.trans hws, ho⟩

/-! ## Choices -/

/-- The branches of a choice, behind the question mark. -/
theorem choice_sound (hphrase : ∀ ts e, derived ts e → Grammar.Phrase ts) {ctx : Context}
    {ts us : List Token} {condition : Expr} (hus : Scans us)
    (hcond : Grammar.Binary derived 0 ts condition)
    (hq : (ctx.lookahead 0 us).isOperator "?" = true) :
    wp (do
        discard advance
        passLayout
        let whenTrue ← nested
        joinLine [":"]
        discard <| expect (·.isOperator ":") .colon
        passLayout
        let whenFalse ← nested
        return .ternary (condition.range.span whenFalse.range) condition whenTrue whenFalse)
      ctx us
      (fun e rest => ∃ vs, vs ≠ [] ∧ Spans us vs rest ∧ Grammar.Ternary derived (ts ++ vs) e)
      (fun _ _ => True) := by
  have hne : ∀ us e, derived us e → us ≠ [] := by
    intro us e he
    obtain ⟨t, more, rfl, -⟩ := (hphrase us e he).opens
    exact List.cons_ne_nil t more
  have hquestion := Spans.take (isLineEnd_of_operator _ hq)
  simp only [wp_bind, wp_discard, wp_advance, wp_passLayout, wp_pure]
  refine wp_imp (hn.behind_layout hne (hus.behind hquestion)) ?_
  rintro whenTrue left ⟨vs, hvs, htrue⟩
  have hfront := hquestion.trans hvs
  -- The colon may open the next line; either way the same code is taken.
  have hcolon : ∀ mid, (∀ ws rest, Spans mid ws rest → ws ≠ [] → Spans left ws rest) →
      wp (expect (·.isOperator ":") .colon) ctx mid
        (fun _ rest => wp nested ctx (rest.dropWhile Token.isLayout)
          (fun whenFalse rest => ∃ vs, vs ≠ [] ∧ Spans us vs rest ∧ Grammar.Ternary derived (ts ++ vs)
            (.ternary (condition.range.span whenFalse.range) condition whenTrue whenFalse))
          (fun _ _ => True)) (fun _ _ => True) := by
    intro mid hback
    refine wp_expect_spans isLineEnd_of_operator ?_
    intro c more hmid hc
    have hboth := hfront.trans (hback _ _ hmid (by simp))
    refine wp_imp (hn.behind_layout hne (hus.behind hboth)) ?_
    rintro whenFalse rest ⟨ws, hws, hfalse⟩
    refine ⟨_, by simp, hboth.trans hws, ?_⟩
    simp only [List.append_assoc, List.singleton_append]
    exact .choice hcond hq htrue hc hfalse
  rcases joinLine_cases [":"] ctx left with hstay | ⟨margin, t, more, -, -, hdrop, -, hjoin⟩
  · rw [wp_of_ok hstay]
    exact hcolon left fun _ _ h _ => h
  · rw [wp_of_ok hjoin]
    refine hcolon (t :: more) fun ws rest h hws => ?_
    rw [← hdrop] at h
    exact h.of_dropWhile (fun _ => id) hws

theorem ternary_sound (hphrase : ∀ ts e, derived ts e → Grammar.Phrase ts) :
    Sound (ternary nested) (Grammar.Ternary derived) := by
  intro ctx ts hts
  unfold ternary
  rw [wp_bind]
  refine wp_imp (operations_sound hn hphrase (Nat.zero_add 6) ctx ts hts) ?_
  rintro condition mid ⟨us, hus, hcond⟩
  have hmid := hts.behind hus
  rw [wp_bind]
  rcases joinLine_cases ["?"] ctx mid with hstay | ⟨margin, t, more, -, -, hdrop, hcarries, hjoin⟩
  · rw [wp_of_ok hstay, wp_bind, wp_peek, wp_ite]
    split
    · rename_i hq
      refine wp_imp (choice_sound hn hphrase hmid hcond hq) ?_
      rintro e rest ⟨vs, -, hvs, he⟩
      exact ⟨us ++ vs, hus.trans hvs, he⟩
    · exact ⟨us, hus, .binary hcond⟩
  · have hcode := Token.isLayout_of_dropWhile hdrop
    have hmore : Scans (t :: more) := hdrop ▸ hmid.dropWhile _
    have hsee : ctx.lookahead 0 (t :: more) = t :=
      Context.lookahead_zero_of_seen (Context.skips_of_code hcode)
    have hq : (ctx.lookahead 0 (t :: more)).isOperator "?" = true := by
      rw [hsee]
      exact isOperator_of_carriesOn (hmore t List.mem_cons_self) (by decide) hcarries
    rw [wp_of_ok hjoin, wp_bind, wp_peek, if_pos hq]
    refine wp_imp (choice_sound hn hphrase hmore hcond hq) ?_
    rintro e rest ⟨vs, hne, hvs, he⟩
    rw [← hdrop] at hvs
    exact ⟨us ++ vs, hus.trans (hvs.of_dropWhile (fun _ => id) hne), he⟩

end Levels

/-- What is read as an expression is derived by the grammar. -/
theorem expression_sound (n : Nat) : Sound (expression n) (Grammar.Expression n) := by
  induction n with
  | zero => exact fun _ _ _ => trivial
  | succ n ih => exact ternary_sound ih fun _ _ he => he.phrase

end Parser

end PineScript
