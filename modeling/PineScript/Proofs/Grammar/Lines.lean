import PineScript.Proofs.Grammar.Forms
import PineScript.Proofs.Grammar.Pieces

/-!
# Statements are lines

A statement that is read takes the line that it stands on and the lines below it. The code of each
line derives what the line belongs to, and a simple statement is read again if the layout in its line
is left out.
-/

namespace PineScript.Parser

open Token (codeOf)

variable {n : Nat} {finish : Position} {ctx : Context} {ts : List Token}
  {block : Int → Parser (Mended Block)}
  {indent : Int}

theorem expression_withstands (n : Nat) (ctx : Context) (ts : List Token) (E : Exchange) :
    Withstands E (expression n) ctx ts :=
  withstands_of_steady ((expression_sturdy _ n).steady ctx ts)

/-- A value on a line. -/
theorem Heads.value {β : Type} {g : Expr → Parser β} {spelled : β → List Token → Prop}
    {heads : β → List Head} (hts : Scans ts)
    (h : ∀ e us mid, Spans ts us mid → Grammar.Value us e →
      Heads (g e) ctx mid (fun v vs => spelled v (us ++ vs)) heads) :
    Heads (expression n >>= g) ctx ts spelled heads := by
  refine .step (expression_withstands n ctx ts)
    (wp_imp (expression_sound n ctx ts hts) ?_)
  rintro e mid ⟨us, hus, he⟩
  exact ⟨us, hus, h e us mid hus ⟨n, he⟩⟩

/-- The next token of a line. -/
theorem Heads.advance {β : Type} {g : Token → Parser β} {spelled : β → List Token → Prop}
    {heads : β → List Head} (hline : (ctx.lookahead 0 ts).isLineEnd = false)
    (h : ∀ mid, Spans ts [ctx.lookahead 0 ts] mid →
      Heads (g (ctx.lookahead 0 ts)) ctx mid (fun v vs => spelled v (ctx.lookahead 0 ts :: vs)) heads) :
    Heads (Parser.advance >>= g) ctx ts spelled heads := by
  refine .step (fun _ => withstands_of_steady (advance_steady hline)) ?_
  rw [wp_advance]
  exact ⟨_, .take hline, h _ (.take hline)⟩

theorem Heads.expect {β : Type} {test : Token → Bool} {wanted : Expected} {g : Token → Parser β}
    {spelled : β → List Token → Prop} {heads : β → List Head}
    (hline : ∀ t, test t = true → t.isLineEnd = false)
    (h : ∀ t mid, Spans ts [t] mid → test t = true →
      Heads (g t) ctx mid (fun v vs => spelled v (t :: vs)) heads) :
    Heads (Parser.expect test wanted >>= g) ctx ts spelled heads :=
  .step (fun _ => withstands_of_steady (expect_steady fun t ht => Bool.eq_false_iff.2 fun htest => by
      simp [hline t htest] at ht))
    (wp_expect_spans hline fun t mid ht htest => ⟨[t], ht, h t mid ht htest⟩)

/-! ## Blocks below a header -/

/-- What a statement needs of the reader of the blocks below it. -/
structure Lays (block : Int → Parser (Mended Block)) (ctx : Context) : Prop where
  keeps : ∀ V, BlockKeeps V block
  folds : ∀ indent ts, Scans ts → Folds (block indent) ctx ts fun b => b.value.heads
  lineEnds : ∀ indent ts b rest, block indent ctx ts = .ok b rest → LineEnds ts

theorem Lays.heads {β : Type} {f : Mended Block → β} {spelled : β → List Token → Prop}
    {heads : β → List Head} (hblock : Lays block ctx) (hts : Scans ts)
    (hheads : ∀ b, heads (f b) = b.value.heads) (hspelled : ∀ b, spelled (f b) []) :
    Heads (block indent >>= fun b => pure (f b)) ctx ts spelled heads := by
  refine .of_folds ((hblock.folds indent ts hts).map hheads) hts fun v rest hread => ?_
  obtain ⟨b, mid, hbody, hpure⟩ := exists_of_bind_ok hread
  cases hpure
  exact ⟨hblock.lineEnds indent ts b rest hbody, hspelled b⟩

/-- The line of a statement with a block or of a function. -/
def Heading (m : Mended Stmt) (us : List Token) : Prop :=
  m.value.isSimple = false ∧ Grammar.Header Grammar.Value us m.value

section

variable (hblock : Lays block ctx)
include hblock

/-! ## Conditionals -/

theorem branch_heads {rest : Parser (Mended Otherwise)} {keyword : Token}
    {spelled : Mended Branch → List Token → Prop} (hts : Scans ts)
    (hrest : ∀ mid, mid <:+ ts → Folds rest ctx mid fun o => o.value.heads)
    (hspelled : ∀ us condition stop body otherwise faults, Grammar.Value us condition →
      spelled ⟨.mk ⟨keyword.range.start, stop⟩ condition body otherwise, faults⟩ us) :
    Heads (branch (expression n) block indent rest keyword) ctx ts spelled
      (fun b => b.value.headsBelow) := by
  refine .value hts fun condition us mid hus hcondition => ?_
  have hmid := hts.behind hus
  -- The header is the code of the condition; the lines of the block and of what hangs on the `if`
  -- follow it.
  refine .of_folds (.bind (hblock.folds indent mid hmid) hmid
    (fun _ => withstands_of_lasts ((hblock.keeps _).lasts (.inl rfl) _ _))
    (hblock.lineEnds indent mid) fun body left hbody v stop hread => ?_) hmid fun v stop hread => ?_
  · obtain ⟨o, stop', ho, hpure⟩ := exists_of_bind_ok hread
    cases hpure
    obtain ⟨_, hbelow⟩ := hblock.folds indent mid hmid body left hbody
    obtain ⟨ps, hfolded⟩ := hrest left (hbelow.runs.suffix.trans hus.suffix) o stop ho
    exact ⟨o.value.heads, ps, rfl, hfolded.first⟩
  · obtain ⟨body, left, hbody, hmore⟩ := exists_of_bind_ok hread
    obtain ⟨o, stop', -, hpure⟩ := exists_of_bind_ok hmore
    cases hpure
    refine ⟨hblock.lineEnds indent mid body left hbody, ?_⟩
    rw [List.append_nil]
    exact hspelled _ _ _ _ _ _ hcondition

/-- An `else` opens a line of its own, with or without an `if` behind it. -/
theorem otherwise_folds (hts : Scans ts) :
    Folds (otherwise (expression n) block indent) ctx ts fun o => o.value.heads := by
  -- By induction on the tokens that are left, since each `else` is one.
  induction hlen : ts.length using Nat.strongRecOn generalizing ts with
  | ind k ih =>
    rw [otherwise_eq_hanging indent (fun ctx ts => ((expression_sturdy .still n).steady ctx ts).suffix)
      (hblock.keeps .still).suffix]
    cases helse : elseAhead indent ts with
    | none =>
      intro o rest hread
      simp only [hanging, bind_apply, takeElse_of_none helse] at hread
      cases hread
      exact ⟨[], rfl, .refl ts, by simp⟩
    | some line =>
      obtain ⟨t, more, rfl, hword, hdrop⟩ := dropWhile_of_elseAhead helse
      have hcode := Token.isLayout_of_keyword hword
      have hspans : Spans ts [t] more := by
        refine .of_dropWhile (fun _ => id) ?_ (List.cons_ne_nil t [])
        rw [hdrop]
        exact .cons hcode
      have htake : takeElse indent ctx ts = .ok true more := by
        simp [takeElse_of_some helse, discard_eq_map, advance_of_seen (Context.skips_of_code hcode)]
      have hmore := hts.behind hspans
      -- What stands on the line of the `else` decides which of the two lines it is.
      suffices h : Heads _ ctx ts (fun (o : Mended Otherwise) us => ∃ head : Head,
          head.Spelled us ∧ head.isSimple = false ∧
          o.value.heads = head :: o.value.heads.tail) fun o => o.value.heads.tail from
        h.folds fun _ _ => id
      refine .step (fun _ => withstands_of_steady (takeElse_keeps indent ctx ts))
        ((wp_of_ok htake).2 ⟨[t], hspans, ?_⟩)
      refine .ite (fun h => by cases h) fun _ => .peek (.ite (fun hif => ?_) fun _ => ?_)
      · refine .advance (isLineEnd_of_keyword _ hif) fun left hleft => ?_
        refine .map (branch_heads hblock (hmore.behind hleft) (fun mid hmid => ih _ ?_ ?_ rfl)
          fun us condition stop body otherwise faults hcondition => ?_) (fun _ _ => id) fun _ => rfl
        · have := hspans.length_lt (List.cons_ne_nil t [])
          have := (hmid.trans hleft.suffix).length_le
          omega
        · exact (hmore.behind hleft).suffix hmid
        · exact ⟨_, .elseIf hword (.conditional hif hcondition), rfl, rfl⟩
      · exact hblock.heads hmore (fun _ => rfl) fun _ => ⟨_, .else hword, rfl, rfl⟩

theorem conditional_heads (hts : Scans ts) (hif : (ctx.lookahead 0 ts).isKeyword "if" = true) :
    Heads (conditional (expression n) block indent) ctx ts Heading (fun m => m.value.headsBelow) := by
  refine .advance (isLineEnd_of_keyword _ hif) fun mid hmid => ?_
  have hmore := hts.behind hmid
  refine .map (branch_heads hblock hmore (fun left hleft => otherwise_folds hblock (hmore.suffix hleft))
    fun us condition stop body otherwise faults hcondition => ?_) (fun _ _ => id) fun _ => rfl
  exact ⟨rfl, .conditional hif hcondition⟩

/-! ## Loops -/

theorem forLoop_heads (hts : Scans ts) (hfor : (ctx.lookahead 0 ts).isKeyword "for" = true) :
    Heads (forLoop (expression n) block indent) ctx ts Heading (fun m => m.value.headsBelow) := by
  unfold forLoop
  simp only [discard_bind, pure_bind]
  refine .advance (isLineEnd_of_keyword _ hfor) fun _ hspans => ?_
  have hts := hts.behind hspans
  -- Behind the name an equals sign makes it count, and an `in` makes it iterate.
  refine .expect isLineEnd_of_identifier fun x _ hspans hx => .peek (.ite (fun hq => ?_) fun _ =>
    .ite (fun hi => ?_) fun _ => .of_fault rfl)
  all_goals have hts := hts.behind hspans
  · refine .advance (isLineEnd_of_operator _ hq) fun _ hspans => ?_
    have hts := hts.behind hspans
    refine .value hts fun first us _ hspans hfirst => ?_
    have hts := hts.behind hspans
    refine .expect isLineEnd_of_keyword fun u _ hspans hu => ?_
    have hts := hts.behind hspans
    refine .value hts fun last vs _ hspans hlast => .peek (.ite (fun hb => ?_) fun _ => ?_)
    all_goals have hts := hts.behind hspans
    · have hby := Spans.take (isLineEnd_of_keyword _ hb)
      refine .step (fun _ => withstands_of_steady
        (marked_steady (expression_sturdy _ n) (isLineEnd_of_keyword _ hb))) ?_
      simp only [wp_bind, wp_advance, map_eq_bind, wp_pure]
      refine wp_imp (expression_sound n ctx _ (hts.behind hby)) ?_
      rintro step _ ⟨ws, hws, hstep⟩
      have hspans := hby.trans hws
      refine ⟨_, hspans, hblock.heads (hts.behind hspans) (fun _ => rfl) fun body => ⟨rfl, ?_⟩⟩
      simpa using Grammar.Header.countingLoop hfor hx hq hfirst hu hlast
        (.some ⟨_, _, rfl, hb, ⟨n, hstep⟩⟩)
    · refine hblock.heads hts (fun _ => rfl) fun body => ⟨rfl, ?_⟩
      simpa using Grammar.Header.countingLoop hfor hx hq hfirst hu hlast .none
  · refine .advance (isLineEnd_of_keyword _ hi) fun _ hspans => ?_
    have hts := hts.behind hspans
    refine .value hts fun collection us _ hspans hcollection => ?_
    refine hblock.heads (hts.behind hspans) (fun _ => rfl) fun body => ⟨rfl, ?_⟩
    rw [List.append_nil]
    exact .iteratingLoop hfor hx hi hcollection

theorem whileLoop_heads (hts : Scans ts) (hwhile : (ctx.lookahead 0 ts).isKeyword "while" = true) :
    Heads (whileLoop (expression n) block indent) ctx ts Heading (fun m => m.value.headsBelow) := by
  refine .advance (isLineEnd_of_keyword _ hwhile) fun left hleft => ?_
  refine .value (hts.behind hleft) fun condition us mid hmid hcondition => ?_
  refine hblock.heads ((hts.behind hleft).behind hmid) (fun _ => rfl) fun body => ⟨rfl, ?_⟩
  rw [List.append_nil]
  exact .whileLoop hwhile hcondition

/-! ## Functions -/

theorem function_heads (hctx : ctx.bracketed = false) (hts : Scans ts)
    (hx : (ctx.lookahead 0 ts).isIdentifier = true)
    (ho : (ctx.lookahead 1 ts).isPunctuation "(" = true) :
    Heads (function (expression n) block indent) ctx ts Heading (fun m => m.value.headsBelow) := by
  rw [lookahead_succ] at ho
  have hname := Spans.take (isLineEnd_of_identifier _ hx)
  have hts := hts.behind hname
  unfold function
  simp only [discard_bind]
  refine .step (fun _ => withstands_of_steady (advance_steady (isLineEnd_of_identifier _ hx))) ?_
  rw [wp_advance]
  refine ⟨_, hname, .advance (isLineEnd_of_punctuation _ ho) fun mid hspans => ?_⟩
  have hts := hts.behind hspans
  refine .step (fun _ => withstands_of_steady (listItems_keeps (parameter_takes (expression_takes n))
    (parameter_steady (expression_sturdy _ n) _) _)) (wp_imp (listItems_sound
      (parameter_sound (expression_sound n)) (fun _ _ => parameter_ne_nil) hts) ?_)
  rintro ⟨parameters, c⟩ left ⟨us, hus, hparameters, hc⟩
  have hts := hts.behind hus
  refine ⟨_, hus, .expect isLineEnd_of_operator fun a mid hspans ha => ?_⟩
  have hts := hts.behind hspans
  have hlisted : Grammar.Listed (Grammar.Parameter Grammar.Value) us parameters :=
    hparameters.mono fun _ _ hp => hp.mono fun _ _ he => ⟨n, he⟩
  -- A block follows at the end of the line, else a value on it.
  refine .step (fun _ => withstands_of_steady (atLineEnd_steady _ _))
    ⟨[], .refl mid, .ite (fun _ => ?_) fun _ => ?_⟩
  · refine hblock.heads hts (fun _ => rfl) fun body => ⟨rfl, ?_⟩
    simpa using Grammar.Header.blockFunction hx ho hlisted hc ha
  · refine .value hts fun e vs left hvs he => .endOfLine hctx ⟨rfl, ?_⟩ rfl
    simpa using Grammar.Header.lineFunction hx ho hlisted hc ha he

/-! ## Statements -/

/-- A statement with a block, or a function. -/
theorem statement_heads (hctx : ctx.bracketed = false) (hts : Scans ts)
    (hcompound : (ctx.lookahead 0 ts).isKeyword "if" = true ∨
      (ctx.lookahead 0 ts).isKeyword "for" = true ∨
      (ctx.lookahead 0 ts).isKeyword "while" = true ∨ (ctx.lookahead 0 ts).isKeyword "else" = true ∨
      startsFunction ctx ts = .ok true ts) :
    Heads (statement (expression n) block indent) ctx ts Heading (fun m => m.value.headsBelow) := by
  refine .peek (.ite (fun hif => conditional_heads hblock hts hif) fun hif => ?_)
  refine .ite (fun hfor => forLoop_heads hblock hts hfor) fun hfor => ?_
  refine .ite (fun hwhile => whileLoop_heads hblock hts hwhile) fun hwhile => ?_
  refine .ite (fun _ => .of_fault rfl) fun helse => ?_
  have hstarts : startsFunction ctx ts = .ok true ts := by
    simpa [hif, hfor, hwhile, helse] using hcompound
  obtain ⟨name, rest, first, more, hname, hfirst, hx, ho, -⟩ := exists_of_startsFunction hstarts
  refine .step (startsFunction_withstands hctx ts) ((wp_of_ok hstarts).2 ⟨[], .refl ts, ?_⟩)
  refine .ite (fun _ => ?_) fun h => absurd rfl h
  refine function_heads hblock hctx hts ?_ ?_
  · rwa [ctx.lookahead_zero, hname]
  · rwa [lookahead_succ, hname, List.tail_cons, ctx.lookahead_zero, hfirst]

end

/-- A statement without a block is a line, and is read again without the layout in it. -/
theorem simple_folds (hts : Scans ts) (hcode : ts.dropWhile Token.isLayout = ts)
    (hsimple : ∀ m rest, statement (expression n) block indent ⟨finish, false, none⟩ ts = .ok m rest →
      ∃ s, m = ⟨s, []⟩ ∧ simple (expression n) indent ⟨finish, false, none⟩ ts = .ok s rest) :
    Folds (statement (expression n) block indent) ⟨finish, false, none⟩ ts
      fun m => .statement m.value :: m.value.headsBelow := by
  intro m rest hread
  obtain ⟨s, rfl, hsimple⟩ := hsimple m rest hread
  have hform : wp (simple (expression n) indent) ⟨finish, false, none⟩ ts
      (fun s rest => Formed n ⟨finish, false, some indent⟩ ts s rest ∧ LineEnds rest)
      (fun _ _ => True) := by
    unfold simple
    rw [wp_bind, wp_withMargin]
    refine wp_imp (simpleForm_formed hts) (fun s rest hs => ?_)
    refine (wp_bind _ _).2 (wp_imp (wp_endOfLine_lineEnds rfl) ?_)
    rintro _ _ ⟨rfl, hline⟩
    exact ⟨hs, hline⟩
  obtain ⟨⟨us, hus, hderived, hsettles⟩, hline⟩ := (wp_of_ok hsimple).1 hform
  have hspelled : (Head.statement s).Spelled us :=
    .statement (.simple (hderived.mono fun _ _ he => ⟨n, he⟩))
  obtain ⟨span, last, hstart, hlast, hlastcode, rfl⟩ := hus.exists_span hspelled.ne_nil
  refine ⟨[⟨.statement s, span, rest⟩], ?_,
    .piece hstart hlast hlastcode hspelled hline (.refl rest), ?_⟩
  · simp only [Stmt.headsBelow_of_isSimple hderived.isSimple, List.map_cons, List.map_nil]
  · intro p hp _ front hfront
    obtain rfl : p = ⟨.statement s, span, rest⟩ := by simpa using hp
    simp only at hfront ⊢
    -- The statement begins with its own line, so that nothing stands in front of it.
    have hnil : front = [] := by
      rw [hcode] at hstart
      exact List.self_eq_append_left.1 (hstart.symm.trans hfront)
    rw [hread, hnil]
    exact statement_of_simple hderived (fun h => ⟨fun _ hspellings => (hsettles h).noJoin hspellings,
      hline.not_continues⟩) hline

theorem statement_folds (hblock : Lays block ⟨finish, false, none⟩) (hts : Scans ts)
    (hcode : ts.dropWhile Token.isLayout = ts) :
    Folds (statement (expression n) block indent) ⟨finish, false, none⟩ ts
      fun m => .statement m.value :: m.value.headsBelow := by
  by_cases hcompound : (Context.lookahead ⟨finish, false, none⟩ 0 ts).isKeyword "if" = true ∨
      (Context.lookahead ⟨finish, false, none⟩ 0 ts).isKeyword "for" = true ∨
      (Context.lookahead ⟨finish, false, none⟩ 0 ts).isKeyword "while" = true ∨
      (Context.lookahead ⟨finish, false, none⟩ 0 ts).isKeyword "else" = true ∨
      startsFunction ⟨finish, false, none⟩ ts = .ok true ts
  · exact (statement_heads hblock rfl hts hcompound).folds fun m us ⟨hsimple, hheader⟩ =>
      ⟨.statement m.value, .statement hheader, hsimple, rfl⟩
  · refine simple_folds hts hcode fun m rest hread => ?_
    simp only [not_or] at hcompound
    obtain ⟨hif, hfor, hwhile, helse, hfunction⟩ := hcompound
    have hstarts : startsFunction ⟨finish, false, none⟩ ts = .ok false ts := by
      rw [startsFunction_eq] at hfunction ⊢
      simpa using hfunction
    have hplain : statement (expression n) block indent ⟨finish, false, none⟩ ts =
        (simple (expression n) indent >>= fun s => pure ⟨s, []⟩) ⟨finish, false, none⟩ ts := by
      simp [statement, peek_apply, hif, hfor, hwhile, helse, hstarts]
    obtain ⟨s, mid, hsimple, hpure⟩ := exists_of_bind_ok (hplain.symm.trans hread)
    cases hpure
    exact ⟨s, rfl, hsimple⟩

end PineScript.Parser
