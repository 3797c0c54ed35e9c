import Mathlib.Data.List.TakeWhile
import PineScript.Proofs.Grammar.Phrase
import PineScript.Proofs.Parser.Run

/-!
# What readers take

A reader of expressions takes at least one token that it sees, and the brackets among the tokens
that it takes match. The tokens may have comments and line breaks among them.
-/

namespace PineScript.Parser

open Grammar (Balanced)

variable {ctx : Context} {ts mid rest : List Token}

/-- What is left behind tokens whose brackets match. -/
def Past (ts rest : List Token) : Prop := ∃ front, ts = front ++ rest ∧ Balanced front

/-- What is left behind such tokens, at least one of which is seen. -/
def Beyond (ctx : Context) (ts rest : List Token) : Prop :=
  ∃ front, ts = front ++ rest ∧ Balanced front ∧ ∃ t ∈ front, ctx.skips t = false

theorem Past.refl (ts : List Token) : Past ts ts := ⟨[], rfl, .nil⟩

theorem Past.trans (h : Past ts mid) (h' : Past mid rest) : Past ts rest := by
  obtain ⟨front, rfl, hfront⟩ := h
  obtain ⟨more, rfl, hmore⟩ := h'
  exact ⟨front ++ more, (List.append_assoc ..).symm, hfront.append hmore⟩

theorem Beyond.past (h : Beyond ctx ts rest) : Past ts rest := by
  obtain ⟨front, hts, hfront, -⟩ := h
  exact ⟨front, hts, hfront⟩

theorem Beyond.trans (h : Beyond ctx ts mid) (h' : Past mid rest) : Beyond ctx ts rest := by
  obtain ⟨front, rfl, hfront, t, ht, hseen⟩ := h
  obtain ⟨more, rfl, hmore⟩ := h'
  exact ⟨front ++ more, (List.append_assoc ..).symm, hfront.append hmore, t,
    List.mem_append_left more ht, hseen⟩

theorem Past.beyond (h : Past ts mid) (h' : Beyond ctx mid rest) : Beyond ctx ts rest := by
  obtain ⟨front, rfl, hfront⟩ := h
  obtain ⟨more, rfl, hmore, t, ht, hseen⟩ := h'
  exact ⟨front ++ more, (List.append_assoc ..).symm, hfront.append hmore, t,
    List.mem_append_right front ht, hseen⟩

theorem Beyond.length_lt (h : Beyond ctx ts rest) : rest.length < ts.length := by
  obtain ⟨front, rfl, -, t, ht, -⟩ := h
  rw [List.length_append]
  have := List.length_pos_of_mem ht
  omega

theorem balanced_of_layout {layout : List Token} (h : ∀ t ∈ layout, t.isLayout = true) :
    Balanced layout := by
  induction layout with
  | nil => exact .nil
  | cons t layout ih =>
    have ht := h t List.mem_cons_self
    exact .cons (.inl (by grind)) (ih fun u hu => h u (List.mem_cons_of_mem t hu))

theorem Past.dropWhile {p : Token → Bool} (hp : ∀ t, p t = true → t.isLayout = true)
    (ts : List Token) : Past ts (ts.dropWhile p) :=
  ⟨ts.takeWhile p, List.takeWhile_append_dropWhile.symm,
    balanced_of_layout fun t ht => hp t (List.mem_takeWhile_imp ht)⟩

theorem isLayout_of_skips {t : Token} (h : ctx.skips t = true) : t.isLayout = true := by grind

/-! ## Rules -/

/-- The next token that is seen, where it is not the end of a line, stands behind layout. -/
theorem exists_skipped (h : (ctx.lookahead 0 ts).isLineEnd = false) :
    ctx.skips (ctx.lookahead 0 ts) = false ∧
      ∃ skipped, ts = skipped ++ ctx.lookahead 0 ts :: (ts.dropWhile ctx.skips).tail ∧
        Balanced skipped := by
  have hbalanced : Balanced (ts.takeWhile ctx.skips) :=
    balanced_of_layout fun t ht => isLayout_of_skips (List.mem_takeWhile_imp ht)
  have hsplit : ts.takeWhile ctx.skips ++ ts.dropWhile ctx.skips = ts :=
    List.takeWhile_append_dropWhile
  have hseen := List.head?_dropWhile_not ctx.skips ts
  rw [ctx.lookahead_zero] at h ⊢
  cases heq : ts.dropWhile ctx.skips with
  | nil =>
    rw [heq] at h
    cases h
  | cons t more =>
    rw [heq] at hseen hsplit
    exact ⟨by simpa using hseen, _, hsplit.symm, hbalanced⟩

/-- The tokens seen behind the next one are those that are seen after it is taken. -/
theorem lookahead_succ (ctx : Context) (n : Nat) (ts : List Token) :
    ctx.lookahead (n + 1) ts = ctx.lookahead n (ts.dropWhile ctx.skips).tail := by
  induction ts with
  | nil => simp
  | cons t ts ih =>
    cases h : ctx.skips t with
    | true => simp [Context.lookahead_of_skipped, h, ih]
    | false => simp [Context.lookahead_succ_of_seen, h]

/-- A token that is no bracket is taken. -/
theorem Beyond.take (h : (ctx.lookahead 0 ts).isLineEnd = false)
    (hplain : (ctx.lookahead 0 ts).kind ≠ .punctuation ∨ (ctx.lookahead 0 ts).text = ",") :
    Beyond ctx ts (ts.dropWhile ctx.skips).tail := by
  obtain ⟨hseen, skipped, hts, hskipped⟩ := exists_skipped h
  refine ⟨skipped ++ [ctx.lookahead 0 ts], ?_, hskipped.append (.cons hplain .nil), _, ?_, hseen⟩
  · rwa [List.append_assoc]
  · exact List.mem_append_right skipped List.mem_cons_self

/-- Two brackets are taken, with what stands between them. -/
theorem Beyond.bracket {c : Context} (ho : (ctx.lookahead 0 ts).isPunctuation "(" = true ∨
      (ctx.lookahead 0 ts).isPunctuation "[" = true)
    (h : Past (ts.dropWhile ctx.skips).tail mid)
    (hc : (c.lookahead 0 mid).isPunctuation ")" = true ∨
      (c.lookahead 0 mid).isPunctuation "]" = true) :
    Beyond ctx ts (mid.dropWhile c.skips).tail := by
  obtain ⟨hseen, skipped, hts, hskipped⟩ := @exists_skipped ctx ts (by grind)
  obtain ⟨-, skipped', hmid, hskipped'⟩ := @exists_skipped c mid (by grind)
  obtain ⟨inside, hinside, hbalanced⟩ := h
  refine ⟨skipped ++ ctx.lookahead 0 ts :: ((inside ++ skipped') ++ [c.lookahead 0 mid]), ?_,
    hskipped.append (.bracket ho (hbalanced.append hskipped') hc), _, ?_, hseen⟩
  · rw [hinside, hmid] at hts
    simpa using hts
  · exact List.mem_append_right skipped List.mem_cons_self

/-- From any tokens on, a reader that succeeds goes beyond some that it sees. -/
def Takes {α : Type} (p : Parser α) : Prop :=
  ∀ ctx ts, wp p ctx ts (fun _ rest => Beyond ctx ts rest) (fun _ _ => True)

theorem Takes.wp {α : Type} {p : Parser α} {Q : α → List Token → Prop} (hp : Takes p)
    (hQ : ∀ a rest, Beyond ctx ts rest → Q a rest) :
    Parser.wp p ctx ts Q (fun _ _ => True) :=
  wp_imp (hp ctx ts) hQ

/-- A reader of what may be missing. If it gives something, it has taken a token that it sees. -/
def MayTake {α : Type} (p : Parser (Option α)) : Prop :=
  ∀ ctx ts, wp p ctx ts
    (fun o rest => Past ts rest ∧ (o.isSome = true → Beyond ctx ts rest)) (fun _ _ => True)

/-- Items take what the first of them takes, and more. -/
theorem MayTake.collect {α : Type} {item : Parser (Option α)} (hitem : MayTake item)
    (ctx : Context) (ts : List Token) :
    wp (collect item) ctx ts (fun as rest => Past ts rest ∧ (as ≠ [] → Beyond ctx ts rest))
      (fun _ _ => True) := by
  -- The same holds of the items that were read so far, round by round.
  refine wp_collect (fun as rest => Past ts rest ∧ (as ≠ [] → Beyond ctx ts rest)) ?_
    ⟨.refl ts, by simp⟩
  rintro as mid ⟨hmid, has⟩
  refine wp_imp (hitem ctx mid) ?_
  rintro o rest ⟨hrest, ho⟩
  refine ⟨hmid.trans hrest, fun hne => ?_⟩
  cases o with
  | none => exact (has (by simpa using hne)).trans hrest
  | some a => exact hmid.beyond (ho rfl)

/-- A loop behind a reader takes what the reader takes, and more. -/
theorem Takes.iterate {p : Parser Expr} {step : Expr → Parser (Option Expr)} (hp : Takes p)
    (hstep : ∀ e, MayTake (step e)) : Takes (do iterate step (← p)) := by
  intro ctx ts
  rw [wp_bind]
  refine hp.wp fun e mid hmid => ?_
  refine wp_iterate (fun _ rest => Beyond ctx ts rest) (fun e rest hrest => ?_) hmid
  exact wp_imp (hstep e ctx rest) (fun _ _ h => hrest.trans h.1)

theorem wp_expect_of_test {test : Token → Bool} {wanted : Expected}
    {Q : Token → List Token → Prop} (hQ : test (ctx.lookahead 0 ts) = true →
      Q (ctx.lookahead 0 ts) (ts.dropWhile ctx.skips).tail) :
    wp (expect test wanted) ctx ts Q (fun _ _ => True) := by
  rw [wp_expect]
  split
  · exact hQ ‹_›
  · trivial

theorem wp_passLayout_past {Q : Unit → List Token → Prop}
    (hQ : ∀ rest, Past ts rest → Q () rest) : wp passLayout ctx ts Q (fun _ _ => True) :=
  wp_passLayout.2 (hQ _ (.dropWhile (fun _ => id) ts))

theorem wp_joinLine_past {Q : Unit → List Token → Prop} {spellings : List String}
    (hQ : ∀ rest, Past ts rest → Q () rest) :
    wp (joinLine spellings) ctx ts Q (fun _ _ => True) :=
  wp_joinLine spellings (hQ ts (.refl ts)) (hQ _ (.dropWhile (fun _ => id) ts))

/-! ## Kinds of tokens -/

theorem literal?_kind {t : Token} {v : Literal} (h : literal? t = some v) :
    t.isLineEnd = false ∧ t.kind ≠ .punctuation := by
  unfold literal? at h
  split at h <;> grind

theorem unaryOp?_kind {t : Token} {op : UnaryOp} (h : unaryOp? t = some op) :
    t.isLineEnd = false ∧ t.kind ≠ .punctuation := by
  unfold unaryOp? at h
  grind

theorem binaryOp?_kind {level : List BinaryOp} {t : Token} {op : BinaryOp}
    (h : binaryOp? level t = some op) : t.isLineEnd = false ∧ t.kind ≠ .punctuation := by
  unfold binaryOp? at h
  split at h <;> grind

/-! ## Lists -/

section

variable {α : Type} {item : Parser α} (hitem : Takes item)
include hitem

theorem listItem_takes (ctx : Context) (ts : List Token) :
    wp (listItem item) ctx ts
      (fun o rest => (o = none → rest = ts ∧ (ctx.lookahead 0 ts).isPunctuation ")" = true) ∧
        ∀ a, o = some a → Beyond ctx ts rest)
      (fun _ _ => True) := by
  unfold listItem
  simp only [wp_bind, wp_peek, wp_ite, wp_pure]
  split
  · exact ⟨fun _ => ⟨trivial, ‹_›⟩, by simp⟩
  · refine hitem.wp fun a mid hmid => ?_
    split
    · rename_i hcomma
      simp only [wp_discard, wp_advance]
      refine ⟨by simp, fun _ _ => hmid.trans (Beyond.take ?_ (.inr ?_)).past⟩ <;> grind
    · split
      · exact ⟨by simp, fun _ _ => hmid⟩
      · trivial

/-- A list is read up to the parenthesis that closes it. -/
theorem collect_listItem_takes (ctx : Context) (ts : List Token) :
    wp (collect (listItem item)) ctx ts
      (fun _ rest => Past ts rest ∧ (ctx.lookahead 0 rest).isPunctuation ")" = true)
      (fun _ _ => True) := by
  refine wp_collect_of_progress (fun _ rest => Past ts rest) _ (fun as mid hmid => ?_) (.refl ts)
  refine wp_imp (listItem_takes hitem ctx mid) ?_
  rintro o rest ⟨hnone, hsome⟩
  refine ⟨fun ho => ?_, fun a ho => ?_⟩
  · obtain ⟨rfl, hclose⟩ := hnone ho
    exact ⟨hmid, hclose⟩
  · exact ⟨(hsome a ho).length_lt, hmid.trans (hsome a ho).past⟩

/-- An opening parenthesis is taken with the list behind it. -/
theorem listItems_takes (ho : (ctx.lookahead 0 ts).isPunctuation "(" = true) :
    wp (listItems item) ctx (ts.dropWhile ctx.skips).tail (fun _ rest => Beyond ctx ts rest)
      (fun _ _ => True) := by
  unfold listItems
  simp only [wp_bracketed, wp_bind, wp_pure, wp_advance]
  refine wp_imp (collect_listItem_takes hitem _ _) ?_
  rintro items mid ⟨hmid, hclose⟩
  exact .bracket (.inl ho) hmid (.inl hclose)

end

/-! ## Expressions -/

section

variable {nested : Parser Expr} (hnested : Takes nested)
include hnested

theorem primary_takes : Takes (primary nested) := by
  intro ctx ts
  unfold primary
  simp only [wp_bind, wp_peek]
  split
  · rename_i hliteral
    simp only [wp_bind, wp_discard, wp_pure, wp_advance]
    exact .take (literal?_kind hliteral).1 (.inl (literal?_kind hliteral).2)
  · simp only [wp_ite, wp_bind, wp_discard, wp_pure, wp_bracketed, wp_advance]
    split
    · refine .take ?_ (.inl ?_) <;> grind
    · split
      · rename_i hopen
        refine hnested.wp fun inner mid hmid => wp_expect_of_test fun hclose => ?_
        exact .bracket (.inl hopen) hmid.past (.inl hclose)
      · trivial

theorem argument_takes : Takes (argument nested) := by
  intro ctx ts
  unfold argument
  simp only [wp_bind, wp_peek, wp_peekAt, wp_ite, wp_discard, wp_pure, wp_advance]
  split
  · rename_i hnamed
    -- The second token is seen first once the name is taken.
    rw [lookahead_succ] at hnamed
    have hname : Past ts (ts.dropWhile ctx.skips).tail :=
      (Beyond.take (by grind) (.inl (by grind))).past
    exact hnested.wp fun _ _ h =>
      hname.beyond ((Beyond.take (by grind) (.inl (by grind))).trans h.past)
  · exact hnested.wp fun _ _ => id

theorem suffix_takes (e : Expr) : MayTake (suffix nested e) := by
  intro ctx ts
  unfold suffix
  simp only [wp_bind, wp_peek, wp_ite, wp_discard, wp_pure, wp_bracketed, wp_advance]
  split
  · rename_i hopen
    refine wp_imp (listItems_takes (argument_takes hnested) hopen) ?_
    exact fun _ _ hrest => ⟨hrest.past, fun _ => hrest⟩
  · split
    · rename_i hopen
      refine hnested.wp fun inner mid hmid => wp_expect_of_test fun hclose => ?_
      have hrest := Beyond.bracket (.inr hopen) hmid.past (.inr hclose)
      exact ⟨hrest.past, fun _ => hrest⟩
    · exact ⟨.refl ts, by simp⟩

theorem suffixed_takes : Takes (suffixed nested) :=
  (primary_takes hnested).iterate (suffix_takes hnested)

omit hnested in
theorem sign_takes : MayTake sign := by
  intro ctx ts
  unfold sign
  simp only [wp_bind, wp_peek]
  split
  · exact ⟨.refl ts, by simp⟩
  · rename_i hop
    simp only [wp_bind, wp_discard, wp_advance, wp_pure]
    have htaken := Beyond.take (unaryOp?_kind hop).1 (.inl (unaryOp?_kind hop).2)
    exact ⟨htaken.past, fun _ => htaken⟩

theorem signed_takes : Takes (signed nested) := by
  intro ctx ts
  unfold signed
  simp only [wp_bind, wp_pure]
  refine wp_imp (sign_takes.collect ctx ts) (fun _ _ hsigns => ?_)
  exact (suffixed_takes hnested).wp fun _ _ h => hsigns.1.beyond h

omit hnested in
theorem operation_takes (level : List BinaryOp) {tighter : Parser Expr} (htighter : Takes tighter)
    (left : Expr) : MayTake (operation level tighter left) := by
  intro ctx ts
  unfold operation
  simp only [wp_bind, wp_peek]
  refine wp_joinLine_past fun line hline => ?_
  split
  · exact ⟨hline, by simp⟩
  · rename_i hop
    simp only [wp_bind, wp_discard, wp_advance, wp_pure]
    have htaken := Beyond.take (binaryOp?_kind hop).1 (.inl (binaryOp?_kind hop).2)
    refine wp_passLayout_past fun mid hmid => htighter.wp fun right rest hrest => ?_
    have hall := hline.beyond (htaken.trans (hmid.trans hrest.past))
    exact ⟨hall.past, fun _ => hall⟩

theorem operations_takes (levels : List (List BinaryOp)) : Takes (operations nested levels) := by
  induction levels with
  | nil => exact signed_takes hnested
  | cons level levels ih => exact ih.iterate (operation_takes level ih)

theorem ternary_takes : Takes (ternary nested) := by
  intro ctx ts
  unfold ternary
  simp only [wp_bind, wp_peek, wp_ite, wp_discard, wp_pure, wp_advance]
  refine (operations_takes hnested _).wp fun condition first hfirst => ?_
  refine wp_joinLine_past fun line hline => ?_
  split
  · rename_i hquestion
    have htaken : Past line (line.dropWhile ctx.skips).tail :=
      (Beyond.take (by grind) (.inl (by grind))).past
    refine wp_passLayout_past fun second hsecond => hnested.wp fun whenTrue third hthird => ?_
    refine wp_joinLine_past fun line' hline' => wp_expect_of_test fun hcolon => ?_
    have htaken' : Past line' (line'.dropWhile ctx.skips).tail :=
      (Beyond.take (by grind) (.inl (by grind))).past
    refine wp_passLayout_past fun fourth hfourth => hnested.wp fun whenFalse rest hrest => ?_
    exact hfirst.trans (hline.trans (htaken.trans (hsecond.trans (hthird.past.trans (hline'.trans
      (htaken'.trans (hfourth.trans hrest.past)))))))
  · exact hfirst.trans hline

end

theorem expression_takes (n : Nat) : Takes (expression n) := by
  induction n with
  | zero => exact fun _ _ => trivial
  | succ n ih => exact ternary_takes ih

/-! ## Parameters -/

theorem parameterWord_takes : MayTake parameterWord := by
  intro ctx ts
  unfold parameterWord
  simp only [wp_bind, wp_peek, wp_ite, wp_pure, wp_advance]
  split
  · have htaken : Beyond ctx ts (ts.dropWhile ctx.skips).tail := .take (by grind) (.inl (by grind))
    exact ⟨htaken.past, fun _ => htaken⟩
  · exact ⟨.refl ts, by simp⟩

theorem parameter_takes {nested : Parser Expr} (hnested : Takes nested) :
    Takes (parameter nested) := by
  intro ctx ts
  unfold parameter
  simp only [wp_bind]
  refine wp_imp (parameterWord_takes.collect ctx ts) ?_
  rintro words mid ⟨-, hwords⟩
  split
  · rename_i hfirst _
    have hmid := hwords (by rintro rfl; cases hfirst)
    simp only [wp_bind, wp_peek, wp_ite, wp_discard, wp_advance, wp_map, wp_pure]
    split
    · have htaken : Past mid (mid.dropWhile ctx.skips).tail :=
        (Beyond.take (by grind) (.inl (by grind))).past
      exact hnested.wp fun _ _ h => hmid.trans (htaken.trans h.past)
    · exact hmid
  · trivial

end PineScript.Parser
