import PineScript.Proofs.Parser.Keeps

/-!
# Expressions of an input that varies

Every reader of expressions keeps what it does: it notices neither additional layout nor further
lines, nor how the lines are laid out in front of which it stops.
-/

namespace PineScript.Parser

variable {V : Variation} {ctx : Context}

/-- A reader of expressions that takes something and keeps what it does. -/
structure Sturdy (V : Variation) (p : Parser Expr) : Prop where
  takes : Takes p
  steady : ∀ ctx ts, Steady V p ctx ts

section

variable {nested : Parser Expr} (hnested : Sturdy V nested)
include hnested

theorem primary_steady (ctx : Context) (ts : List Token) : Steady V (primary nested) ctx ts := by
  unfold primary
  simp only [discard_bind]
  refine .peek ?_ ?_
  · intro t t' ht ht'
    simp [literal?_of_lineEnd, Token.isIdentifier_of_lineEnd, Token.isPunctuation_of_lineEnd, ht,
      ht']
  · split
    · exact .advance (literal?_kind ‹_›).1 (.pure rfl)
    · refine .ite (fun hname => .advance (by grind) (.pure rfl)) fun _ =>
        .ite (fun hopen => .advance (by grind) (.bracketed ?_)) fun _ => .unexpected _
      exact .upTo (fun _ ht => Token.isPunctuation_of_lineEnd ht _)
        (hnested.steady { ctx with bracketed := true } _) fun _ _ _ => .pure rfl

/-- Inside a bracket, both the name and the sign of an argument stand before code that is left. -/
theorem argument_steady (ctx : Context) (ts : List Token) :
    Steady V (argument nested) ctx ts := by
  have hseen : Counts V .plain ctx.bracketed (argument nested ctx ts) →
      V.ending.heeds = true ∨ ctx.bracketed = false ∨ 1 < (ctx.seen ts).length := by
    rintro ⟨⟨-, hkept⟩, hreads⟩
    refine hreads.elim .inl fun hreads => hkept.imp_right (.imp_right fun ⟨t, ht, hcode⟩ => ?_)
    cases hread : argument nested ctx ts with
    | fault e rest =>
      rw [hread] at hreads
      cases hreads
    | ok a rest =>
      rw [hread] at ht
      obtain ⟨front, rfl, -, u, hu, hskips⟩ :=
        (wp_of_ok hread).1 (argument_takes hnested.takes ctx ts)
      have hfront := List.length_pos_of_mem (Context.mem_seen hu hskips)
      have hrest := List.length_pos_of_mem
        (@Context.mem_seen ctx rest t ht (Context.skips_of_code hcode))
      rw [ctx.seen_append, List.length_append]
      omega
  unfold argument at hseen ⊢
  simp only [discard_bind] at hseen ⊢
  refine .peek ?_ (.peekAt ?_ ?_ hseen (.ite (fun hnamed => ?_) fun _ => ?_))
  · intro t t' ht ht'
    simp [Token.isIdentifier_of_lineEnd, ht, ht']
  · intro t t' ht ht'
    simp [Token.isOperator_of_lineEnd, ht, ht']
  · intro m hm hend t t'
    obtain rfl : m = 0 := by omega
    simp [Token.isIdentifier_of_lineEnd hend]
  · rw [lookahead_succ] at hnamed
    refine .advance (by grind) (.advance (by grind) ?_)
    exact .after (hnested.steady _ _) fun _ _ _ => .pure rfl
  · exact .after (hnested.steady _ _) fun _ _ _ => .pure rfl

end

/-! ## Lists -/

section

variable {α : Type} {item : Parser α}

theorem listItem_steady (hitem : ∀ ts, Steady V item ctx ts) (ts : List Token) :
    Steady V (listItem item) ctx ts := by
  unfold listItem
  simp only [discard_bind]
  refine .peek ?_ (.ite (fun _ => .pure rfl) fun _ => ?_)
  · intro t t' ht ht'
    simp [Token.isPunctuation_of_lineEnd, ht, ht']
  · refine .after (hitem ts) fun a mid _ => .peek ?_ ?_
    · intro t t' ht ht'
      simp [Token.isPunctuation_of_lineEnd, ht, ht']
    · refine .ite (fun hcomma => .advance (by grind) (.pure rfl)) fun _ => ?_
      exact .ite (fun _ => .pure rfl) fun _ => .unexpected _

/-- A list is read up to the parenthesis that closes it, whatever is left. -/
theorem listItems_keeps {b : Bool} (htakes : Takes item)
    (hitem : ∀ ts, Steady V item { ctx with bracketed := true } ts) (ts : List Token) :
    Keeps V .plain b (listItems item) (listItems item) ctx ts := by
  -- The parenthesis that closes the list is still left where its items end.
  have hclose : ∀ items mid, collect (listItem item) { ctx with bracketed := true } ts =
      .ok items mid → (Context.lookahead { ctx with bracketed := true } 0 mid).isLineEnd = false := by
    intro items mid hread
    have := ((wp_of_ok hread).1 (collect_listItem_takes htakes _ ts)).2
    grind
  have hlast : ∀ items mid, collect (listItem item) { ctx with bracketed := true } ts =
      .ok items mid → Keeps V .plain b (advance >>= fun t => pure (items, t))
        (advance >>= fun t => pure (items, t)) { ctx with bracketed := true } mid :=
    fun items mid hread => .advance (hclose items mid hread) (.pure rfl)
  refine .bracketed (.bind (.collect_plain (listItem_steady hitem) ?_) ?_ ?_)
  · intro ctx ts a rest h
    exact (((wp_of_ok h).1 (listItem_takes htakes ctx ts)).2 a rfl).length_lt
  · intro items mid hread hall
    have hlen := (hall.kept.of_suffix (hlast items mid hread).suffix).1
    exact ⟨kept_of_lookahead (hclose items mid hread) hlen, .inr trivial⟩
  · intro items _ mid hread hitems
    exact hitems ▸ hlast items mid hread

end

/-! ## Calls, signs and operators -/

section

variable {nested : Parser Expr} (hnested : Sturdy V nested)
include hnested

theorem suffix_steady (e : Expr) (ctx : Context) (ts : List Token) :
    Steady V (suffix nested e) ctx ts := by
  unfold suffix
  simp only [discard_bind]
  refine .peek ?_ (.ite (fun hopen => .advance (by grind) ?_) fun _ =>
    .ite (fun hopen => .advance (by grind) (.bracketed ?_)) fun _ => .pure rfl)
  · intro t t' ht ht'
    simp [Token.isPunctuation_of_lineEnd, ht, ht']
  · exact .after (listItems_keeps (argument_takes hnested.takes) (argument_steady hnested _) _)
      fun _ _ _ => .pure rfl
  · exact .upTo (fun _ ht => Token.isPunctuation_of_lineEnd ht _)
      (hnested.steady { ctx with bracketed := true } _) fun _ _ _ => .pure rfl

theorem suffixed_steady (ctx : Context) (ts : List Token) : Steady V (suffixed nested) ctx ts :=
  .after (primary_steady hnested ctx ts) fun e _ _ =>
    .iterate (fun e => suffix_steady hnested e ctx)
      (fun e _ _ _ _ => (suffix_takes hnested.takes e).short) e

omit hnested in
theorem sign_steady (ctx : Context) (ts : List Token) : Steady V sign ctx ts := by
  unfold sign
  simp only [discard_bind]
  refine .peek ?_ ?_
  · intro t t' ht ht'
    simp [unaryOp?_of_lineEnd, ht, ht']
  · split
    · exact .pure rfl
    · exact .advance (unaryOp?_kind ‹_›).1 (.pure rfl)

theorem signed_steady (ctx : Context) (ts : List Token) : Steady V (signed nested) ctx ts :=
  .after (.collect_plain (sign_steady ctx) fun _ _ _ _ => sign_takes.short) fun _ _ _ =>
    .after (suffixed_steady hnested _ _) fun _ _ _ => .pure rfl

omit hnested in
theorem operation_steady (level : List BinaryOp) {tighter : Parser Expr} (htakes : Takes tighter)
    (hsteady : ∀ ts, Steady V tighter ctx ts) (left : Expr) (ts : List Token) :
    Steady V (operation level tighter left) ctx ts := by
  unfold operation
  simp only [discard_bind]
  refine .after (.joinLine _) fun _ line _ => .peek ?_ ?_
  · intro t t' ht ht'
    simp [binaryOp?_of_lineEnd, ht, ht']
  · split
    · exact .pure rfl
    · refine .advance (binaryOp?_kind ‹_›).1 (.passLayout htakes.hungry ?_)
      exact .after (hsteady _) fun _ _ _ => .pure rfl

theorem operations_steady (levels : List (List BinaryOp)) (ctx : Context) (ts : List Token) :
    Steady V (operations nested levels) ctx ts := by
  induction levels generalizing ts with
  | nil => exact signed_steady hnested ctx ts
  | cons level levels ih =>
    -- Each round of the loop reads an operand of the tighter levels, for which this is known.
    have htakes := operations_takes hnested.takes levels
    exact .after (ih ts) fun e _ _ => .iterate (operation_steady level htakes ih)
      (fun e _ _ _ _ => (operation_takes level htakes e).short) e

theorem ternary_steady (ctx : Context) (ts : List Token) : Steady V (ternary nested) ctx ts := by
  unfold ternary
  simp only [discard_bind]
  refine .after (operations_steady hnested _ ctx ts) fun condition _ _ => ?_
  refine .after (.joinLine _) fun _ _ _ => .peek ?_ ?_
  · intro t t' ht ht'
    simp [Token.isOperator_of_lineEnd, ht, ht']
  · refine .ite (fun hquestion => .advance (by grind) (.passLayout hnested.takes.hungry ?_))
      fun _ => .pure rfl
    refine .after (hnested.steady _ _) fun whenTrue _ _ => .after (.joinLine _) fun _ _ _ => ?_
    refine .expect (fun _ ht => Token.isOperator_of_lineEnd ht _) fun _ => ?_
    refine .passLayout hnested.takes.hungry ?_
    exact .after (hnested.steady _ _) fun _ _ _ => .pure rfl

end

theorem expression_sturdy (V : Variation) (n : Nat) : Sturdy V (expression n) := by
  induction n with
  | zero => exact ⟨expression_takes 0, fun _ _ => .failHere _⟩
  | succ n ih => exact ⟨expression_takes (n + 1), ternary_steady ih⟩

end PineScript.Parser
