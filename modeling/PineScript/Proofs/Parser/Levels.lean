import PineScript.Proofs.Parser.Faults
import PineScript.Proofs.Parser.Halting
import PineScript.Proofs.Parser.KeptScript
import PineScript.Proofs.Tree.Path

/-!
# Reading level by level

What is read where so many levels are left fits in them, and each statement of a body comes from one
attempt in which as many levels are left as in every other attempt of the body. Nothing is assumed
about the tokens.
-/

namespace PineScript.Parser

open Edge (Fits plain entered fits_plain)

variable {α β σ : Type}

/-! ## What loops yield -/

namespace Yields

theorem iterate {step : σ → Parser (Option σ)} {P : σ → Prop} {s : σ}
    (hstep : ∀ s, P s → Yields (step s) fun o => ∀ next ∈ o, P next) (h : P s) :
    Yields (iterate step s) P := by
  intro ctx ts
  refine wp_iterate (fun s _ => P s) (fun s ts hs => ?_) h
  refine wp_imp (hstep s hs ctx ts) (fun o rest ho => ?_)
  cases o with
  | none => exact hs
  | some next => exact ho next rfl

theorem collect {item : Parser (Option α)} {P : α → Prop}
    (hitem : Yields item fun o => ∀ a ∈ o, P a) :
    Yields (collect item) fun as => ∀ a ∈ as, P a := by
  intro ctx ts
  refine wp_collect (fun as _ => ∀ a ∈ as, P a) (fun as ts has => ?_) (List.forall_mem_nil _)
  refine wp_imp (hitem ctx ts) (fun o rest ho => ?_)
  exact List.forall_mem_append.2 ⟨has, fun a ha => ho a (Option.mem_toList.1 ha)⟩

end Yields

/-! ## Expressions -/

/-- All that is below an expression fits in so many levels. -/
def FitsBelow (R : Nat → Block → Prop) (n : Nat) (e : Expr) : Prop := ∀ c ∈ e.edges, Fits R n c

section

variable {R : Nat → Block → Prop} {n : Nat} {nested : Parser Expr}
  (hnested : Yields nested fun e => Fits R n (entered e))

section
include hnested

theorem primary_fits : Yields (primary nested) (FitsBelow R n) := by
  refine .after fun t => ?_
  split
  · exact .after fun _ => .pure (List.forall_mem_nil _)
  · refine .ite (.after fun _ => .pure (List.forall_mem_nil _)) (.ite ?_ (.fault _))
    refine .after fun _ ctx => ?_
    exact Yields.bind hnested (fun e he => .after fun _ => .pure he.unwrap) { ctx with bracketed := true }

theorem argument_fits : Yields (argument nested) fun a => Fits R n a.edge := by
  refine .after fun t => .after fun second => .ite ?_ ?_
  · refine .after fun _ => .after fun _ => .bind hnested fun value hvalue => .pure ?_
    exact (fits_plain rfl).2 (by simpa [Node.edges] using hvalue)
  · exact .bind hnested fun value hvalue => .pure hvalue

end

theorem listItem_yields {item : Parser α} {P : α → Prop} (hitem : Yields item P) :
    Yields (listItem item) fun o => ∀ a ∈ o, P a := by
  refine .after fun t => .ite (.pure (by simp)) (.bind hitem fun a ha => .after fun next => ?_)
  have hone : ∀ b ∈ some a, P b := by simpa using ha
  exact .ite (.after fun _ => .pure hone) (.ite (.pure hone) (.fault _))

theorem listItems_yields {item : Parser α} {P : α → Prop} (hitem : Yields item P) :
    Yields (listItems item) fun list => ∀ a ∈ list.1, P a := fun ctx =>
  Yields.bind (.collect (listItem_yields hitem)) (fun _ hitems => .after fun _ => .pure hitems)
    { ctx with bracketed := true }

section
include hnested

theorem suffix_fits {e : Expr} (he : FitsBelow R n e) :
    Yields (suffix nested e) fun o => ∀ next ∈ o, FitsBelow R n next := by
  refine .after fun t => .ite ?_ (.ite ?_ (.pure (by simp)))
  · refine .after fun _ => .bind (listItems_yields (argument_fits hnested)) fun list hlist => ?_
    refine .pure fun next hnext => ?_
    obtain rfl := Option.some.inj hnext
    refine List.forall_mem_cons.2 ⟨Edge.fits_expr.2 he, fun c hc => ?_⟩
    obtain ⟨a, ha, rfl⟩ := List.mem_map.1 hc
    exact hlist a ha
  · refine .after fun _ ctx => ?_
    refine Yields.bind hnested (fun subscript hsubscript => .after fun close => .pure fun next hnext => ?_)
      { ctx with bracketed := true }
    obtain rfl := Option.some.inj hnext
    simpa [FitsBelow, Expr.edges] using ⟨he, hsubscript⟩

theorem suffixed_fits : Yields (suffixed nested) (FitsBelow R n) :=
  .bind (primary_fits hnested) fun _ he => .iterate (fun _ => suffix_fits hnested) he

theorem signed_fits : Yields (signed nested) (FitsBelow R n) := by
  refine .after fun signs => .bind (suffixed_fits hnested) fun operand hoperand => .pure ?_
  induction signs with
  | nil => exact hoperand
  | cons s signs ih => simpa [FitsBelow, Expr.edges] using ih

end

theorem operation_fits (level : List BinaryOp) {tighter : Parser Expr} {left : Expr}
    (htighter : Yields tighter (FitsBelow R n)) (hleft : FitsBelow R n left) :
    Yields (operation level tighter left) fun o => ∀ next ∈ o, FitsBelow R n next := by
  refine .after fun _ => .after fun t => ?_
  split
  · exact .pure (by simp)
  · refine .after fun _ => .after fun _ => .bind htighter fun right hright => .pure fun next hnext => ?_
    obtain rfl := Option.some.inj hnext
    simpa [FitsBelow, Expr.edges] using ⟨hleft, hright⟩

section
include hnested

theorem operations_fits (levels : List (List BinaryOp)) :
    Yields (operations nested levels) (FitsBelow R n) := by
  induction levels with
  | nil => exact signed_fits hnested
  | cons level tighter ih =>
    exact .bind ih fun _ he => .iterate (fun _ => operation_fits level ih) he

theorem ternary_fits : Yields (ternary nested) (FitsBelow R n) := by
  refine .bind (operations_fits hnested _) fun condition hcondition => ?_
  refine .after fun _ => .after fun t => .ite ?_ (.pure hcondition)
  refine .after fun _ => .after fun _ => .bind hnested fun whenTrue htrue => ?_
  refine .after fun _ => .after fun _ => .after fun _ => .bind hnested fun whenFalse hfalse => ?_
  refine .pure ?_
  simpa [FitsBelow, Expr.edges] using ⟨hcondition, htrue, hfalse⟩

end

end

/-- An expression that is read where `n` levels are left fits in them. -/
theorem expression_fits (R : Nat → Block → Prop) (n : Nat) :
    Yields (expression n) fun e => Fits R n (entered e) := by
  induction n with
  | zero => exact fun _ _ => trivial
  | succ n ih =>
    intro ctx ts
    rw [expression]
    exact wp_imp (ternary_fits ih ctx ts) (fun _ _ => Edge.fits_entered.2)

/-! ## Simple statements -/

section

variable {R : Nat → Block → Prop} {n : Nat}

theorem fits_stmt {s : Stmt} (h : s.edge = plain (.stmt s)) :
    Fits R n s.edge ↔ ∀ c ∈ s.edges, Fits R n c :=
  h ▸ fits_plain rfl

theorem fits_of_simpleOf {s : Stmt} (h : SimpleOf (fun e => Fits R n (entered e)) s) :
    Fits R n s.edge := by
  cases s with
  | expression e => exact h
  | declaration | assignment => exact (fits_stmt rfl).2 (by simpa [SimpleOf, Stmt.edges] using h)
  | jump => exact (fits_stmt rfl).2 (by simpa [SimpleOf, Stmt.edges, Edge.ofExpr?] using h)
  | _ => cases h

variable {nested : Parser Expr} (hnested : Yields nested fun e => Fits R n (entered e))
include hnested

theorem parameter_fits :
    Yields (parameter nested) fun p => Fits R n (plain (.parameter p)) := by
  have hplain (p : Parameter) (h : ∀ c ∈ Edge.ofExpr? p.default, Fits R n c) :
      Fits R n (plain (.parameter p)) := (fits_plain rfl).2 (by simpa [Node.edges] using h)
  refine .after fun words => ?_
  split
  · refine .after fun t => .ite (.bind (P := fun o => ∀ e ∈ o, Fits R n (entered e)) ?_ ?_) ?_
    · refine .after fun _ => .bind hnested fun value hvalue => .pure ?_
      simpa using hvalue
    · intro default hdefault
      refine .pure (hplain _ fun c hc => ?_)
      obtain ⟨e, he, rfl⟩ := by simpa [Edge.ofExpr?] using hc
      exact hdefault e he
    · refine .bind (P := (· = none)) (.pure rfl) fun default hdefault => .pure (hplain _ ?_)
      simp [hdefault, Edge.ofExpr?]
  · exact .fault _

end

/-! ## Statements with a block -/

/-- Every value that a reader gives somewhere in `all` is as `P` says. -/
def Traces (finish : Position) (all : List Token) (p : Parser α) (P : α → Prop) : Prop :=
  ∀ ctx ts, ctx.finish = finish → ts <:+ all → wp p ctx ts (fun a _ => P a) (fun _ _ => True)

theorem Yields.traces {p : Parser α} {P : α → Prop} (h : Yields p P) (finish : Position)
    (all : List Token) : Traces finish all p P :=
  fun ctx ts _ _ => h ctx ts

namespace Traces

variable {finish : Position} {all : List Token} {p q : Parser α} {P : α → Prop} {Q : β → Prop}

theorem pure {a : α} (h : P a) : Traces finish all (pure a) P := fun _ _ _ _ => h

theorem bind {f : α → Parser β} (hp : Traces finish all p P) (honward : Onward p)
    (hf : ∀ a, P a → Traces finish all (f a) Q) : Traces finish all (p >>= f) Q := by
  intro ctx ts hfinish hts
  refine (wp_bind p f).2 ?_
  have hvalue := hp ctx ts hfinish hts
  have hrest := honward ctx ts
  unfold wp at hvalue ⊢
  split
  · rename_i a rest hrun
    rw [hrun] at hvalue hrest
    exact hf a hvalue ctx rest hfinish (hrest.trans hts)
  · trivial

/-- Whatever the first reader gives. -/
theorem after {f : α → Parser β} (honward : Onward p) (hf : ∀ a, Traces finish all (f a) Q) :
    Traces finish all (p >>= f) Q :=
  bind ((Yields.any p).traces finish all) honward fun a _ => hf a

/-- Nothing is read behind the last reader. -/
theorem last {f : α → β} (hp : Traces finish all p P) (hf : ∀ a, P a → Q (f a)) :
    Traces finish all (p >>= fun a => Pure.pure (f a)) Q := fun ctx ts hfinish hts =>
  (wp_bind _ _).2 (wp_imp (hp ctx ts hfinish hts) (fun a _ => hf a))

theorem ite {c : Prop} [Decidable c] (hp : Traces finish all p P) (hq : Traces finish all q P) :
    Traces finish all (if c then p else q) P := by
  split
  · exact hp
  · exact hq

end Traces

theorem Sturdy.onward {V : Variation} {p : Parser Expr} (h : Sturdy V p) : Onward p :=
  fun ctx ts => (h.steady ctx ts).suffix

theorem parameters_onward {V : Variation} {nested : Parser Expr} (h : Sturdy V nested) :
    Onward (listItems (parameter nested)) := fun _ ts =>
  (listItems_keeps (b := false) (parameter_takes h.takes) (parameter_steady h _) ts).suffix

section

variable {R : Nat → Block → Prop} {n : Nat} {finish : Position} {all : List Token}
  {nested : Parser Expr} {block : Int → Parser (Mended Block)}
  (hsturdy : Sturdy .still nested) (hnested : Yields nested fun e => Fits R n (entered e))
  (hblock : ∀ header, Traces finish all (block header) fun m => Fits R n (plain (.block m.value)))

include hsturdy hnested hblock

theorem whileLoop_fits (indent : Int) :
    Traces finish all (whileLoop nested block indent) fun m => Fits R n m.value.edge := by
  refine .after .advance fun keyword => ?_
  refine .bind (hnested.traces _ _) hsturdy.onward fun condition hcondition => ?_
  refine .last (hblock indent) fun body hbody => (fits_stmt rfl).2 ?_
  simpa [Stmt.edges] using ⟨hcondition, hbody⟩

theorem forLoop_fits (indent : Int) :
    Traces finish all (forLoop nested block indent) fun m => Fits R n m.value.edge := by
  have hexpr := hnested.traces finish all
  refine .after .advance fun keyword => .after (.expect _ _) fun name => .after .peek fun t => ?_
  refine .ite ?_ (.ite ?_ ((Yields.fault _).traces _ _))
  · refine .after (.discard .advance) fun _ => .bind hexpr hsturdy.onward fun first hfirst => ?_
    refine .after (.discard (.expect _ _)) fun _ => .bind hexpr hsturdy.onward fun last hlast => ?_
    refine .after .peek fun next => .ite ?_ ?_
    · have hstep : Yields (do discard advance; some <$> nested) fun o =>
          ∃ e, o = some e ∧ Fits R n (entered e) :=
        .after fun _ => .bind hnested fun e he => .pure ⟨e, rfl, he⟩
      refine .bind (hstep.traces _ _) ?_ ?_
      · exact Onward.bind (.discard .advance) fun _ => hsturdy.onward.bind fun _ => .pure _
      · rintro _ ⟨step, rfl, hstep⟩
        refine .last (hblock indent) fun body hbody => (fits_stmt rfl).2 ?_
        simpa [Stmt.edges, Edge.ofExpr?] using ⟨hfirst, hlast, hstep, hbody⟩
    · refine .last (hblock indent) fun body hbody => (fits_stmt rfl).2 ?_
      simpa [Stmt.edges, Edge.ofExpr?] using ⟨hfirst, hlast, hbody⟩
  · refine .after (.discard .advance) fun _ => .bind hexpr hsturdy.onward fun collection hcollection => ?_
    refine .last (hblock indent) fun body hbody => (fits_stmt rfl).2 ?_
    simpa [Stmt.edges] using ⟨hcollection, hbody⟩

theorem function_fits (indent : Int) :
    Traces finish all (function nested block indent) fun m => Fits R n m.value.edge := by
  refine .after .advance fun name => .after (.discard .advance) fun _ => ?_
  refine .bind ((listItems_yields (parameter_fits hnested)).traces _ _)
    (parameters_onward hsturdy) fun list hparameters => ?_
  refine .after (.discard (.expect _ _)) fun _ => .after .atLineEnd fun atEnd => .ite ?_ ?_
  · refine .last (hblock indent) fun body hbody => (fits_stmt rfl).2 ?_
    simpa [Stmt.edges, or_imp, forall_and] using ⟨hparameters, hbody⟩
  · refine .bind (hnested.traces _ _) hsturdy.onward fun value hvalue => ?_
    refine .after .endOfLine fun _ => .pure ((fits_stmt rfl).2 ?_)
    simpa [Stmt.edges, or_imp, forall_and] using ⟨hparameters, hvalue⟩

variable (honward : ∀ header, Onward (block header))

include honward

theorem branch_fits {rest : Parser (Mended Otherwise)} (indent : Int)
    (hrest : Traces finish all rest fun m => ∀ o ∈ m.value.nodes, Fits R n (plain o))
    (keyword : Token) :
    Traces finish all (branch nested block indent rest keyword) fun m =>
      Fits R n (plain (.stmt (.conditional m.value))) := by
  refine .bind (hnested.traces _ _) hsturdy.onward fun condition hcondition => ?_
  refine .bind (hblock indent) (honward indent) fun body hbody => ?_
  refine .last hrest fun otherwise hotherwise => (fits_plain rfl).2 ?_
  simpa [Node.edges, Stmt.edges] using ⟨hcondition, hbody, hotherwise⟩

theorem otherwiseFor_fits (indent : Int) (bound : List Token) :
    Traces finish all (otherwiseFor nested block indent bound) fun m =>
      ∀ o ∈ m.value.nodes, Fits R n (plain o) := by
  have hnone : ∀ o ∈ Otherwise.nothing.nodes, Fits R n (plain o) := List.forall_mem_nil _
  induction bound with
  | nil => exact .pure hnone
  | cons _ bound ih =>
    refine .after (.takeElse indent) fun taken => .ite (.pure hnone) (.after .peek fun t => .ite ?_ ?_)
    · refine .after .advance fun keyword => ?_
      exact .last (branch_fits hsturdy hnested hblock honward indent ih keyword)
        fun b hb => List.forall_mem_singleton.2 hb
    · exact .last (hblock indent) fun b hb => List.forall_mem_singleton.2 hb

theorem conditional_fits (indent : Int) :
    Traces finish all (conditional nested block indent) fun m => Fits R n m.value.edge := by
  have hrest : Traces finish all (otherwise nested block indent) fun m =>
      ∀ o ∈ m.value.nodes, Fits R n (plain o) := by
    intro ctx ts
    rw [wp_otherwise]
    exact otherwiseFor_fits hsturdy hnested hblock honward indent (ctx.endToken :: ts) ctx ts
  refine .after .advance fun keyword => ?_
  exact .last (branch_fits hsturdy hnested hblock honward indent hrest keyword) fun b hb => hb

/-- A statement fits in the levels that are left for it. -/
theorem statement_fits (indent : Int) :
    Traces finish all (statement nested block indent) fun m => Fits R n m.value.edge := by
  refine .after .peek fun t => .ite (conditional_fits hsturdy hnested hblock honward indent) ?_
  refine .ite (forLoop_fits hsturdy hnested hblock indent) ?_
  refine .ite (whileLoop_fits hsturdy hnested hblock indent) ?_
  refine .ite (fun _ _ _ _ => trivial) (.after .startsFunction fun starts => ?_)
  refine .ite (function_fits hsturdy hnested hblock indent) ?_
  exact .last ((simple_yields hnested indent).traces _ _) fun s hs => fits_of_simpleOf hs

end

/-! ## Suites, blocks and scripts -/

/-- A comment comes from a token that opens a line, any other statement from an attempt to read
it. -/
def Origin (read : Int → Parser (Mended Stmt)) (finish : Position) (all : List Token) (s : Stmt) :
    Prop :=
  (∃ t ∈ all, t.kind = .comment ∧ t.isLineLeading = true ∧ s = .comment t.range t.text) ∨
    ∃ indent first more, first :: more <:+ all ∧
      s = (attempt read indent ⟨finish, false, none⟩ first more).1.value

/-- A block with a statement, the statements of which were read where `n` levels are left. -/
structure ReadWithin (finish : Position) (all : List Token) (n : Nat) (b : Block) : Prop where
  ne_nil : b.statements ≠ []
  range_eq : b.range = (blockOf finish b.statements).range
  origin : ∀ s ∈ b.statements, Origin (statement (expression n) (block n)) finish all s

variable {R : Nat → Block → Prop} {n : Nat} {finish : Position} {all ts : List Token}
  {read : Int → Parser (Mended Stmt)}

/-- A comment or a malformed statement has no levels of its own. -/
theorem fits_of_edges_nil {s : Stmt} (hedge : s.edge = plain (.stmt s)) (h : s.edges = []) :
    Fits R n s.edge :=
  (fits_stmt hedge).2 (by simp [h])

theorem ownComments_origin (hts : ts ⊆ all) :
    ∀ s ∈ ownComments ts, Origin read finish all s ∧ Fits R n s.edge := by
  intro s hs
  obtain ⟨t, ht, hsome⟩ := List.mem_filterMap.1 hs
  split at hsome
  · rename_i hown
    obtain rfl := Option.some.inj hsome
    rw [Bool.and_eq_true, beq_iff_eq] at hown
    exact ⟨.inl ⟨t, hts ht, hown.1, hown.2, rfl⟩, fits_of_edges_nil rfl rfl⟩
  · cases hsome

theorem suite_origin
    (hread : ∀ indent, Traces finish all (read indent) fun m => Fits R n m.value.edge)
    (honward : ∀ indent, Onward (suiteItem read indent)) (indent : Int) :
    Traces finish all (suite read indent) fun m =>
      ∀ s ∈ m.value, Origin read finish all s ∧ Fits R n s.edge := by
  intro ctx ts hfinish hts
  refine (wp_bind _ _).2 ?_
  refine wp_imp (wp_collect (E := fun _ _ => True) (fun items rest => rest <:+ all ∧
    ∀ s ∈ items.flatMap Mended.value, Origin read finish all s ∧ Fits R n s.edge) ?_
    ⟨hts, List.forall_mem_nil _⟩) (fun _ _ h => h.2)
  intro items ts ⟨hts, hitems⟩
  have hrest := honward indent ctx ts
  refine wp_suiteItem ⟨hts, by simpa using hitems⟩ fun first more hdrop hindent => ?_
  rw [suiteItem_of_first hdrop hindent] at hrest
  have hfirst : first :: more <:+ all := hdrop ▸ (List.dropWhile_suffix _).trans hts
  refine ⟨hrest.trans hts, ?_⟩
  simp only [List.flatMap_append, Option.toList_some, List.flatMap_singleton]
  refine List.forall_mem_append.2 ⟨hitems, List.forall_mem_append.2 ⟨?_, ?_⟩⟩
  · exact ownComments_origin fun t ht => hts.subset ((List.takeWhile_prefix _).subset ht)
  · refine List.forall_mem_singleton.2 ⟨.inr ⟨indent, first, more, hfirst, ?_⟩, ?_⟩
    · rw [← hfinish]
      rfl
    · refine attempt_cases (P := fun m _ => Fits R n m.value.edge) (fits_of_edges_nil rfl rfl) ?_
      exact wp_mono (hread indent _ _ hfinish hfirst) (fun _ _ => id)
        fun _ _ _ => fits_of_edges_nil rfl rfl

theorem suiteItem_onward (n : Nat) (indent : Int) :
    Onward (suiteItem (statement (expression n) (block n)) indent) :=
  fun _ => suiteItem_suffix (@statement_keeps .still n indent (.inl rfl))

theorem suite_onward (n : Nat) (indent : Int) :
    Onward (suite (statement (expression n) (block n)) indent) :=
  fun _ ts => (suite_keeps (b := false) (@statement_keeps .still n indent (.inl rfl)) (.inl rfl) ts).suffix

theorem block_onward (n : Nat) (header : Int) : Onward (block n header) :=
  (block_keeps .still n).suffix header

/-- A block that is read where `n` levels are left fits in them. -/
theorem block_fits (finish : Position) (all : List Token) (n : Nat) (header : Int) :
    Traces finish all (block n header) fun m =>
      Fits (ReadWithin finish all) n (plain (.block m.value)) := by
  induction n generalizing header with
  | zero => exact fun ctx ts _ _ => wp_indented (fun _ => trivial) fun _ _ _ _ => trivial
  | succ n ih =>
    intro ctx ts hfinish hts
    refine wp_indented (fun _ => trivial) fun first more hdrop hdeeper => (wp_bind _ _).2 ?_
    have hindent := Int.le_of_eq (indentOf_of_lt hdeeper).symm
    have hstatement := statement_fits (expression_sturdy .still n) (expression_fits _ n) ih
      (block_onward n)
    refine wp_mono (wp_and (suite_origin hstatement (suiteItem_onward n) _ ctx ts hfinish hts)
      (suite_ne_nil hdrop hindent)) ?_ (fun _ _ _ => trivial)
    rintro body rest ⟨hbody, hne⟩
    refine Edge.fits_block.2 ⟨⟨?_, ?_, ?_⟩, ?_⟩ <;> simp only [blockOf_statements]
    · exact hne
    · rw [hfinish]
    · exact fun s hs => (hbody s hs).1
    · exact fun s hs => (hbody s hs).2

/-- Each statement of a script comes from one attempt below no block, and fits in the levels that
there are. -/
theorem parse_fits (ts : List Token) :
    ∀ s ∈ (Program.parse ts).1.body, Origin topStatement (finishOf ts) ts s ∧
      Fits (ReadWithin (finishOf ts) ts) nestingLimit s.edge := by
  have hstatement := statement_fits (expression_sturdy .still nestingLimit)
    (expression_fits _ nestingLimit) (block_fits (finishOf ts) ts nestingLimit)
    (block_onward nestingLimit)
  obtain ⟨items, rest, hitems⟩ := exists_items topStatement 0 ⟨finishOf ts, false, none⟩ ts
  have hsuite := suite_of_items hitems
  have hbody := suite_origin hstatement (suiteItem_onward nestingLimit) 0
    ⟨finishOf ts, false, none⟩ ts rfl (List.suffix_refl ts)
  rw [wp_of_ok hsuite] at hbody
  have hrest : rest <:+ ts := by
    have hsuffix := suite_onward nestingLimit 0 ⟨finishOf ts, false, none⟩ ts
    rwa [hsuite] at hsuffix
  rw [parse_of_script (script_of_suite hsuite)]
  refine List.forall_mem_append.2 ⟨hbody, ?_⟩
  split
  · exact ownComments_origin hrest.subset
  · exact List.forall_mem_nil _

end PineScript.Parser
