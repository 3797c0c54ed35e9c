import PineScript.Parser.Expr
import PineScript.Proofs.Parser.Run
import PineScript.Proofs.Tree.Walk

/-!
# What is drawn from tokens

Readers make up no positions: a node begins where some token of code begins, and a fault has the
range of some token. Expressions are read here; the tokens in question are those that a given
predicate holds of.
-/

namespace PineScript

/-- A token of code that `T` holds of begins at the position. -/
def Token.CodeAt (T : Token → Prop) (p : Position) : Prop :=
  ∃ t, T t ∧ t.isLayout = false ∧ t.range.start = p

/-- The fault has the range of a token that `T` holds of. -/
def Fault.AtToken (T : Token → Prop) (fault : Fault) : Prop := ∃ t, T t ∧ fault.range = t.range

namespace Node

/-- Scripts and blocks begin with their statements, which may be comments. -/
def isCode : Node → Bool
  | program _ | block _ | stmt (.comment ..) => false
  | _ => true

/-- The nodes and all below them that are code begin with a token of code. -/
def Headed (T : Token → Prop) (ns : List Node) : Prop :=
  ∀ n ∈ walkFrom ns, n.isCode = true → Token.CodeAt T n.range.start

variable {T : Token → Prop} {n : Node} {ms ns : List Node}

@[simp] theorem headed_nil : Headed T [] := by
  simp [Headed]

@[simp] theorem headed_cons :
    Headed T (n :: ns) ↔
      (n.isCode = true → Token.CodeAt T n.range.start) ∧ Headed T n.children ∧ Headed T ns := by
  simp only [Headed, walkFrom_cons, List.mem_cons, List.mem_append, or_imp, forall_and, forall_eq]

@[simp] theorem headed_append : Headed T (ms ++ ns) ↔ Headed T ms ∧ Headed T ns := by
  simp only [Headed, walkFrom_append, List.mem_append, or_imp, forall_and]

theorem headed_map {α : Type} {f : α → Node} {as : List α} :
    Headed T (as.map f) ↔ ∀ a ∈ as, Headed T [f a] := by
  induction as with
  | nil => simp
  | cons a as ih =>
    rw [List.map_cons, ← List.singleton_append, headed_append, ih, List.forall_mem_cons]

theorem Headed.node (h : Headed T n.children) (hstart : Token.CodeAt T n.range.start) :
    Headed T [n] :=
  headed_cons.2 ⟨fun _ => hstart, h, headed_nil⟩

theorem Headed.start {e : Expr} (h : Headed T [.expr e]) : Token.CodeAt T e.range.start :=
  (headed_cons.1 h).1 rfl

end Node

namespace Parser

open Node (Headed)

/-- From tokens that `T` holds of, the next of which is as `P` says, what is read is as `R` says,
and a fault lies at one of the tokens. -/
def Draws {α : Type} (T P : Token → Prop) (p : Parser α) (R : α → Prop) : Prop :=
  ∀ ⦃ctx ts⦄, T ctx.endToken → (∀ t ∈ ts, T t) → P (ctx.lookahead 0 ts) →
    wp p ctx ts (fun a rest => (∀ t ∈ rest, T t) ∧ R a)
      (fun fault rest => (∀ t ∈ rest, T t) ∧ fault.AtToken T)

variable {α β σ : Type} {T P P' : Token → Prop} {p : Parser α} {Q R : α → Prop}

theorem lookahead_of_forall {ctx : Context} {ts : List Token} (n : Nat) (hend : T ctx.endToken)
    (hts : ∀ t ∈ ts, T t) : T (ctx.lookahead n ts) := by
  induction ts generalizing n with
  | nil => rwa [Context.lookahead_nil]
  | cons t ts ih =>
    have hmore := fun n => ih n (List.forall_mem_cons.1 hts).2
    cases n <;> rw [Context.lookahead] <;> split
    · exact hmore 0
    · exact (List.forall_mem_cons.1 hts).1
    · exact hmore _
    · exact hmore _

theorem forall_mem_suffix {ts rest : List Token} (h : rest <:+ ts) (hts : ∀ t ∈ ts, T t) :
    ∀ t ∈ rest, T t :=
  fun t ht => hts t (h.mem ht)

/-! ## Rules -/

namespace Draws

theorem mono (h : Draws T P p Q) (hR : ∀ a, Q a → R a) : Draws T P p R :=
  fun _ _ hend hts hP => wp_imp (h hend hts hP) (fun a _ ha => ⟨ha.1, hR a ha.2⟩)

theorem of_imp (h : Draws T P' p R) (hP : ∀ t, P t → P' t) : Draws T P p R :=
  fun _ _ hend hts ht => h hend hts (hP _ ht)

theorem of_any (h : Draws T (fun _ => True) p R) : Draws T P p R := h.of_imp fun _ _ => trivial

theorem pure {a : α} (h : R a) : Draws T P (Pure.pure a) R :=
  fun _ _ _ hts _ => ⟨hts, h⟩

theorem bind {f : α → Parser β} {S : β → Prop} (hp : Draws T P p Q)
    (hf : ∀ a, Q a → Draws T (fun _ => True) (f a) S) : Draws T P (p >>= f) S := by
  intro ctx ts hend hts hP
  rw [wp_bind]
  exact wp_imp (hp hend hts hP) (fun a rest ha => hf a ha.2 hend ha.1 trivial)

theorem map {f : α → β} {S : β → Prop} (hp : Draws T P p Q) (hf : ∀ a, Q a → S (f a)) :
    Draws T P (f <$> p) S :=
  hp.bind fun a ha => .pure (hf a ha)

theorem discard (hp : Draws T P p Q) : Draws T P (discard p : Parser PUnit) fun _ => True :=
  hp.bind fun _ _ => .pure trivial

/-- What was seen is still what comes next. -/
theorem peek {f : Token → Parser β} {S : β → Prop}
    (hf : ∀ t, T t → P t → Draws T (· = t) (f t) S) : Draws T P (Parser.peek >>= f) S := by
  intro ctx ts hend hts hP
  rw [wp_bind, wp_peek]
  exact hf _ (lookahead_of_forall 0 hend hts) hP hend hts rfl

theorem peekAt (n : Nat) {f : Token → Parser β} {S : β → Prop} (hf : ∀ t, Draws T P (f t) S) :
    Draws T P (Parser.peekAt n >>= f) S := by
  intro ctx ts hend hts hP
  rw [wp_bind, wp_peekAt]
  exact hf _ hend hts hP

theorem atLineEnd {f : Bool → Parser β} {S : β → Prop} (hf : ∀ b, Draws T P (f b) S) :
    Draws T P (Parser.atLineEnd >>= f) S := by
  intro ctx ts hend hts hP
  exact (wp_bind _ _).2 (hf _ hend hts hP)

theorem advance : Draws T P Parser.advance fun t => T t ∧ P t := by
  intro ctx ts hend hts hP
  rw [wp_advance]
  have hrest : (ts.dropWhile ctx.skips).tail <:+ ts :=
    (List.tail_suffix _).trans (List.dropWhile_suffix _)
  exact ⟨forall_mem_suffix hrest hts, lookahead_of_forall 0 hend hts, hP⟩

theorem passLayout : Draws T P Parser.passLayout fun _ => True :=
  fun _ _ _ hts _ => ⟨forall_mem_suffix (List.dropWhile_suffix _) hts, trivial⟩

theorem joinLine (spellings : List String) : Draws T P (Parser.joinLine spellings) fun _ => True :=
  fun _ _ _ hts _ => wp_joinLine spellings ⟨hts, trivial⟩
    ⟨forall_mem_suffix (List.dropWhile_suffix _) hts, trivial⟩

theorem bracketed (hp : Draws T (fun _ => True) p R) : Draws T P (Parser.bracketed p) R :=
  fun ctx _ hend hts _ => @hp { ctx with bracketed := true } _ hend hts trivial

theorem ite {c : Prop} [Decidable c] {q : Parser α} (hp : c → Draws T P p R)
    (hq : ¬ c → Draws T P q R) : Draws T P (if c then p else q) R := by
  split
  · exact hp ‹c›
  · exact hq ‹¬ c›

theorem fail {cause : Fault.Cause} {t : Token} (ht : T t) :
    Draws T P (Parser.fail cause t.range : Parser α) R :=
  fun _ _ _ hts _ => ⟨hts, t, ht, rfl⟩

theorem failHere {cause : Fault.Cause} : Draws T P (Parser.failHere cause : Parser α) R :=
  .peek fun _ ht _ => .fail ht

theorem unexpected {wanted : Expected} : Draws T P (Parser.unexpected wanted : Parser α) R :=
  .peek fun _ ht _ => .fail ht

theorem expect {test : Token → Bool} {wanted : Expected} :
    Draws T P (Parser.expect test wanted) fun t => T t ∧ P t ∧ test t = true := by
  refine .peek fun t ht hP => .ite (fun htest => ?_) fun _ => .unexpected
  refine Draws.advance.mono fun u hu => ?_
  rw [hu.2]
  exact ⟨ht, hP, htest⟩

theorem iterate {step : σ → Parser (Option σ)} {R : σ → Prop}
    (hstep : ∀ s, R s → Draws T (fun _ => True) (step s) fun o => ∀ s' ∈ o, R s') {s : σ}
    (hs : R s) : Draws T P (Parser.iterate step s) R := by
  intro ctx ts hend hts _
  refine wp_iterate (fun s rest => (∀ t ∈ rest, T t) ∧ R s) (fun s rest hinv => ?_) ⟨hts, hs⟩
  refine wp_imp (hstep s hinv.2 hend hinv.1 trivial) (fun o rest' ho => ⟨ho.1, ?_⟩)
  cases o with
  | none => exact hinv.2
  | some s' => exact ho.2 s' rfl

theorem collect {item : Parser (Option α)}
    (hitem : Draws T (fun _ => True) item fun o => ∀ a ∈ o, R a) :
    Draws T P (Parser.collect item) fun as => ∀ a ∈ as, R a := by
  intro ctx ts hend hts _
  refine wp_collect (fun as rest => (∀ t ∈ rest, T t) ∧ ∀ a ∈ as, R a) (fun as rest hinv => ?_)
    ⟨hts, List.forall_mem_nil _⟩
  refine wp_imp (hitem hend hinv.1 trivial) (fun o rest' ho => ⟨ho.1, ?_⟩)
  refine List.forall_mem_append.2 ⟨hinv.2, fun a ha => ?_⟩
  exact ho.2 a (Option.mem_toList.1 ha)

end Draws

/-! ## Expressions -/

theorem isLayout_of_literal {t : Token} {value : Literal} (h : literal? t = some value) :
    t.isLayout = false := by
  unfold literal? at h
  grind

theorem isLayout_of_unaryOp {t : Token} {op : UnaryOp} (h : unaryOp? t = some op) :
    t.isLayout = false := by
  unfold unaryOp? at h
  grind

theorem headed_nameOf {t : Token} (ht : T t) (hcode : t.isLayout = false) :
    Headed T [(nameOf t).node] :=
  .node Node.headed_nil ⟨t, ht, hcode, rfl⟩

section

variable {nested : Parser Expr}
  (hnested : Draws T (fun _ => True) nested fun e => Headed T [.expr e])
include hnested

theorem primary_draws : Draws T P (primary nested) fun e => Headed T [.expr e] := by
  refine .peek fun t ht _ => ?_
  split
  · rename_i hliteral
    refine .bind (.discard .advance) fun _ _ => .pure ?_
    exact .node Node.headed_nil ⟨t, ht, isLayout_of_literal hliteral, rfl⟩
  · refine .ite (fun hname => ?_) fun _ => .ite (fun _ => ?_) fun _ => .unexpected
    · refine .bind (.discard .advance) fun _ _ => .pure ?_
      exact headed_nameOf ht (Token.isLayout_of_identifier hname)
    -- The parenthesis belongs to no node: what it encloses begins with a later token.
    · refine .bind (.discard .advance) fun _ _ => .bracketed (hnested.bind fun inner hinner => ?_)
      exact .bind (.discard .expect) fun _ _ => .pure hinner

theorem argument_draws : Draws T P (argument nested) fun a => Headed T [a.node] := by
  refine .peek fun t ht _ => .peekAt 1 fun u => .ite (fun hnamed => ?_) fun _ => ?_
  · have hcode := Token.isLayout_of_identifier (Bool.and_eq_true_iff.1 hnamed).1
    refine .bind (.discard .advance) fun _ _ => .bind (.discard .advance) fun _ _ => ?_
    refine hnested.bind fun value hvalue => .pure (.node ?_ ⟨t, ht, hcode, rfl⟩)
    exact Node.headed_append.2 ⟨headed_nameOf ht hcode, hvalue⟩
  · exact hnested.of_any.bind fun value hvalue => .pure hvalue

end

theorem listItems_draws {item : Parser α} (hitem : Draws T (fun _ => True) item R) :
    Draws T P (listItems item) fun x => ∀ a ∈ x.1, R a := by
  have hnext : Draws T (fun _ => True) (listItem item) fun o => ∀ a ∈ o, R a := by
    refine .peek fun t _ _ => .ite (fun _ => .pure nofun) fun _ => ?_
    refine hitem.of_any.bind fun a ha => .peek fun u _ _ => ?_
    have hsome : ∀ b ∈ some a, R b := fun b hb => Option.mem_some_iff.1 hb ▸ ha
    refine .ite (fun _ => ?_) fun _ => .ite (fun _ => .pure hsome) fun _ => .unexpected
    exact .bind (.discard .advance) fun _ _ => .pure hsome
  refine .bracketed (.bind (.collect hnext) fun items hitems => ?_)
  exact .bind .advance fun _ _ => .pure hitems

section

variable {nested : Parser Expr}
  (hnested : Draws T (fun _ => True) nested fun e => Headed T [.expr e])
include hnested

/-- A call or subscript begins with what it stands behind. -/
theorem suffix_draws {e : Expr} (he : Headed T [.expr e]) :
    Draws T P (suffix nested e) fun o => ∀ e' ∈ o, Headed T [.expr e'] := by
  refine .peek fun t _ _ => .ite (fun _ => ?_) fun _ => .ite (fun _ => ?_) fun _ => .pure nofun
  · refine .bind (.discard .advance) fun _ _ => ?_
    refine .bind (listItems_draws (argument_draws hnested)) fun x hx => .pure ?_
    rintro _ ⟨⟩
    exact .node (Node.headed_append.2 ⟨he, Node.headed_map.2 hx⟩) he.start
  · refine .bind (.discard .advance) fun _ _ => .bracketed (hnested.bind fun subscript hsub => ?_)
    refine .bind .expect fun close _ => .pure ?_
    rintro _ ⟨⟩
    exact .node (Node.headed_append.2 ⟨he, hsub⟩) he.start

theorem suffixed_draws : Draws T P (suffixed nested) fun e => Headed T [.expr e] :=
  .bind (primary_draws hnested) fun _ he => .iterate (fun _ => suffix_draws hnested) he

omit hnested in
theorem sign_draws : Draws T P sign fun o => ∀ s ∈ o, Token.CodeAt T s.2.start := by
  refine .peek fun t ht _ => ?_
  split
  · exact .pure nofun
  · rename_i hop
    refine .bind (.discard .advance) fun _ _ => .pure ?_
    rintro _ ⟨⟩
    exact ⟨t, ht, isLayout_of_unaryOp hop, rfl⟩

theorem signed_draws : Draws T P (signed nested) fun e => Headed T [.expr e] := by
  refine .bind (.collect sign_draws) fun signs hsigns => ?_
  refine .bind (suffixed_draws hnested) fun operand hoperand => .pure ?_
  -- Each sign is the first token of what it is put around.
  induction signs with
  | nil => exact hoperand
  | cons s signs ih =>
    obtain ⟨hs, hmore⟩ := List.forall_mem_cons.1 hsigns
    exact .node (ih hmore) hs

omit hnested in
theorem operation_draws (level : List BinaryOp) {tighter : Parser Expr}
    (htighter : Draws T (fun _ => True) tighter fun e => Headed T [.expr e]) {left : Expr}
    (hleft : Headed T [.expr left]) :
    Draws T P (operation level tighter left) fun o => ∀ e ∈ o, Headed T [.expr e] := by
  refine .bind (.joinLine _) fun _ _ => .peek fun t _ _ => ?_
  split
  · exact .pure nofun
  · refine .bind (.discard .advance) fun _ _ => .bind .passLayout fun _ _ => ?_
    refine htighter.bind fun right hright => .pure ?_
    rintro _ ⟨⟩
    exact .node (Node.headed_append.2 ⟨hleft, hright⟩) hleft.start

theorem operations_draws (levels : List (List BinaryOp)) :
    Draws T P (operations nested levels) fun e => Headed T [.expr e] := by
  induction levels generalizing P with
  | nil => exact signed_draws hnested
  | cons level levels ih => exact ih.bind fun _ he => .iterate (fun _ => operation_draws level ih) he

theorem ternary_draws : Draws T P (ternary nested) fun e => Headed T [.expr e] := by
  refine .bind (operations_draws hnested _) fun condition hcondition => ?_
  refine .bind (.joinLine _) fun _ _ => .peek fun t _ _ => ?_
  refine .ite (fun _ => ?_) fun _ => .pure hcondition
  refine .bind (.discard .advance) fun _ _ => .bind .passLayout fun _ _ => ?_
  refine hnested.bind fun whenTrue htrue => .bind (.joinLine _) fun _ _ => ?_
  refine .bind (.discard .expect) fun _ _ => .bind .passLayout fun _ _ => ?_
  refine hnested.bind fun whenFalse hfalse => .pure (.node ?_ hcondition.start)
  exact Node.headed_append.2 ⟨hcondition, Node.headed_append.2 ⟨htrue, hfalse⟩⟩

end

theorem expression_draws (n : Nat) : Draws T P (expression n) fun e => Headed T [.expr e] := by
  induction n generalizing P with
  | zero => exact .failHere
  | succ n ih => exact ternary_draws ih

end Parser

end PineScript
