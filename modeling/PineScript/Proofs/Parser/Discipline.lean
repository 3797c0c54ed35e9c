import PineScript.Proofs.Parser.KeptStmt
import PineScript.Proofs.Parser.Machine

/-!
# The discipline of a machine

A machine changes its counts as it reads. Whatever state it starts from, a reader never goes back in
the input, comes back to the count of levels, and keeps a fault if it gives nothing. If it gives
something, it has closed the brackets that it has opened (`Machine.Disciplined`) and has taken a
token (`Machine.Shortens`).

Two machines that differ only where a reader is never started agree (`Machine.Agrees`).
-/

namespace PineScript.Parser.Machine

open Reading (Congruence Paced Begins Simulation Lockstep)

variable {α β : Type} {M N : Machine α} {f g : α → Machine β} {s : State} {b : Bool}

/-! ## Coming back -/

/-- What a reader leaves. A reader of statements, which is an outer one, counts on a state in which
no bracket is open and no margin is set. -/
structure Returns (outer : Bool) (s : State) (r : Option α × State) : Prop where
  suffix : r.2.rest <:+ s.rest
  depth : r.2.depth = s.depth
  nesting : r.1.isSome = true → (outer = true → s.nesting = 0) → r.2.nesting = s.nesting
  margin : (outer = true → s.margin = none) → r.2.margin = s.margin
  failure : r.1 = none → r.2.failure ≠ none

def Disciplined (b : Bool) (M : Machine α) : Prop := ∀ s, Returns b s (M s)

theorem bind_of_some {a : α} {s' : State} (h : M s = (some a, s')) : (M >>= f) s = f a s' := by
  change Machine.bind M f s = _
  rw [Machine.bind, h]

theorem bind_of_none {s' : State} (h : M s = (none, s')) : (M >>= f) s = (none, s') := by
  change Machine.bind M f s = _
  rw [Machine.bind, h]

namespace Disciplined

/-- A reader that takes nothing and gives something. -/
theorem of_done {v : State → α} : Disciplined b (fun s => (some (v s), s)) := fun _ =>
  ⟨List.suffix_refl _, rfl, fun _ _ => rfl, fun _ => rfl, by simp⟩

theorem pure (a : α) : Disciplined b (pure a : Machine α) := of_done

theorem bind (hM : Disciplined b M) (hf : ∀ a, Disciplined b (f a)) :
    Disciplined b (M >>= f) := by
  intro s
  have hM := hM s
  cases h : M s with
  | mk o s' =>
    rw [h] at hM
    cases o with
    | none =>
      rw [bind_of_none h]
      exact ⟨hM.suffix, hM.depth, by simp, hM.margin, fun _ => hM.failure rfl⟩
    | some a =>
      rw [bind_of_some h]
      have hnext := hf a s'
      -- The first part restores what the second part counts on.
      refine ⟨hnext.suffix.trans hM.suffix, hnext.depth.trans hM.depth, fun hsome hzero => ?_,
        fun hnone => ?_, hnext.failure⟩
      · have hmid := hM.nesting rfl hzero
        exact (hnext.nesting hsome fun ho => hmid.trans (hzero ho)).trans hmid
      · have hmid := hM.margin hnone
        exact (hnext.margin fun ho => hmid.trans (hnone ho)).trans hmid

theorem lift {p : Parser α} (hp : Onward p) : Disciplined b (Machine.lift p) := by
  intro s
  have hrest := hp s.context s.rest
  unfold Machine.lift
  cases h : p s.context s.rest with
  | ok a rest =>
    rw [h] at hrest
    exact ⟨hrest, rfl, fun _ _ => rfl, fun _ => rfl, by simp⟩
  | fault e rest =>
    rw [h] at hrest
    exact ⟨hrest, rfl, by simp, fun _ => rfl, by cases s.failure <;> simp⟩

theorem then_ {p : Parser α} (hp : Onward p) (hf : ∀ a, Disciplined b (f a)) :
    Disciplined b ((liftM p : Machine α) >>= f) := .bind (.lift hp) hf

theorem past {p : Parser α} (hp : Onward p) {f : PUnit → Machine β}
    (hf : ∀ a, Disciplined b (f a)) :
    Disciplined b (Functor.discard (liftM p : Machine α) >>= f) :=
  .bind (.bind (.lift hp) fun _ => .pure _) hf

theorem bracketed (hM : Disciplined false M) : Disciplined false (Machine.bracketed M) := by
  intro s
  have hM := hM { s with nesting := s.nesting + 1 }
  unfold Machine.bracketed
  generalize M { s with nesting := s.nesting + 1 } = r at hM
  obtain ⟨_ | a, s'⟩ := r
  -- A bracket that is given up stays open: nothing is said of the count where nothing is given.
  · exact ⟨hM.suffix, hM.depth, by simp, hM.margin, hM.failure⟩
  · exact ⟨hM.suffix, hM.depth, fun _ _ => congrArg (· - 1) (hM.nesting rfl (by simp)), hM.margin,
      by simp⟩

theorem weaken (hM : Disciplined false M) : Disciplined b M := fun s =>
  have hM := hM s
  ⟨hM.suffix, hM.depth, fun hsome _ => hM.nesting hsome (by simp), fun _ => hM.margin (by simp),
    hM.failure⟩

/-- What sets a margin takes it back, and leaves none. -/
theorem withMargin (margin : Int) (hM : Disciplined false M) :
    Disciplined true (Machine.withMargin margin M) := fun s =>
  have hM := hM { s with margin := some margin }
  ⟨hM.suffix, hM.depth, fun hsome _ => hM.nesting hsome (by simp), fun hnone => (hnone rfl).symm,
    hM.failure⟩

theorem guarded {tooDeep : Parser α} (hdeep : Onward tooDeep) (hM : Disciplined b M) :
    Disciplined b (guarded tooDeep M) := by
  intro s
  unfold Machine.guarded
  split
  · exact lift hdeep s
  · have hM := hM { s with depth := s.depth + 1 }
    exact ⟨hM.suffix, congrArg (· - 1) hM.depth, hM.nesting, hM.margin, hM.failure⟩

end Disciplined

/-- Where it is started, the second reader does what the first does, which is disciplined. -/
structure Agrees (b : Bool) (α : Type) (M N : Machine α) : Prop where
  disciplined : Disciplined b M
  same : ∀ s, (b = true → s.nesting = 0 ∧ s.margin = none) → N s = M s

namespace Agrees

theorem refl (h : Disciplined b M) : Agrees b α M M := ⟨h, fun _ _ => rfl⟩

theorem bind (hM : Agrees b α M N) (hf : ∀ a, Agrees b β (f a) (g a)) :
    Agrees b β (M >>= f) (N >>= g) := by
  refine ⟨hM.disciplined.bind fun a => (hf a).disciplined, fun s hs => ?_⟩
  have hN := hM.same s hs
  have hM := hM.disciplined s
  cases h : M s with
  | mk o s' =>
    rw [h] at hM hN
    cases o with
    | none => rw [bind_of_none h, bind_of_none hN]
    | some a =>
      rw [bind_of_some h, bind_of_some hN]
      refine (hf a).same s' fun ho => ⟨?_, ?_⟩
      · exact (hM.nesting rfl fun _ => (hs ho).1).trans (hs ho).1
      · exact (hM.margin fun _ => (hs ho).2).trans (hs ho).2

theorem congruence (b : Bool) : Congruence (Agrees b) where
  pure a := .refl (.pure a)
  bind := .bind
  map f _ _ hM := hM.bind fun a => .refl (.pure (f a))
  discard hM := hM.bind fun _ => .refl (.pure _)
  lift hp := .refl (.lift hp)

theorem paced (b : Bool) : Paced (Agrees b) where
  bounded hf := ⟨fun s => (hf _).disciplined s, fun s hs => (hf _).same s hs⟩
  spent a := .refl (.pure a)

def simulation : Simulation Machine Machine where
  inner := Agrees false
  outer := Agrees true
  within := congruence false
  around := congruence true
  -- Readers of expressions are started anywhere, so those that agree are equal.
  bracketed {_ M N} h := by
    obtain rfl : N = M := funext fun s => h.same s (by simp)
    exact .refl h.disciplined.bracketed
  withMargin {_} margin {M N} h := by
    obtain rfl : N = M := funext fun s => h.same s (by simp)
    exact .refl (h.disciplined.withMargin margin)
  weaken h := ⟨h.disciplined.weaken, fun s _ => h.same s (by simp)⟩

theorem lockstep : Lockstep simulation := ⟨paced false, paced true⟩

end Agrees

/-! ## Taking a token -/

theorem length_of_advance {ctx : Context} {ts rest : List Token} {t : Token}
    (h : (ctx.lookahead 0 ts).isLineEnd = false) (hread : advance ctx ts = .ok t rest) :
    rest.length < ts.length := by
  obtain ⟨-, skipped, hts, -⟩ := exists_skipped h
  have hlength := congrArg List.length hts
  rw [List.length_append, List.length_cons] at hlength
  rw [advance_apply] at hread
  cases hread
  omega

/-- Where the reader gives something, it has taken a token. -/
def Shortens (M : Machine α) (s : State) : Prop :=
  (M s).1.isSome = true → (M s).2.rest.length < s.rest.length

namespace Shortens

theorem bind (hM : Shortens M s) (hf : ∀ a, Disciplined b (f a)) : Shortens (M >>= f) s := by
  intro hsome
  cases h : M s with
  | mk o s' =>
    cases o with
    | none =>
      rw [bind_of_none h] at hsome
      cases hsome
    | some a =>
      rw [bind_of_some h]
      have hlt := hM (by rw [h]; rfl)
      rw [h] at hlt
      exact Nat.lt_of_le_of_lt (hf a s').suffix.length_le hlt

theorem after (hM : Disciplined b M) (hf : ∀ a s', Shortens (f a) s') :
    Shortens (M >>= f) s := by
  intro hsome
  have hM := hM s
  cases h : M s with
  | mk o s' =>
    rw [h] at hM
    cases o with
    | none =>
      rw [bind_of_none h] at hsome
      cases hsome
    | some a =>
      rw [bind_of_some h] at hsome ⊢
      exact Nat.lt_of_lt_of_le (hf a s' hsome) hM.suffix.length_le

theorem ite {c : Prop} [Decidable c] (hM : c → Shortens M s) (hN : ¬ c → Shortens N s) :
    Shortens (if c then M else N) s := by
  split
  · exact hM ‹_›
  · exact hN ‹_›

theorem peekAt {n : Nat} {f : Token → Machine β}
    (hf : Shortens (f (s.context.lookahead n s.rest)) s) :
    Shortens ((liftM (Parser.peekAt n) : Machine Token) >>= f) s := hf

theorem peek {f : Token → Machine β} (hf : Shortens (f (s.context.lookahead 0 s.rest)) s) :
    Shortens ((liftM Parser.peek : Machine Token) >>= f) s := peekAt hf

theorem lift {p : Parser α}
    (h : ∀ a rest, p s.context s.rest = .ok a rest → rest.length < s.rest.length) :
    Shortens (Machine.lift p) s := by
  intro hsome
  unfold Machine.lift at hsome ⊢
  cases hp : p s.context s.rest with
  | ok a rest => exact h a rest hp
  | fault e rest =>
    rw [hp] at hsome
    cases hsome

theorem look {p : Parser α} (h : wp p s.context s.rest
    (fun a rest => rest = s.rest ∧ Shortens (f a) s) fun _ _ => False) :
    Shortens ((liftM p : Machine α) >>= f) s := by
  unfold wp at h
  cases hp : p s.context s.rest with
  | ok a rest =>
    rw [hp] at h
    have hread : (liftM p : Machine α) s = (some a, s) := by
      change Machine.lift p s = _
      rw [Machine.lift, hp, h.1]
    unfold Shortens
    rw [bind_of_some hread]
    exact h.2
  | fault e rest =>
    rw [hp] at h
    exact h.elim

theorem advance (h : (s.context.lookahead 0 s.rest).isLineEnd = false) :
    Shortens (Machine.lift Parser.advance) s :=
  lift fun _ _ => length_of_advance h

theorem past {f : PUnit → Machine β} (h : (s.context.lookahead 0 s.rest).isLineEnd = false)
    (hf : ∀ a, Disciplined b (f a)) :
    Shortens (Functor.discard (liftM Parser.advance : Machine Token) >>= f) s :=
  ((advance h).bind fun _ => .pure (b := b) _).bind hf

theorem expect {test : Token → Bool} {wanted : Expected}
    (htest : ∀ t, test t = true → t.isLineEnd = false) :
    Shortens (Machine.lift (Parser.expect test wanted)) s := by
  refine lift fun a rest hread => ?_
  cases h : test (s.context.lookahead 0 s.rest) with
  | true => exact length_of_advance (htest _ h) ((expect_of_test h).symm.trans hread)
  | false => cases (expect_of_not_test h).symm.trans hread

/-- A reader that begins with one that takes a token does so as well. -/
theorem begins {first first' : Machine α} {M N : Machine β}
    (h : Begins (Agrees b) first first' M N) (hfirst : Shortens first s) : Shortens M s := by
  obtain ⟨f, g, rfl, -, hrest⟩ := h
  exact hfirst.bind fun a => (hrest a).disciplined

theorem guarded {tooDeep : Parser α} (hdeep : ∀ ctx ts a rest, tooDeep ctx ts ≠ .ok a rest)
    (hM : Shortens M { s with depth := s.depth + 1 }) : Shortens (guarded tooDeep M) s := by
  unfold Shortens Machine.guarded
  split
  · exact lift fun a rest h => absurd h (hdeep _ _ a rest)
  · exact hM

end Shortens

/-! ## Expressions -/

section

variable {nested : Machine Expr} (hnested : Disciplined false nested)
include hnested

theorem primary_shortens (s : State) : Shortens (Reading.primary nested) s := by
  refine .peek ?_
  cases hvalue : literal? (s.context.lookahead 0 s.rest) with
  | some value => exact .past (literal?_kind hvalue).1 fun _ => .pure (b := false) _
  | none =>
    refine .ite (fun h => ?_) fun _ => .ite (fun h => ?_) fun _ => ?_
    · exact .past (by grind) fun _ => .pure (b := false) _
    · refine .past (by grind) fun _ => .bracketed (hnested.bind fun inner => ?_)
      exact .past (.expect _ _) fun _ => .pure inner
    · exact .lift fun a rest h => by cases h

theorem suffixed_shortens (s : State) : Shortens (Reading.suffixed nested) s := by
  have hsuffix := Agrees.lockstep.suffix (Agrees.refl hnested)
  exact (primary_shortens hnested s).bind fun e =>
    ((Agrees.paced false).iterate (Agrees.congruence false) hsuffix e).disciplined

theorem signed_shortens (s : State) : Shortens (Reading.signed nested) s := by
  have hsigns : Agrees false _ (Reading.collect (liftM sign)) (Reading.collect (liftM sign)) :=
    Agrees.lockstep.collect (.refl (.lift .sign))
  refine .after hsigns.disciplined fun signs s' => ?_
  exact (suffixed_shortens hnested s').bind fun operand => .pure (b := false) _

theorem operations_shortens (levels : List (List BinaryOp)) (s : State) :
    Shortens (Reading.operations nested levels) s := by
  induction levels with
  | nil => exact signed_shortens hnested s
  | cons level tighter ih =>
    have htighter := Agrees.lockstep.operations (Agrees.refl hnested) tighter
    have hstep := Agrees.simulation.operation htighter level
    exact ih.bind fun e =>
      ((Agrees.paced false).iterate (Agrees.congruence false) hstep e).disciplined

theorem ternary_shortens (s : State) : Shortens (Reading.ternary nested) s :=
  .begins (Agrees.simulation.ternary (.refl hnested)) (operations_shortens hnested _ s)

end

theorem expression_disciplined (fuel : Nat) : Disciplined false (expression fuel) := by
  induction fuel with
  | zero => exact .lift (.failHere _)
  | succ fuel ih =>
    exact .guarded (.failHere _) (Agrees.lockstep.ternary (Agrees.refl ih)).disciplined

theorem expression_shortens (fuel : Nat) (s : State) : Shortens (expression fuel) s := by
  cases fuel with
  | zero => exact .lift fun a rest h => by cases h
  | succ fuel =>
    exact .guarded (fun _ _ _ _ h => by cases h) (ternary_shortens (expression_disciplined fuel) _)

/-! ## Statements -/

section

variable {nested : Machine Expr} (hnested : Disciplined false nested)
  (hshort : ∀ s, Shortens nested s)
include hnested

theorem declaration_shortens (s : State) : Shortens (Reading.declaration nested) s := by
  have hname : ∀ t : Token, t.isIdentifier = true → t.isLineEnd = false := fun t ht => by grind
  have htake {β : Type} (f : Token → β) :
      Disciplined false ((liftM advance : Machine Token) >>= fun t => pure (f t)) :=
    .then_ .advance fun _ => .pure _
  refine .peek (.ite (fun _ => .after (htake _) fun _ s' => ?_) fun _ => ?_)
  all_goals
    refine .peek (.peekAt (.ite (fun _ => .after (htake _) fun typeName s'' => ?_) fun _ =>
      .after (b := false) (.pure none) fun typeName s'' => ?_))
    -- Whatever stands in front of it, the name is taken.
    all_goals
      refine (Shortens.expect hname).bind (b := false) fun name => .past (.expect _ _) fun _ => ?_
      exact .then_ .passLayout fun _ => hnested.bind fun value => .pure _

include hshort

theorem simpleForm_shortens (s : State) : Shortens (Reading.simpleForm nested) s := by
  have hvalue := hshort s
  refine .peek ?_
  cases hkind : jumpKind? (s.context.lookahead 0 s.rest) with
  | some kind =>
    exact .begins (Agrees.simulation.jump (.refl hnested) kind)
      (.advance (isLineEnd_of_jumpKind? hkind))
  | none =>
    refine .look (wp_startsDeclaration fun starts => ⟨rfl, ?_⟩)
    refine .ite (fun _ => declaration_shortens hnested s) fun _ => .peekAt ?_
    -- The name that opens an assignment is seen, so it is taken.
    cases hname : (s.context.lookahead 0 s.rest).isIdentifier with
    | false => exact hvalue.bind fun _ => .pure (b := false) _
    | true =>
      cases assignOp? (s.context.lookahead 1 s.rest) with
      | none => exact hvalue.bind fun _ => .pure (b := false) _
      | some op =>
        exact .begins (Agrees.simulation.assignment (.refl hnested) op) (.advance (by grind))

theorem simple_shortens (indent : Int) (s : State) : Shortens (Reading.simple nested indent) s := by
  have hform : Shortens (Machine.withMargin indent (Reading.simpleForm nested)) s :=
    simpleForm_shortens hnested hshort { s with margin := some indent }
  exact hform.bind (b := true) fun _ => .then_ .endOfLine fun _ => .pure _

end

/-- Whatever a statement begins with is taken. -/
theorem statement_shortens {nested : Machine Expr} (hnested : Disciplined false nested)
    {block : Int → Machine (Mended Block)} (hblock : ∀ header, Disciplined true (block header))
    (indent : Int) (hshort : ∀ s, Shortens nested s) (s : State) :
    Shortens (Reading.statement nested block indent) s := by
  have hexpr := Agrees.refl hnested
  have hbody (header : Int) := Agrees.refl (hblock header)
  refine .peek (.ite (fun h => ?_) fun _ => .ite (fun h => ?_) fun _ => .ite (fun h => ?_) fun _ =>
    .ite (fun _ => .lift fun _ _ h => by cases h) fun _ => ?_)
  · have hrest := (Agrees.paced true).bounded (Agrees.lockstep.otherwiseFor hexpr hbody indent)
    exact .begins (Agrees.simulation.conditional hexpr hbody indent hrest) (.advance (by grind))
  · exact .begins (Agrees.simulation.forLoop hexpr hbody indent) (.advance (by grind))
  · exact .begins (Agrees.simulation.whileLoop hexpr hbody indent) (.advance (by grind))
  -- Where no keyword stands, a name or what an expression begins with is taken.
  refine .look ((wp_of_ok (startsFunction_eq _ _)).2 ⟨rfl, .ite (fun h => ?_) fun _ => ?_⟩)
  · have hname := Bool.and_eq_true_iff.1 (Bool.and_eq_true_iff.1 h).1
    have hlist := Agrees.lockstep.listItems (Agrees.lockstep.parameter hexpr)
    exact .begins (Agrees.simulation.function hexpr hbody hlist indent) (.advance (by grind))
  · exact (simple_shortens hnested hshort indent s).bind (b := true) fun _ => .pure _

end PineScript.Parser.Machine
