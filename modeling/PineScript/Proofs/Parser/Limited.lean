import PineScript.Proofs.Parser.Reading
import PineScript.Proofs.Parser.Seen

/-!
# Expressions under a limit

The readers as plain recursion: a loop goes on for as long as its step asks for it, and a nested
expression is read by a call of the same reader. What keeps such a recursion from going on for ever
is a limit. A reader that comes to its limit gives up, and gives nothing.

Main statement: whatever the tokens, a limit above the number of tokens and of the levels that are
left is not reached, and the readers then do what those without a limit do
(`Limited.expression_settles`). Each round of each loop takes a token, which is why its number is
limited by them.
-/

namespace PineScript.Parser

/-- A reader that may give up, as it does where a loop would make more rounds than the limit. -/
def Limited (_limit : Nat) (α : Type) : Type := Context → List Token → Option (Reply α)

namespace Limited

variable {limit : Nat} {α β σ : Type}

protected def pure (a : α) : Limited limit α := fun _ ts => some (.ok a ts)

protected def bind (p : Limited limit α) (f : α → Limited limit β) : Limited limit β :=
  fun ctx ts =>
    match p ctx ts with
    | some (.ok a rest) => f a ctx rest
    | some (.fault e rest) => some (.fault e rest)
    | none => none

/-- A reader that needs no limit. -/
protected def lift (p : Parser α) : Limited limit α := fun ctx ts => some (p ctx ts)

def giveUp : Limited limit α := fun _ _ => none

instance : Reading (Limited limit) where
  pure := Limited.pure
  bind := Limited.bind
  monadLift := Limited.lift
  bracketed p := fun ctx ts => p { ctx with bracketed := true } ts
  withMargin margin p := fun ctx ts => p { ctx with margin := some margin } ts
  bounded f := fun ctx ts => f (List.replicate limit ctx.endToken) ctx ts
  spent _ := giveUp

/-- Reads an expression below so many expressions and blocks, within so many calls. -/
def expression : Nat → Nat → Limited limit Expr
  | 0, _ => giveUp
  | calls + 1, depth =>
    if nestingLimit ≤ depth then Limited.lift (failHere .deepExpression)
    else Reading.ternary (expression calls (depth + 1))

/-! ## Readers that do not give up -/

variable {ctx : Context} {ts rest : List Token}

theorem bind_of_ok {p : Limited limit α} {a : α} (h : p ctx ts = some (.ok a rest))
    (f : α → Limited limit β) : (p >>= f) ctx ts = f a ctx rest := by
  change Limited.bind p f ctx ts = _
  rw [Limited.bind, h]

theorem bind_of_fault {p : Limited limit α} {e : Fault} (h : p ctx ts = some (.fault e rest))
    (f : α → Limited limit β) : (p >>= f) ctx ts = some (.fault e rest) := by
  change Limited.bind p f ctx ts = _
  rw [Limited.bind, h]

/-- On no more than `size` tokens the limited reader does what the reader does, which never goes
back. -/
def Settles (size : Nat) (α : Type) (p : Limited limit α) (q : Parser α) : Prop :=
  ∀ ctx ts, ts.length ≤ size →
    p ctx ts = some (q ctx ts) ∧ (q ctx ts).rest <:+ ts

namespace Settles

variable {size small : Nat} {p : Limited limit α} {q : Parser α}

theorem mono (h : Settles size α p q) (hle : small ≤ size) : Settles small α p q :=
  fun ctx ts hts => h ctx ts (Nat.le_trans hts hle)

theorem pure (a : α) : Settles size α (Pure.pure a : Limited limit α) (Pure.pure a) :=
  fun _ ts _ => ⟨rfl, List.suffix_refl ts⟩

/-- What is read next has to settle on the tokens that are left. -/
theorem bindRest {f : α → Limited limit β} {g : α → Parser β} (hp : Settles size α p q)
    (hf : ∀ {ctx ts a rest}, ts.length ≤ size → rest.length ≤ ts.length → q ctx ts = .ok a rest →
      Settles rest.length β (f a) (g a)) : Settles size β (p >>= f) (q >>= g) := by
  intro ctx ts hsize
  obtain ⟨hrun, hrest⟩ := hp ctx ts hsize
  rw [bind_apply]
  cases hq : q ctx ts with
  | ok a rest =>
    rw [hq] at hrun hrest
    obtain ⟨hrun', hleft⟩ := hf hsize hrest.length_le hq ctx rest (Nat.le_refl _)
    exact ⟨(bind_of_ok hrun f).trans hrun', hleft.trans hrest⟩
  | fault e rest =>
    rw [hq] at hrun hrest
    exact ⟨bind_of_fault hrun f, hrest⟩

theorem bind {f : α → Limited limit β} {g : α → Parser β} (hp : Settles size α p q)
    (hf : ∀ a, Settles size β (f a) (g a)) : Settles size β (p >>= f) (q >>= g) :=
  hp.bindRest fun hts hrest _ => (hf _).mono (Nat.le_trans hrest hts)

theorem congruence : Reading.Congruence (m := Limited limit) (Settles size) where
  pure := .pure
  bind := .bind
  map f _ _ hp := hp.bind fun a => .pure (f a)
  discard hp := hp.bind fun _ => .pure _
  lift hp ctx ts _ := ⟨rfl, hp ctx ts⟩

end Settles

/-- On so many tokens, limited readers settle. -/
def simulation (limit size : Nat) : Reading.Simulation (Limited limit) Parser where
  inner := Settles size
  outer := Settles size
  within := Settles.congruence
  around := Settles.congruence
  bracketed hp ctx ts := hp { ctx with bracketed := true } ts
  withMargin margin _ _ hp ctx ts := hp { ctx with margin := some margin } ts
  weaken := id

/-! ## Loops -/

namespace Settles

variable {size : Nat}

/-- A loop whose rounds take a token each comes to its end before so many rounds. -/
theorem iterateFor {step : σ → Limited limit (Option σ)} {step' : σ → Parser (Option σ)}
    (hstep : ∀ s, Settles size _ (step s) (step' s))
    (hshort : ∀ s ctx ts s' rest, step' s ctx ts = .ok (some s') rest → rest.length < ts.length)
    (bound bound' : List Token) (s : σ) (hbound : size < bound.length)
    (hbound' : size < bound'.length) :
    Settles size _ (Reading.iterateFor step bound s) (Reading.iterateFor step' bound' s) := by
  induction bound generalizing size bound' s with
  | nil => exact absurd hbound (Nat.not_lt_zero _)
  | cons _ bound ih =>
    obtain ⟨t, bound', rfl⟩ := List.exists_cons_of_length_pos (Nat.zero_lt_of_lt hbound')
    rw [List.length_cons] at hbound hbound'
    refine (hstep s).bindRest fun {ctx ts o rest} hts hrest hq => ?_
    cases o with
    | none => exact .pure s
    | some next =>
      have hlt := hshort s ctx ts next rest hq
      exact ih (fun s => (hstep s).mono (by omega)) bound' next (by omega) (by omega)

theorem collectFor {item : Limited limit (Option α)} {item' : Parser (Option α)}
    (hitem : Settles size _ item item')
    (hshort : ∀ ctx ts a rest, item' ctx ts = .ok (some a) rest → rest.length < ts.length)
    (bound bound' : List Token) (hbound : size < bound.length) (hbound' : size < bound'.length) :
    Settles size _ (Reading.collectFor item bound) (Reading.collectFor item' bound') := by
  induction bound generalizing size bound' with
  | nil => exact absurd hbound (Nat.not_lt_zero _)
  | cons _ bound ih =>
    obtain ⟨t, bound', rfl⟩ := List.exists_cons_of_length_pos (Nat.zero_lt_of_lt hbound')
    rw [List.length_cons] at hbound hbound'
    refine hitem.bindRest fun {ctx ts o rest} hts hrest hq => ?_
    cases o with
    | none => exact .pure []
    | some a =>
      have hlt := hshort ctx ts a rest hq
      exact (ih (hitem.mono (by omega)) bound' (by omega) (by omega)).bind fun more => .pure _

/-- The limit, and the tokens that are left, are both above what a loop needs. -/
theorem bounded {f : List Token → Limited limit α} {g : List Token → Parser α}
    (hlimit : size < limit)
    (h : ∀ {small} bound bound', small ≤ size → small < bound.length → small < bound'.length →
      Settles small _ (f bound) (g bound')) :
    Settles size _ (Reading.bounded f) (Reading.bounded g) := by
  intro ctx ts hsize
  refine h (List.replicate limit ctx.endToken) (ctx.endToken :: ts) hsize ?_ (Nat.lt_succ_self _)
    ctx ts (Nat.le_refl _)
  rw [List.length_replicate]
  exact Nat.lt_of_le_of_lt hsize hlimit

theorem iterate {step : σ → Limited limit (Option σ)} {step' : σ → Parser (Option σ)}
    (hstep : ∀ s, Settles size _ (step s) (step' s))
    (hshort : ∀ s ctx ts s' rest, step' s ctx ts = .ok (some s') rest → rest.length < ts.length)
    (hlimit : size < limit) (s : σ) :
    Settles size _ (Reading.iterate step s) (Reading.iterate step' s) :=
  bounded hlimit fun bound bound' hsmall =>
    iterateFor (fun s => (hstep s).mono hsmall) hshort bound bound' s

theorem collect {item : Limited limit (Option α)} {item' : Parser (Option α)}
    (hitem : Settles size _ item item')
    (hshort : ∀ ctx ts a rest, item' ctx ts = .ok (some a) rest → rest.length < ts.length)
    (hlimit : size < limit) :
    Settles size _ (Reading.collect item) (Reading.collect item') :=
  bounded hlimit fun bound bound' hsmall => collectFor (hitem.mono hsmall) hshort bound bound'

end Settles

/-! ## Expressions -/

variable {size : Nat} (hlimit : size < limit)

section
include hlimit

theorem listItems_settles {item : Limited limit α} {item' : Parser α}
    (hitem : Settles size _ item item') (htakes : Takes item') :
    Settles size _ (Reading.listItems item) (Reading.listItems item') := by
  refine (simulation limit size).listItems
    (.collect ((simulation limit size).listItem hitem) ?_ hlimit)
  intro ctx ts a rest h
  exact (((wp_of_ok h).1 (listItem_takes htakes ctx ts)).2 a rfl).length_lt

variable {nested : Limited limit Expr} {nested' : Parser Expr}
  (hnested : Settles size _ nested nested') (htakes : Takes nested')
include hnested htakes

theorem suffixed_settles : Settles size _ (Reading.suffixed nested) (Reading.suffixed nested') := by
  have harguments := listItems_settles hlimit ((simulation limit size).argument hnested)
    (argument_takes htakes)
  refine .bind ((simulation limit size).primary hnested) fun e => ?_
  refine .iterate ((simulation limit size).suffix hnested harguments) ?_ hlimit e
  rw [Reading.suffix_eq]
  exact fun e _ _ _ _ h => (suffix_takes htakes e).short h

theorem operations_settles (levels : List (List BinaryOp)) :
    Settles size _ (Reading.operations nested levels) (Reading.operations nested' levels) := by
  induction levels with
  | nil =>
    have hsign := (simulation limit size).within.lift .sign
    refine .bind (.collect hsign (fun _ _ _ _ h => sign_takes.short h) hlimit) fun signs => ?_
    exact .bind (suffixed_settles hlimit hnested htakes) fun operand => .pure _
  | cons level tighter ih =>
    have htighter := operations_takes htakes tighter
    rw [← Reading.operations_eq] at htighter
    refine .bind ih fun e => .iterate ((simulation limit size).operation ih level) ?_ hlimit e
    exact fun e _ _ _ _ h => (operation_takes level htighter e).short h

end

/-- An expression is read within a limit above the number of tokens, and calls above the levels that
are left. -/
theorem expression_settles (n : Nat) {depth calls : Nat} (hdepth : depth + n = nestingLimit)
    (hlimit : size < limit) (hcalls : n < calls) :
    Settles size _ (expression calls depth : Limited limit Expr) (Parser.expression n) := by
  induction n generalizing calls depth with
  | zero =>
    obtain ⟨calls, rfl⟩ : ∃ k, calls = k + 1 := ⟨calls - 1, by omega⟩
    rw [expression, if_pos (by omega)]
    exact (simulation limit size).within.lift (.failHere _)
  | succ n ih =>
    obtain ⟨calls, rfl⟩ : ∃ k, calls = k + 1 := ⟨calls - 1, by omega⟩
    have hnested : Settles size _ (expression calls (depth + 1)) (Parser.expression n) :=
      ih (by omega) (by omega)
    rw [expression, if_neg (by omega), Parser.expression, ← Reading.ternary_eq]
    exact (simulation limit size).within.begins ((simulation limit size).ternary hnested)
      (operations_settles hlimit hnested (expression_takes n) _)

end Limited

end PineScript.Parser
