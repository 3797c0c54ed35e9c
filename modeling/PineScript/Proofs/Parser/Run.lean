import PineScript.Parser.Basic

/-!
# Running readers

A reader is run in two ways. On tokens that are at hand its result is computed: a code token is seen
and taken as it stands, and a loop follows a chain of rounds. On tokens of which little is known,
`wp` says what holds of the result, and its rules take a reader apart along its structure.
-/

namespace PineScript

namespace Token

@[grind =] theorem isPunctuation_iff {t : Token} {mark : String} :
    t.isPunctuation mark = true ↔ t.kind = .punctuation ∧ t.text = mark := by
  simp [isPunctuation]

@[grind =] theorem isOperator_iff {t : Token} {text : String} :
    t.isOperator text = true ↔ t.kind = .operator ∧ t.text = text := by
  simp [isOperator]

@[grind =] theorem isKeyword_iff {t : Token} {word : String} :
    t.isKeyword word = true ↔ t.kind = .keyword ∧ t.text = word := by
  simp [isKeyword]

@[grind =] theorem isIdentifier_iff {t : Token} : t.isIdentifier = true ↔ t.kind = .identifier := by
  simp [isIdentifier]

@[grind =] theorem isLayout_iff {t : Token} :
    t.isLayout = true ↔ t.kind = .newline ∨ t.kind = .comment := by
  unfold isLayout TokenKind.isLayout
  split <;> simp_all

theorem isLayout_eq {t : Token} {kind : TokenKind} (h : t.kind = kind) :
    t.isLayout = kind.isLayout := by
  rw [isLayout, h]

theorem isLayout_of_identifier {t : Token} (h : t.isIdentifier = true) : t.isLayout = false :=
  isLayout_eq (isIdentifier_iff.1 h)

theorem isLayout_of_punctuation {t : Token} {mark : String} (h : t.isPunctuation mark = true) :
    t.isLayout = false :=
  isLayout_eq (isPunctuation_iff.1 h).1

theorem isLayout_of_operator {t : Token} {text : String} (h : t.isOperator text = true) :
    t.isLayout = false :=
  isLayout_eq (isOperator_iff.1 h).1

theorem isLayout_of_keyword {t : Token} {word : String} (h : t.isKeyword word = true) :
    t.isLayout = false :=
  isLayout_eq (isKeyword_iff.1 h).1

/-- The first token that is no layout is code. -/
theorem isLayout_of_dropWhile {ts us : List Token} {t : Token}
    (h : ts.dropWhile isLayout = t :: us) : t.isLayout = false := by
  have hhead := List.head?_dropWhile_not isLayout ts
  rwa [h] at hhead

@[grind =] theorem isLineEnd_iff {t : Token} :
    t.isLineEnd = true ↔ t.kind = .newline ∨ t.kind = .eof := by
  simp [isLineEnd]

end Token

namespace Context

variable {ctx : Context} {t : Token} {ts : List Token}

@[simp, grind =] theorem endToken_kind : ctx.endToken.kind = .eof := rfl

@[grind =] theorem skips_iff :
    ctx.skips t = true ↔ t.kind = .comment ∨ ctx.bracketed = true ∧ t.kind = .newline := by
  simp [skips]

/-- Code is seen in every context. -/
theorem skips_of_code (h : t.isLayout = false) : ctx.skips t = false := by grind

@[simp] theorem lookahead_nil (n : Nat) : ctx.lookahead n [] = ctx.endToken := by
  cases n <;> rfl

theorem lookahead_zero_of_seen (h : ctx.skips t = false) : ctx.lookahead 0 (t :: ts) = t := by
  simp [lookahead, h]

theorem lookahead_succ_of_seen (n : Nat) (h : ctx.skips t = false) :
    ctx.lookahead (n + 1) (t :: ts) = ctx.lookahead n ts := by
  simp [lookahead, h]

theorem lookahead_of_skipped (n : Nat) (h : ctx.skips t = true) :
    ctx.lookahead n (t :: ts) = ctx.lookahead n ts := by
  cases n <;> simp [lookahead, h]

/-- The next token that is seen is the first one that is not skipped. -/
theorem lookahead_zero (ctx : Context) (ts : List Token) :
    ctx.lookahead 0 ts = (ts.dropWhile ctx.skips).head?.getD ctx.endToken := by
  induction ts with
  | nil => rfl
  | cons t ts ih =>
    cases h : ctx.skips t with
    | true => simp [lookahead_of_skipped, h, ih]
    | false => simp [lookahead_zero_of_seen, h]

end Context

namespace Parser

variable {α β σ : Type} {ctx : Context} {t : Token} {ts : List Token}

/-! ## Seeing and taking tokens -/

theorem discard_eq_map (p : Parser α) :
    (discard p : Parser PUnit) = p >>= fun _ => pure PUnit.unit := rfl

theorem map_eq_bind (f : α → β) (p : Parser α) : f <$> p = p >>= fun a => pure (f a) := rfl

theorem peek_apply (ctx : Context) (ts : List Token) :
    peek ctx ts = .ok (ctx.lookahead 0 ts) ts := rfl

theorem peekAt_apply (n : Nat) (ctx : Context) (ts : List Token) :
    peekAt n ctx ts = .ok (ctx.lookahead n ts) ts := rfl

/-- The token that is taken is the one that was seen. -/
theorem advance_apply (ctx : Context) (ts : List Token) :
    advance ctx ts = .ok (ctx.lookahead 0 ts) (ts.dropWhile ctx.skips).tail := by
  rw [advance, ctx.lookahead_zero]
  cases ts.dropWhile ctx.skips <;> rfl

theorem peek_of_seen (h : ctx.skips t = false) : peek ctx (t :: ts) = .ok t (t :: ts) := by
  rw [peek_apply, Context.lookahead_zero_of_seen h]

theorem advance_of_seen (h : ctx.skips t = false) : advance ctx (t :: ts) = .ok t ts := by
  rw [advance_apply, Context.lookahead_zero_of_seen h]
  simp [h]

theorem expect_of_seen {test : Token → Bool} {wanted : Expected} (h : ctx.skips t = false)
    (ht : test t = true) : expect test wanted ctx (t :: ts) = .ok t ts := by
  rw [expect, bind_apply, peek_of_seen h]
  simp only [ht, ↓reduceIte]
  exact advance_of_seen h

theorem passLayout_of_code (h : t.isLayout = false) : passLayout ctx (t :: ts) = .ok () (t :: ts) := by
  simp [passLayout, h]

/-- No line is joined unless the next token that is seen is a line break. -/
theorem joinLine_of_lookahead {spellings : List String} (h : (ctx.lookahead 0 ts).kind ≠ .newline) :
    joinLine spellings ctx ts = .ok () ts := by
  unfold joinLine
  split <;> simp [h]

theorem joinLine_of_margin_none {spellings : List String} (h : ctx.margin = none) :
    joinLine spellings ctx ts = .ok () ts := by
  simp [joinLine, h]

/-! ## Loops -/

/-- Rounds of a step that each take a token, from one state and rest to another. -/
inductive Rounds (step : σ → Parser (Option σ)) (ctx : Context) :
    σ → List Token → σ → List Token → Prop
  | refl {s : σ} {ts : List Token} : Rounds step ctx s ts s ts
  | round {s s' u : σ} {ts mid rest : List Token} (hstep : step s ctx ts = .ok (some s') mid)
      (hlen : mid.length < ts.length) (hmore : Rounds step ctx s' mid u rest) :
      Rounds step ctx s ts u rest

theorem Rounds.snoc {step : σ → Parser (Option σ)} {s u v : σ} {ts mid rest : List Token}
    (h : Rounds step ctx s ts u mid) (hstep : step u ctx mid = .ok (some v) rest)
    (hlen : rest.length < mid.length) : Rounds step ctx s ts v rest := by
  induction h with
  | refl => exact .round hstep hlen .refl
  | round hfirst hshort _ ih => exact .round hfirst hshort (ih hstep hlen)

theorem Rounds.iterateFor_eq {step : σ → Parser (Option σ)} {s u : σ}
    {ts mid rest bound : List Token} (h : Rounds step ctx s ts u mid)
    (hbound : ts.length < bound.length) (hstop : step u ctx mid = .ok none rest) :
    iterateFor step bound s ctx ts = .ok u rest := by
  induction h generalizing bound with
  | refl =>
    match bound, hbound with
    | _ :: _, _ => simp [iterateFor, hstop]
  | round hfirst hshort _ ih =>
    match bound, hbound with
    | _ :: bound, hbound =>
      simp only [iterateFor, bind_apply, hfirst]
      rw [List.length_cons] at hbound
      exact ih (by omega) hstop

/-- A loop follows its rounds to the state in which the step gives nothing. -/
theorem Rounds.iterate_eq {step : σ → Parser (Option σ)} {s u : σ} {ts mid rest : List Token}
    (h : Rounds step ctx s ts u mid) (hstop : step u ctx mid = .ok none rest) :
    iterate step s ctx ts = .ok u rest :=
  h.iterateFor_eq (by simp) hstop

/-- Items that each take a token, up to the place where there is none. -/
inductive Items (item : Parser (Option α)) (ctx : Context) : List Token → List α → List Token → Prop
  | stop {ts rest : List Token} (hstop : item ctx ts = .ok none rest) : Items item ctx ts [] rest
  | item {a : α} {as : List α} {ts mid rest : List Token} (hitem : item ctx ts = .ok (some a) mid)
      (hlen : mid.length < ts.length) (hmore : Items item ctx mid as rest) :
      Items item ctx ts (a :: as) rest

theorem Items.collectFor_eq {item : Parser (Option α)} {as : List α} {ts rest bound : List Token}
    (h : Items item ctx ts as rest) (hbound : ts.length < bound.length) :
    collectFor item bound ctx ts = .ok as rest := by
  induction h generalizing bound with
  | stop hstop =>
    match bound, hbound with
    | _ :: _, _ => simp [collectFor, hstop]
  | item hitem hlen _ ih =>
    match bound, hbound with
    | _ :: bound, hbound =>
      rw [List.length_cons] at hbound
      have hrest := @ih bound (by omega)
      simp [collectFor, hitem, hrest]

theorem Items.collect_eq {item : Parser (Option α)} {as : List α} {ts rest : List Token}
    (h : Items item ctx ts as rest) : collect item ctx ts = .ok as rest :=
  h.collectFor_eq (by simp)

/-! ## Weakest preconditions -/

/-- What must hold so that a run ends in `Q`, if it gives a value, or in `E`, if it stops at a
fault. Both speak of the tokens that are left, too. -/
def wp (p : Parser α) (ctx : Context) (ts : List Token) (Q : α → List Token → Prop)
    (E : Fault → List Token → Prop) : Prop :=
  match p ctx ts with
  | .ok a rest => Q a rest
  | .fault e rest => E e rest

variable {Q : α → List Token → Prop} {E : Fault → List Token → Prop}

theorem wp_of_ok {p : Parser α} {a : α} {rest : List Token} (h : p ctx ts = .ok a rest) :
    wp p ctx ts Q E ↔ Q a rest := by
  rw [wp, h]

theorem wp_of_fault {p : Parser α} {e : Fault} {rest : List Token} (h : p ctx ts = .fault e rest) :
    wp p ctx ts Q E ↔ E e rest := by
  rw [wp, h]

theorem wp_mono {p : Parser α} {Q' : α → List Token → Prop} {E' : Fault → List Token → Prop}
    (hp : wp p ctx ts Q E) (hQ : ∀ a rest, Q a rest → Q' a rest)
    (hE : ∀ e rest, E e rest → E' e rest) : wp p ctx ts Q' E' := by
  unfold wp at *
  split at hp
  · exact hQ _ _ hp
  · exact hE _ _ hp

theorem wp_imp {p : Parser α} {Q' : α → List Token → Prop} (hp : wp p ctx ts Q E)
    (hQ : ∀ a rest, Q a rest → Q' a rest) : wp p ctx ts Q' E :=
  wp_mono hp hQ fun _ _ => id

theorem wp_trivial (p : Parser α) (ctx : Context) (ts : List Token) :
    wp p ctx ts (fun _ _ => True) (fun _ _ => True) := by
  unfold wp
  split <;> trivial

theorem wp_and {p : Parser α} {Q' : α → List Token → Prop} {E' : Fault → List Token → Prop}
    (h : wp p ctx ts Q E) (h' : wp p ctx ts Q' E') :
    wp p ctx ts (fun a rest => Q a rest ∧ Q' a rest) (fun e rest => E e rest ∧ E' e rest) := by
  unfold wp at *
  split at h <;> simp_all

@[simp] theorem wp_pure (a : α) : wp (pure a) ctx ts Q E ↔ Q a ts := Iff.rfl

@[simp] theorem wp_bind {Q : β → List Token → Prop} (p : Parser α) (f : α → Parser β) :
    wp (p >>= f) ctx ts Q E ↔ wp p ctx ts (fun a rest => wp (f a) ctx rest Q E) E := by
  unfold wp
  rw [bind_apply]
  cases p ctx ts <;> exact Iff.rfl

@[simp] theorem wp_map {Q : β → List Token → Prop} (f : α → β) (p : Parser α) :
    wp (f <$> p) ctx ts Q E ↔ wp p ctx ts (fun a rest => Q (f a) rest) E := by
  rw [map_eq_bind, wp_bind]; rfl

@[simp] theorem wp_discard {Q : PUnit → List Token → Prop} (p : Parser α) :
    wp (discard p) ctx ts Q E ↔ wp p ctx ts (fun _ rest => Q PUnit.unit rest) E := by
  rw [discard_eq_map, wp_bind]; rfl

@[simp] theorem wp_peekAt {Q : Token → List Token → Prop} (n : Nat) :
    wp (peekAt n) ctx ts Q E ↔ Q (ctx.lookahead n ts) ts := Iff.rfl

@[simp] theorem wp_peek {Q : Token → List Token → Prop} :
    wp peek ctx ts Q E ↔ Q (ctx.lookahead 0 ts) ts := Iff.rfl

@[simp] theorem wp_advance {Q : Token → List Token → Prop} :
    wp advance ctx ts Q E ↔ Q (ctx.lookahead 0 ts) (ts.dropWhile ctx.skips).tail := by
  rw [wp, advance_apply]

theorem wp_advance_of_seen {Q : Token → List Token → Prop} (h : ctx.skips t = false) :
    wp advance ctx (t :: ts) Q E ↔ Q t ts := by
  rw [wp, advance_of_seen h]

@[simp] theorem wp_passLayout {Q : Unit → List Token → Prop} :
    wp passLayout ctx ts Q E ↔ Q () (ts.dropWhile Token.isLayout) := Iff.rfl

@[simp] theorem wp_bracketed (p : Parser α) :
    wp (bracketed p) ctx ts Q E ↔ wp p { ctx with bracketed := true } ts Q E := Iff.rfl

@[simp] theorem wp_withMargin (margin : Int) (p : Parser α) :
    wp (withMargin margin p) ctx ts Q E ↔ wp p { ctx with margin := some margin } ts Q E := Iff.rfl

@[simp] theorem wp_fail (cause : Fault.Cause) (range : Range) :
    wp (fail cause range) ctx ts Q E ↔ E ⟨cause, range⟩ ts := Iff.rfl

@[simp] theorem wp_unexpected (wanted : Expected) :
    wp (unexpected wanted) ctx ts Q E ↔
      E ⟨.unexpected (ctx.lookahead 0 ts).kind (ctx.lookahead 0 ts).text wanted,
        (ctx.lookahead 0 ts).range⟩ ts := Iff.rfl

@[simp] theorem wp_ite (c : Prop) [Decidable c] (p q : Parser α) :
    wp (if c then p else q) ctx ts Q E ↔ if c then wp p ctx ts Q E else wp q ctx ts Q E := by
  split <;> rfl

@[simp] theorem wp_expect {Q : Token → List Token → Prop} (test : Token → Bool)
    (wanted : Expected) :
    wp (expect test wanted) ctx ts Q E ↔
      if test (ctx.lookahead 0 ts) then Q (ctx.lookahead 0 ts) (ts.dropWhile ctx.skips).tail
      else wp (unexpected wanted) ctx ts Q E := by
  rw [expect, wp_bind, wp_peek, wp_ite, wp_advance]

/-- A line is joined by going to the next line of code, or not at all. -/
theorem wp_joinLine {Q : Unit → List Token → Prop} (spellings : List String) (hstay : Q () ts)
    (hjoin : Q () (ts.dropWhile Token.isLayout)) : wp (joinLine spellings) ctx ts Q E := by
  unfold wp joinLine
  split
  · rename_i heq
    split at heq
    · cases heq; exact hstay
    · split at heq
      · cases heq; exact hstay
      · split at heq
        · cases heq; exact hstay
        · rename_i hdrop
          split at heq <;> cases heq
          · rwa [← hdrop]
          · exact hstay
  · rename_i heq
    split at heq
    · cases heq
    · split at heq
      · cases heq
      · split at heq
        · cases heq
        · split at heq <;> cases heq

section

variable {step : σ → Parser (Option σ)} (Inv : σ → List Token → Prop)
  (hstep : ∀ s ts, Inv s ts → wp (step s) ctx ts (fun o rest => Inv (o.getD s) rest) E) {s : σ}
include hstep

theorem wp_iterateFor (bound : List Token) (h : Inv s ts) :
    wp (iterateFor step bound s) ctx ts Inv E := by
  induction bound generalizing s ts with
  | nil => exact h
  | cons _ bound ih =>
    simp only [iterateFor, wp_bind]
    refine wp_imp (hstep s ts h) ?_
    intro o rest ho
    cases o with
    | none => exact ho
    | some s' => exact ih ho

/-- What every round of a loop keeps holds behind the loop. -/
theorem wp_iterate (h : Inv s ts) : wp (iterate step s) ctx ts Inv E :=
  wp_iterateFor Inv hstep _ h

end

section

variable {step : σ → Parser (Option σ)} (Inv Done : σ → List Token → Prop)
  (hstep : ∀ s ts, Inv s ts → wp (step s) ctx ts
    (fun o rest => (o = none → Done s rest) ∧
      ∀ s', o = some s' → rest.length < ts.length ∧ Inv s' rest) E) {s : σ}
include hstep

theorem wp_iterateFor_of_progress (bound : List Token) (hbound : ts.length < bound.length)
    (h : Inv s ts) : wp (iterateFor step bound s) ctx ts Done E := by
  induction bound generalizing s ts with
  | nil => exact absurd hbound (Nat.not_lt_zero _)
  | cons _ bound ih =>
    simp only [iterateFor, wp_bind]
    refine wp_imp (hstep s ts h) ?_
    intro o rest ho
    cases o with
    | none => exact ho.1 rfl
    | some s' =>
      obtain ⟨hlen, hinv⟩ := ho.2 s' rfl
      rw [List.length_cons] at hbound
      exact ih (by omega) hinv

/-- Where every round takes a token, a loop ends at a place where the step gives nothing. -/
theorem wp_iterate_of_progress (h : Inv s ts) : wp (iterate step s) ctx ts Done E :=
  wp_iterateFor_of_progress Inv Done hstep _ (by simp) h

end

section

variable {item : Parser (Option α)} (Inv : List α → List Token → Prop)
  (hitem : ∀ as ts, Inv as ts → wp item ctx ts (fun o rest => Inv (as ++ o.toList) rest) E)
include hitem

theorem wp_collectFor (as : List α) (bound : List Token) (h : Inv as ts) :
    wp (collectFor item bound) ctx ts (fun more rest => Inv (as ++ more) rest) E := by
  induction bound generalizing as ts with
  | nil => simpa [collectFor] using h
  | cons _ bound ih =>
    simp only [collectFor, wp_bind]
    refine wp_imp (hitem as ts h) ?_
    intro o rest ho
    cases o with
    | none => exact ho
    | some a => simpa using ih (as ++ [a]) ho

/-- What every further item keeps of the items so far holds of all of them. -/
theorem wp_collect (h : Inv [] ts) : wp (collect item) ctx ts Inv E :=
  wp_collectFor Inv hitem [] _ h

end

/-- The items begin with the first one that is found. -/
theorem wp_collect_head {item : Parser (Option α)} {a : α} {mid : List Token}
    (h : item ctx ts = .ok (some a) mid) :
    wp (collect item) ctx ts (fun as _ => ∃ more, as = a :: more) (fun _ _ => True) := by
  change wp (collectFor item (ctx.endToken :: ts)) ctx ts _ _
  simp only [collectFor, wp_bind, wp_of_ok h, wp_pure]
  refine wp_imp (wp_trivial _ _ _) ?_
  exact fun more _ _ => ⟨more, rfl⟩

section

variable {item : Parser (Option α)} (Inv Done : List α → List Token → Prop)
  (hitem : ∀ as ts, Inv as ts → wp item ctx ts
    (fun o rest => (o = none → Done as rest) ∧
      ∀ a, o = some a → rest.length < ts.length ∧ Inv (as ++ [a]) rest) E)
include hitem

theorem wp_collectFor_of_progress (as : List α) (bound : List Token)
    (hbound : ts.length < bound.length) (h : Inv as ts) :
    wp (collectFor item bound) ctx ts (fun more rest => Done (as ++ more) rest) E := by
  induction bound generalizing as ts with
  | nil => exact absurd hbound (Nat.not_lt_zero _)
  | cons _ bound ih =>
    simp only [collectFor, wp_bind]
    refine wp_imp (hitem as ts h) ?_
    intro o rest ho
    cases o with
    | none => simpa using ho.1 rfl
    | some a =>
      obtain ⟨hlen, hinv⟩ := ho.2 a rfl
      rw [List.length_cons] at hbound
      simpa using ih (as ++ [a]) (by omega) hinv

/-- Where every item takes a token, the items end at a place where there is none. -/
theorem wp_collect_of_progress (h : Inv [] ts) : wp (collect item) ctx ts Done E :=
  wp_collectFor_of_progress Inv Done hitem [] _ (by simp) h

end

end Parser

end PineScript
