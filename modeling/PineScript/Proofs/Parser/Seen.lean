import PineScript.Proofs.Parser.Beyond

/-!
# What is seen next

Which tokens a reader sees, where its tests fail, and how its sequences and loops are taken apart. A
loop in which every round takes a token does not depend on its bound.
-/

namespace PineScript

namespace Context

/-- The tokens that are seen. -/
def seen (ctx : Context) (ts : List Token) : List Token := ts.filter fun t => !ctx.skips t

theorem seen_append (ctx : Context) (ts us : List Token) :
    ctx.seen (ts ++ us) = ctx.seen ts ++ ctx.seen us :=
  List.filter_append ..

theorem mem_seen {ctx : Context} {ts : List Token} {t : Token} (ht : t ∈ ts)
    (h : ctx.skips t = false) : t ∈ ctx.seen ts :=
  List.mem_filter.2 ⟨ht, by simp [h]⟩

theorem seen_of_dropWhile {ctx : Context} {ts more : List Token} {t : Token}
    (h : ts.dropWhile ctx.skips = t :: more) : ctx.seen ts = t :: ctx.seen more := by
  induction ts with
  | nil => cases h
  | cons u ts ih =>
    cases hu : ctx.skips u with
    | true =>
      rw [List.dropWhile_cons_of_pos hu] at h
      exact (List.filter_cons_of_neg (by simp [hu])).trans (ih h)
    | false =>
      rw [List.dropWhile_cons_of_neg (by simp [hu])] at h
      cases h
      exact List.filter_cons_of_pos (by simp [hu])

theorem lookahead_eq_seen (ctx : Context) (n : Nat) (ts : List Token) :
    ctx.lookahead n ts = (ctx.seen ts)[n]?.getD ctx.endToken := by
  induction ts generalizing n with
  | nil => simp [seen]
  | cons t ts ih =>
    cases h : ctx.skips t with
    | true => simpa [lookahead_of_skipped, seen, h] using ih n
    | false =>
      cases n with
      | zero => simp [lookahead_zero_of_seen, seen, h]
      | succ n => simpa [lookahead_succ_of_seen, seen, h] using ih n

/-- What is seen does not depend on the statement that is being read. -/
theorem lookahead_margin (ctx : Context) (margin : Option Int) (n : Nat) (ts : List Token) :
    lookahead { ctx with margin := margin } n ts = ctx.lookahead n ts := by
  rw [lookahead_eq_seen, lookahead_eq_seen]
  rfl

end Context

/-! ## Tests at the end of a line -/

namespace Token

variable {t : Token} (h : t.isLineEnd = true)
include h

theorem isIdentifier_of_lineEnd : t.isIdentifier = false := by grind

theorem isKeyword_of_lineEnd (word : String) : t.isKeyword word = false := by grind

theorem isOperator_of_lineEnd (text : String) : t.isOperator text = false := by grind

theorem isPunctuation_of_lineEnd (mark : String) : t.isPunctuation mark = false := by grind

end Token

namespace Parser

theorem isLineEnd_of_jumpKind? {t : Token} {kind : JumpKind} (h : jumpKind? t = some kind) :
    t.isLineEnd = false := by
  unfold jumpKind? at h
  grind

theorem isLineEnd_of_assignOp? {t : Token} {op : AssignOp} (h : assignOp? t = some op) :
    t.isLineEnd = false := by
  unfold assignOp? at h
  grind

section

variable {t : Token} (h : t.isLineEnd = true)
include h

theorem eq_none_of_lineEnd {α : Type} {o : Option α} (ho : ∀ v, o = some v → t.isLineEnd = false) :
    o = none := by
  refine Option.eq_none_iff_forall_ne_some.2 fun v hv => ?_
  rw [ho v hv] at h
  cases h

theorem literal?_of_lineEnd : literal? t = none :=
  eq_none_of_lineEnd h fun _ hv => (literal?_kind hv).1

theorem unaryOp?_of_lineEnd : unaryOp? t = none :=
  eq_none_of_lineEnd h fun _ hv => (unaryOp?_kind hv).1

theorem binaryOp?_of_lineEnd (level : List BinaryOp) : binaryOp? level t = none :=
  eq_none_of_lineEnd h fun _ hv => (binaryOp?_kind hv).1

theorem modifier?_of_lineEnd : modifier? t = none := by
  unfold modifier?
  grind

theorem jumpKind?_of_lineEnd : jumpKind? t = none :=
  eq_none_of_lineEnd h fun _ => isLineEnd_of_jumpKind?

theorem assignOp?_of_lineEnd : assignOp? t = none :=
  eq_none_of_lineEnd h fun _ => isLineEnd_of_assignOp?

end

/-- The end of a line looks the same with and without a line break. -/
def Blind {α : Type} (k : Token → Parser α) : Prop :=
  ∀ t t' : Token, t.isLineEnd = true → t'.isLineEnd = true → k t = k t'

/-! ## Sequences -/

/-- A sequence succeeds if both of its parts do. -/
theorem exists_of_bind_ok {α β : Type} {p : Parser α} {g : α → Parser β} {ctx : Context}
    {ts rest : List Token} {v : β} (h : (p >>= g) ctx ts = .ok v rest) :
    ∃ a mid, p ctx ts = .ok a mid ∧ g a ctx mid = .ok v rest := by
  rw [bind_apply] at h
  cases hp : p ctx ts with
  | ok a mid =>
    rw [hp] at h
    exact ⟨a, mid, rfl, h⟩
  | fault e mid =>
    rw [hp] at h
    cases h

theorem discard_bind {α β : Type} (p : Parser α) (k : PUnit → Parser β) :
    ((discard p : Parser PUnit) >>= k) = (p >>= fun _ => k ⟨⟩) := by
  funext ctx ts
  rw [discard_eq_map, bind_apply, bind_apply, bind_apply]
  cases p ctx ts <;> rfl

theorem map_bind {α β γ : Type} (f : α → β) (p : Parser α) (k : β → Parser γ) :
    (f <$> p) >>= k = p >>= fun a => k (f a) := by
  funext ctx ts
  rw [map_eq_bind, bind_apply, bind_apply, bind_apply]
  cases p ctx ts <;> rfl

theorem pure_bind {α β : Type} (a : α) (k : α → Parser β) :
    (Pure.pure a : Parser α) >>= k = k a := rfl

theorem bind_pure {α : Type} (p : Parser α) : p >>= Pure.pure = p := by
  funext ctx ts
  rw [bind_apply]
  cases p ctx ts <;> rfl

theorem expect_of_test {test : Token → Bool} {wanted : Expected} {ctx : Context} {ts : List Token}
    (h : test (ctx.lookahead 0 ts) = true) : expect test wanted ctx ts = advance ctx ts := by
  rw [expect, bind_apply, peek_apply]
  simp only [h, ↓reduceIte]

theorem expect_of_not_test {test : Token → Bool} {wanted : Expected} {ctx : Context}
    {ts : List Token} (h : test (ctx.lookahead 0 ts) = false) :
    expect test wanted ctx ts = unexpected wanted ctx ts := by
  rw [expect, bind_apply, peek_apply]
  simp only [h, Bool.false_eq_true, ↓reduceIte]

theorem joinLine_of_not_carriesOn {spellings : List String} {ctx : Context} {ts : List Token}
    (h : ∀ margin t more, ctx.margin = some margin → ts.dropWhile Token.isLayout = t :: more →
      carriesOn margin spellings t = false) : joinLine spellings ctx ts = .ok () ts := by
  unfold joinLine
  split
  · rfl
  · split
    · rfl
    · split
      · rfl
      · rename_i hmargin _ _ _ _ hdrop
        rw [h _ _ _ hmargin hdrop]
        rfl

variable {ctx : Context} {ts : List Token} {α : Type}

theorem Takes.hungry {α β : Type} {p : Parser α} (hp : Takes p) {g : α → Parser β} (v : β)
    (rest : List Token) : (p >>= g) ctx [] ≠ .ok v rest := by
  intro h
  obtain ⟨a, mid, hread, -⟩ := exists_of_bind_ok h
  exact Nat.not_lt_zero _ ((wp_of_ok hread).1 (hp ctx [])).length_lt

theorem MayTake.short {α : Type} {p : Parser (Option α)} (hp : MayTake p) {a : α}
    {rest : List Token} (h : p ctx ts = .ok (some a) rest) : rest.length < ts.length :=
  (((wp_of_ok h).1 (hp ctx ts)).2 rfl).length_lt

/-! ## Loops without bounds

A loop in which every round takes a token does not depend on its bound. -/

section

variable {σ : Type} {step : σ → Parser (Option σ)}
  (hshort : ∀ state ctx ts next rest, step state ctx ts = .ok (some next) rest →
    rest.length < ts.length)
include hshort

theorem iterateFor_congr {bound bound' : List Token} (hbound : ts.length < bound.length)
    (hbound' : ts.length < bound'.length) (state : σ) :
    iterateFor step bound state ctx ts = iterateFor step bound' state ctx ts := by
  induction bound generalizing bound' state ts with
  | nil => exact absurd hbound (Nat.not_lt_zero _)
  | cons _ bound ih =>
    match bound', hbound' with
    | _ :: bound', hbound' =>
      simp only [iterateFor, bind_apply]
      cases hread : step state ctx ts with
      | fault e rest => rfl
      | ok o rest =>
        cases o with
        | none => rfl
        | some next =>
          have hlt := hshort state ctx ts next rest hread
          simp only [List.length_cons] at hbound hbound'
          exact ih (by omega) (by omega) next

theorem iterate_eq_bind (state : σ) :
    iterate step state = step state >>= fun
      | none => pure state
      | some next => iterate step next := by
  funext ctx ts
  simp only [iterate, iterateFor, bind_apply]
  cases hread : step state ctx ts with
  | fault e rest => rfl
  | ok o rest =>
    cases o with
    | none => rfl
    | some next => exact iterateFor_congr hshort (hshort _ _ _ _ _ hread) (by simp) next

end

section

variable {item : Parser (Option α)}
  (hshort : ∀ ctx ts a rest, item ctx ts = .ok (some a) rest → rest.length < ts.length)
include hshort

theorem collectFor_congr {bound bound' : List Token} (hbound : ts.length < bound.length)
    (hbound' : ts.length < bound'.length) :
    collectFor item bound ctx ts = collectFor item bound' ctx ts := by
  induction bound generalizing bound' ts with
  | nil => exact absurd hbound (Nat.not_lt_zero _)
  | cons _ bound ih =>
    match bound', hbound' with
    | _ :: bound', hbound' =>
      simp only [collectFor, bind_apply]
      cases hread : item ctx ts with
      | fault e rest => rfl
      | ok o rest =>
        cases o with
        | none => rfl
        | some a =>
          have hlt := hshort ctx ts a rest hread
          simp only [List.length_cons] at hbound hbound'
          simp only [bind_apply, @ih rest bound' (by omega) (by omega)]

theorem collect_eq_bind :
    collect item = item >>= fun
      | none => pure []
      | some a => collect item >>= fun more => pure (a :: more) := by
  funext ctx ts
  simp only [collect, collectFor, bind_apply]
  cases hread : item ctx ts with
  | fault e rest => rfl
  | ok o rest =>
    cases o with
    | none => rfl
    | some a =>
      have hlt := hshort ctx ts a rest hread
      have hsame := @collectFor_congr ctx rest _ item hshort ts (ctx.endToken :: rest) hlt (by simp)
      simp only [bind_apply, hsame]
      rfl

end

end Parser

end PineScript
