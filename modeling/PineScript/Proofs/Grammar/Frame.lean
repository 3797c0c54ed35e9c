import PineScript.Proofs.Grammar.Statement
import PineScript.Proofs.Parser.Run

/-!
# Ranges over code

The range of an expression runs over its own code: the parentheses around it, which derive nothing,
stand outside. So it is with the lines of a script. What a line's range leaves out are parentheses,
the `else` in front of an `if`, and the end of a list of parameters.
-/

namespace PineScript

/-- The tokens begin at the position. -/
def Token.Begins (p : Position) (ts : List Token) : Prop :=
  ∃ t, ts.head? = some t ∧ t.range.start = p

/-- The tokens end at the position. -/
def Token.Ceases (p : Position) (ts : List Token) : Prop :=
  ∃ t, ts.getLast? = some t ∧ t.range.stop = p

/-- The tokens fill the range. -/
structure Token.Fills (r : Range) (ts : List Token) : Prop where
  begins : Token.Begins r.start ts
  ceases : Token.Ceases r.stop ts

namespace Token

variable {p : Position} {r s : Range} {t : Token} {ts us : List Token}

theorem Begins.cons (t : Token) (ts : List Token) : Begins t.range.start (t :: ts) := ⟨t, rfl, rfl⟩

theorem Begins.append (h : Begins p ts) (us : List Token) : Begins p (ts ++ us) := by
  obtain ⟨t, ht, hp⟩ := h
  exact ⟨t, by simp [ht], hp⟩

theorem Ceases.append (h : Ceases p us) (ts : List Token) : Ceases p (ts ++ us) := by
  obtain ⟨t, ht, hp⟩ := h
  exact ⟨t, by simp [ht], hp⟩

theorem Ceases.singleton (t : Token) : Ceases t.range.stop [t] := ⟨t, rfl, rfl⟩

theorem Ceases.cons (h : Ceases p ts) (t : Token) : Ceases p (t :: ts) := h.append [t]

end Token

namespace Grammar

open Token (Begins Ceases Fills)

/-- The range runs over tokens of its own, with these kinds of tokens before and behind them. -/
def Framed (opening closing : Token → Prop) (r : Range) (ts : List Token) : Prop :=
  ∃ before own after, ts = before ++ (own ++ after) ∧ (∀ t ∈ before, opening t) ∧
    (∀ t ∈ after, closing t) ∧ Fills r own

/-- The range leaves out parentheses only. -/
abbrev Parenthesized : Range → List Token → Prop :=
  Framed (·.isPunctuation "(" = true) (·.isPunctuation ")" = true)

section

variable {opening closing opening' closing' : Token → Prop} {r : Range} {ts : List Token}

theorem Framed.mono (h : Framed opening closing r ts) (hopening : ∀ t, opening t → opening' t)
    (hclosing : ∀ t, closing t → closing' t) : Framed opening' closing' r ts := by
  obtain ⟨before, own, after, hts, hbefore, hafter, hfills⟩ := h
  exact ⟨before, own, after, hts, fun t ht => hopening t (hbefore t ht),
    fun t ht => hclosing t (hafter t ht), hfills⟩

/-- Code in front, from its beginning on. -/
theorem Framed.behind {front : List Token} {p : Position} (h : Framed opening closing r ts)
    (hfront : Begins p front) : Framed opening' closing ⟨p, r.stop⟩ (front ++ ts) := by
  obtain ⟨before, own, after, rfl, -, hafter, hfills⟩ := h
  refine ⟨[], front ++ (before ++ own), after, by simp, by simp, hafter, hfront.append _, ?_⟩
  exact (hfills.ceases.append _).append _

/-- Code behind, up to its end. -/
theorem Framed.before {behind : List Token} {p : Position} (h : Framed opening closing r ts)
    (hbehind : Ceases p behind) : Framed opening closing' ⟨r.start, p⟩ (ts ++ behind) := by
  obtain ⟨before, own, after, rfl, hbefore, -, hfills⟩ := h
  exact ⟨before, own ++ (after ++ behind), [], by simp, hbefore, by simp, hfills.begins.append _,
    (hbehind.append _).append _⟩

/-- From the first range to the second. -/
theorem Framed.span {r' : Range} {vs : List Token} (h : Framed opening closing r ts) (us : List Token)
    (h' : Framed opening' closing' r' vs) :
    Framed opening closing' ⟨r.start, r'.stop⟩ (ts ++ (us ++ vs)) := by
  obtain ⟨before, own, after, rfl, hbefore, -, hfills⟩ := h
  obtain ⟨before', own', after', rfl, -, hafter, hfills'⟩ := h'
  refine ⟨before, own ++ (after ++ us ++ before' ++ own'), after', by simp, hbefore, hafter,
    hfills.begins.append _, (hfills'.ceases.append _).append _⟩

theorem Framed.singleton (t : Token) : Framed opening closing t.range [t] :=
  ⟨[], [t], [], rfl, by simp, by simp, .cons t [], .singleton t⟩

end

/-! ## Expressions -/

section

variable {nested : List Token → Expr → Prop}
  (hnested : ∀ ts e, nested ts e → Parenthesized e.range ts)
include hnested

theorem Primary.framed {ts : List Token} {e : Expr} (h : Primary nested ts e) :
    Parenthesized e.range ts := by
  cases h with
  | literal => exact .singleton _
  | name => exact .singleton _
  | @parens o c ts e ho he hc =>
    obtain ⟨before, own, after, rfl, hbefore, hafter, hfills⟩ := hnested ts e he
    refine ⟨o :: before, own, after ++ [c], by simp, ?_, ?_, hfills⟩
    · simpa using ⟨ho, hbefore⟩
    · intro t ht
      rcases List.mem_append.1 ht with ht | ht
      · exact hafter t ht
      · rwa [List.mem_singleton.1 ht]

theorem Postfix.framed {ts : List Token} {e : Expr} (h : Postfix nested ts e) :
    Parenthesized e.range ts := by
  induction h with
  | primary he => exact he.framed hnested
  | call _ _ _ _ ih => exact ih.before (((Ceases.singleton _).append _).cons _)
  | index _ _ _ _ ih => exact ih.before (((Ceases.singleton _).append _).cons _)

theorem Unary.framed {ts : List Token} {e : Expr} (h : Unary nested ts e) :
    Parenthesized e.range ts := by
  induction h with
  | operand he => exact he.framed hnested
  | @sign t _ _ _ _ _ ih => exact ih.behind (.cons t [])

theorem Binary.framed {k : Nat} {ts : List Token} {e : Expr} (h : Binary nested k ts e) :
    Parenthesized e.range ts := by
  induction h with
  | unary he => exact he.framed hnested
  | tighter _ ih => exact ih
  | @operation _ t _ _ _ _ _ _ _ _ _ ihleft ihright => exact ihleft.span [t] ihright

theorem Ternary.framed {ts : List Token} {e : Expr} (h : Ternary nested ts e) :
    Parenthesized e.range ts := by
  cases h with
  | binary he => exact he.framed hnested
  | @choice q c _ us vs _ _ _ hcond _ _ _ hfalse =>
    have hspan := (hcond.framed hnested).span (q :: (us ++ [c])) (hnested vs _ hfalse)
    simp only [List.cons_append, List.append_assoc] at hspan
    exact hspan

end

theorem Expression.framed {n : Nat} {ts : List Token} {e : Expr} (h : Expression n ts e) :
    Parenthesized e.range ts := by
  induction n generalizing ts e with
  | zero => exact h.elim
  | succ n ih => exact Ternary.framed (fun _ _ => ih) h

theorem Value.framed {ts : List Token} {e : Expr} (h : Value ts e) : Parenthesized e.range ts := by
  obtain ⟨n, he⟩ := h
  exact he.framed

/-! ## Statements without a block -/

theorem Simple.framed {ts : List Token} {s : Stmt} (h : Simple Value ts s) :
    Parenthesized s.range ts := by
  cases h with
  | expression he => exact he.framed
  | @declaration ms tys ts first x q _ _ _ _ _ hfirst _ _ he =>
    have hbegins : Begins first.range.start (ms ++ (tys ++ [x])) :=
      ⟨first, by rw [← List.append_assoc]; exact hfirst, rfl⟩
    have hframed : Parenthesized _ _ := he.framed.behind (hbegins.append [q])
    simp only [List.append_assoc, List.cons_append, List.nil_append] at hframed
    exact hframed
  | @assignment ts x q _ _ _ _ he => exact he.framed.behind (.cons x [q])
  | jump => exact .singleton _
  | @returning t _ _ _ he => exact he.framed.behind (.cons t [])

/-! ## Headers -/

/-- What the end of a header's range leaves out. -/
def Trailing (t : Token) : Prop :=
  t.isPunctuation ")" = true ∨ t.isPunctuation "," = true ∨ t.isPunctuation "(" = true ∨
    t.isOperator "=>" = true

/-- What the beginning of a line's range leaves out. -/
def Leading (t : Token) : Prop := t.isPunctuation "(" = true ∨ t.isKeyword "else" = true

theorem Parenthesized.framed {r : Range} {ts : List Token} (h : Parenthesized r ts) :
    Framed Leading Trailing r ts :=
  h.mono (fun _ => .inl) fun _ => .inl

theorem Parameter.framed {ts : List Token} {p : PineScript.Parameter} (h : Parameter Value ts p) :
    Framed Leading Trailing p.range ts := by
  cases h with
  | plain _ hfirst hname =>
    exact ⟨[], ts, [], by simp, by simp, by simp, ⟨_, hfirst, rfl⟩, ⟨_, hname, rfl⟩⟩
  | @default words _ _ _ q _ _ hfirst _ _ he =>
    have hframed : Framed Leading _ _ _ :=
      he.framed.framed.behind (Begins.append ⟨_, hfirst, rfl⟩ [q])
    rw [List.append_assoc] at hframed
    exact hframed

/-- A list of parameters up to the end of the last one. -/
theorem Listed.ceases {ts : List Token} {ps : List PineScript.Parameter} {p : PineScript.Parameter}
    (h : Listed (Parameter Value) ts ps) (hlast : ps.getLast? = some p) :
    ∃ own after, ts = own ++ after ∧ (∀ t ∈ after, Trailing t) ∧ Ceases p.range.stop own := by
  induction h with
  | none => cases hlast
  | last ha =>
    obtain rfl : _ = p := by simpa using hlast
    obtain ⟨before, own, after, rfl, -, hafter, hfills⟩ := ha.framed
    exact ⟨before ++ own, after, by simp, hafter, hfills.ceases.append before⟩
  | @more ts us comma a as ha hcomma has ih =>
    cases as with
    | nil =>
      -- Only a comma may follow the last parameter.
      obtain rfl : a = p := by simpa using hlast
      obtain ⟨before, own, after, rfl, -, hafter, hfills⟩ := ha.framed
      cases has with
      | none =>
        refine ⟨before ++ own, after ++ [comma], by simp, fun t ht => ?_, hfills.ceases.append before⟩
        rcases List.mem_append.1 ht with ht | ht
        · exact hafter t ht
        · rw [List.mem_singleton.1 ht]
          exact .inr (.inl hcomma)
    | cons b bs =>
      rw [List.getLast?_cons_cons] at hlast
      obtain ⟨own, after, rfl, hafter, hceases⟩ := ih hlast
      exact ⟨ts ++ comma :: own, after, by simp, hafter, (hceases.cons comma).append ts⟩

theorem Header.framed {ts : List Token} {s : Stmt} (h : Header Value ts s) :
    Framed Leading Trailing s.header ts := by
  cases h with
  | simple h =>
    have hheader : s.header = s.range := by
      cases h <;> rfl
    rw [hheader]
    exact h.framed.framed
  | @conditional t ts condition stop body otherwise ht hcond =>
    exact hcond.framed.framed.behind (.cons t [])
  | @countingLoop t x q u ts us steps first last step stop body _ _ _ _ _ hlast hstep =>
    cases hstep with
    | none =>
      have hframed : Framed Leading _ _ _ :=
        hlast.framed.framed.behind (.cons t (x :: q :: (ts ++ [u])))
      simp only [List.cons_append, List.append_assoc, List.nil_append] at hframed
      rw [List.append_nil]
      exact hframed
    | some hb =>
      obtain ⟨b, vs, rfl, -, hstep⟩ := hb
      have hframed : Framed Leading _ _ _ :=
        hstep.framed.framed.behind (.cons t (x :: q :: (ts ++ u :: (us ++ [b]))))
      simp only [List.cons_append, List.append_assoc, List.nil_append] at hframed
      exact hframed
  | @iteratingLoop t x i ts collection stop body _ _ _ he =>
    exact he.framed.framed.behind (.cons t [x, i])
  | @whileLoop t ts condition stop body ht hcond => exact hcond.framed.framed.behind (.cons t [])
  | @lineFunction x o c a ps ts parameters e _ _ _ _ _ he =>
    have hframed : Framed Leading _ _ _ := he.framed.framed.behind (.cons x (o :: (ps ++ [c, a])))
    simp only [List.cons_append, List.append_assoc, List.nil_append] at hframed
    exact hframed
  | @blockFunction x o c a ps parameters stop body _ ho hps hc ha =>
    -- The range ends with the last parameter, or with the name if there is none.
    have hend : ∀ t ∈ [c, a], Trailing t := by
      simpa using ⟨.inl hc, .inr (.inr (.inr ha))⟩
    simp only [Stmt.header]
    cases hlast : parameters.getLast? with
    | some last =>
      obtain ⟨own, after, rfl, hafter, hceases⟩ := hps.ceases hlast
      refine ⟨[], x :: o :: own, after ++ [c, a], by simp, by simp, ?_, .cons x _,
        (hceases.cons o).cons x⟩
      intro t ht
      exact (List.mem_append.1 ht).elim (hafter t) (hend t)
    | none =>
      rw [List.getLast?_eq_none_iff] at hlast
      subst hlast
      cases hps with
      | none =>
        refine ⟨[], [x], [o, c, a], rfl, by simp, ?_, .cons x [], .singleton x⟩
        intro t ht
        rcases List.mem_cons.1 ht with rfl | ht
        · exact .inr (.inr (.inl ho))
        · exact hend t ht
  | malformed hfirst hlast =>
    exact ⟨[], ts, [], by simp, by simp, by simp, ⟨_, hfirst, rfl⟩, ⟨_, hlast, rfl⟩⟩

end Grammar

/-- The range of a line that a statement begins on. -/
theorem Head.Spelled.framed {head : Head} {ts : List Token} {s : Stmt} (h : head.Spelled ts)
    (hs : head.stmt? = some s) : Grammar.Framed Grammar.Leading Grammar.Trailing s.header ts := by
  cases h with
  | statement h =>
    cases hs
    exact h.framed
  | @elseIf b t ts ht h =>
    cases hs
    obtain ⟨before, own, after, rfl, hbefore, hafter, hfills⟩ := h.framed
    exact ⟨t :: before, own, after, rfl, by simpa using ⟨.inr ht, hbefore⟩, hafter, hfills⟩
  | «else» => cases hs

end PineScript
