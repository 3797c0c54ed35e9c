import PineScript.Parser.Stmt
import PineScript.Proofs.Grammar
import PineScript.Proofs.Parser.Run

/-!
# The shape of expressions

What can be said of the tokens of an expression without reading it: how it begins, what follows a
name at its beginning, and that its brackets match. Statements are told apart by these.
-/

namespace PineScript

namespace Token

/-- An expression may begin with the token. -/
def Opens (t : Token) : Prop :=
  (∃ v : Literal, v.Written t) ∨ t.isIdentifier ∨ (∃ op : UnaryOp, op.Written t) ∨
    t.isPunctuation "("

/-- The token would carry on an expression in front of it. -/
def Continues (t : Token) : Prop :=
  t.isPunctuation "(" ∨ t.isPunctuation "[" ∨ t.isOperator "?" ∨
    ∃ op : BinaryOp, (t.kind = .operator ∨ t.kind = .keyword) ∧ t.text = op.text

/-- The kinds of tokens that begin an expression; a bracket among them is an open parenthesis. -/
theorem Opens.kind {t : Token} (h : t.Opens) :
    t.kind ∈ [.number, .string, .color, .keyword, .identifier, .operator] ∨
      t.isPunctuation "(" = true := by
  rcases h with ⟨v, hkind, -⟩ | h | ⟨op, hkind, -⟩ | h
  · cases v <;> simp [hkind, Literal.kind]
  · simp [Token.isIdentifier_iff.1 h]
  · cases op <;> simp [hkind, UnaryOp.kind]
  · exact .inr h

theorem Opens.isLayout_eq_false {t : Token} (h : t.Opens) : t.isLayout = false := by
  have := h.kind
  grind

theorem Opens.isLineEnd_eq_false {t : Token} (h : t.Opens) : t.isLineEnd = false := by
  have := h.kind
  grind

theorem Opens.not_closeParen {t : Token} (h : t.Opens) : t.isPunctuation ")" = false := by
  have := h.kind
  grind

theorem Continues.isLayout_eq_false {t : Token} (h : t.Continues) : t.isLayout = false := by
  rcases h with h | h | h | ⟨op, h, -⟩ <;> grind

theorem Continues.not_identifier {t : Token} (h : t.Continues) : t.isIdentifier = false := by
  rcases h with h | h | h | ⟨op, h, -⟩ <;> grind

/-- Of the punctuation only opening brackets carry one on. -/
theorem Continues.of_punctuation {t : Token} {mark : String} (h : t.Continues)
    (ht : t.isPunctuation mark = true) : mark = "(" ∨ mark = "[" := by
  obtain ⟨hkind, rfl⟩ := isPunctuation_iff.1 ht
  rcases h with h | h | h | ⟨op, h | h, -⟩
  · exact .inl (isPunctuation_iff.1 h).2
  · exact .inr (isPunctuation_iff.1 h).2
  · exact absurd (hkind.symm.trans (isOperator_iff.1 h).1) (by decide)
  · exact absurd (hkind.symm.trans h) (by decide)
  · exact absurd (hkind.symm.trans h) (by decide)

/-- Of the operators only those of expressions carry one on. -/
theorem Continues.not_operator {t : Token} {text : String} (h : t.Continues) (hq : text ≠ "?")
    (hop : ∀ op : BinaryOp, text ≠ op.text) : t.isOperator text = false := by
  rcases h with h | h | h | ⟨op, -, h⟩
  · grind
  · grind
  · grind
  · have := hop op
    grind

theorem Continues.not_equals {t : Token} (h : t.Continues) : t.isOperator "=" = false :=
  h.not_operator (by decide) (by intro op; cases op <;> decide)

end Token

theorem BinaryOp.Written.loose {op : BinaryOp} {t : Token} (h : op.Written t) :
    (t.kind = .operator ∨ t.kind = .keyword) ∧ t.text = op.text := by
  obtain ⟨hkind, htext⟩ := h
  refine ⟨?_, htext⟩
  cases op <;> simp [hkind, BinaryOp.kind]

theorem BinaryOp.Written.continues {op : BinaryOp} {t : Token} (h : op.Written t) : t.Continues :=
  .inr (.inr (.inr ⟨op, h.loose⟩))

namespace Grammar

open PineScript.Parser (behindClosing)

/-! ## Matching brackets -/

/-- The tokens close every bracket that they open, and no other. -/
def Balanced (ts : List Token) : Prop :=
  ∀ depth rest, behindClosing (depth + 1) (ts ++ rest) = behindClosing (depth + 1) rest

theorem Balanced.nil : Balanced [] := fun _ _ => rfl

theorem Balanced.append {ts us : List Token} (hts : Balanced ts) (hus : Balanced us) :
    Balanced (ts ++ us) := by
  intro depth rest
  rw [List.append_assoc, hts, hus]

theorem Balanced.cons {t : Token} {ts : List Token} (ht : t.kind ≠ .punctuation ∨ t.text = ",")
    (hts : Balanced ts) : Balanced (t :: ts) := by
  intro depth rest
  have hopen : (t.isPunctuation "(" || t.isPunctuation "[") = false := by grind
  have hclose : (t.isPunctuation ")" || t.isPunctuation "]") = false := by grind
  simp only [List.cons_append, behindClosing, hopen, hclose, Bool.false_eq_true, ↓reduceIte]
  exact hts depth rest

theorem Balanced.of_names {words : List Token} (h : ∀ t ∈ words, t.isIdentifier) : Balanced words := by
  induction words with
  | nil => exact .nil
  | cons t words ih =>
    refine .cons (.inl ?_) (ih fun u hu => h u (List.mem_cons_of_mem t hu))
    simp [Token.isIdentifier_iff.1 (h t List.mem_cons_self)]

theorem behindClosing_open {o : Token} (ho : o.isPunctuation "(" ∨ o.isPunctuation "[")
    (depth : Nat) (rest : List Token) :
    behindClosing depth (o :: rest) = behindClosing (depth + 1) rest := by
  have hopen : (o.isPunctuation "(" || o.isPunctuation "[") = true := by simpa using ho
  simp [behindClosing, hopen]

theorem behindClosing_close {c : Token} (hc : c.isPunctuation ")" ∨ c.isPunctuation "]")
    (depth : Nat) (rest : List Token) :
    behindClosing depth (c :: rest) =
      if depth ≤ 1 then some rest else behindClosing (depth - 1) rest := by
  have hopen : (c.isPunctuation "(" || c.isPunctuation "[") = false := by grind
  have hclose : (c.isPunctuation ")" || c.isPunctuation "]") = true := by simpa using hc
  simp [behindClosing, hopen, hclose]

theorem Balanced.bracket {o c : Token} {ts : List Token}
    (ho : o.isPunctuation "(" ∨ o.isPunctuation "[") (hts : Balanced ts)
    (hc : c.isPunctuation ")" ∨ c.isPunctuation "]") : Balanced (o :: (ts ++ [c])) := by
  intro depth rest
  rw [List.cons_append, behindClosing_open ho, List.append_assoc, hts, List.singleton_append,
    behindClosing_close hc]
  simp

/-! ## Phrases -/

/-- What the tokens of an expression look like. -/
structure Phrase (ts : List Token) : Prop where
  opens : ∃ t more, ts = t :: more ∧ t.Opens
  balanced : Balanced ts
  /-- A name at the beginning stands alone or is carried on. -/
  second : ∀ t u more, ts = t :: u :: more → t.isIdentifier → u.Continues
  /-- The list behind a name at the beginning ends the phrase or is carried on. -/
  call : ∀ t o more, ts = t :: o :: more → t.isIdentifier → o.isPunctuation "(" →
    ∃ left, (∀ rest, behindClosing 1 (more ++ rest) = some (left ++ rest)) ∧
      ∀ u us, left = u :: us → u.Continues

theorem Phrase.singleton {t : Token} (hopen : t.Opens) (ht : t.kind ≠ .punctuation) :
    Phrase [t] where
  opens := ⟨t, [], rfl, hopen⟩
  balanced := .cons (.inl ht) .nil
  second := by simp
  call := by simp

/-- A phrase that does not begin with a name. -/
theorem Phrase.of_not_identifier {t : Token} {ts : List Token} (hopen : t.Opens)
    (ht : t.isIdentifier = false) (hbal : Balanced (t :: ts)) : Phrase (t :: ts) where
  opens := ⟨t, ts, rfl, hopen⟩
  balanced := hbal
  second := by
    intro u v more heq hu
    cases heq
    simp [ht] at hu
  call := by
    intro u o more heq hu
    cases heq
    simp [ht] at hu

/-- A phrase is carried on by a token and what belongs to it. If the phrase is a single name, the
token must not open a list. -/
theorem Phrase.extend {x : Token} {ts us : List Token} (hts : Phrase ts) (hx : x.Continues)
    (hbal : Balanced (x :: us)) (hlist : x.isPunctuation "(" = true → 2 ≤ ts.length) :
    Phrase (ts ++ x :: us) where
  opens := by
    obtain ⟨t, more, rfl, hopen⟩ := hts.opens
    exact ⟨t, more ++ x :: us, rfl, hopen⟩
  balanced := hts.balanced.append hbal
  second := by
    intro t u more heq ht
    obtain ⟨t', more', rfl, -⟩ := hts.opens
    cases more' with
    | nil => cases heq; exact hx
    | cons u' more' => cases heq; exact hts.second _ _ _ rfl ht
  call := by
    intro t o more heq ht ho
    obtain ⟨t', more', rfl, -⟩ := hts.opens
    cases more' with
    | nil =>
      cases heq
      have := hlist ho
      simp at this
    | cons u' more' =>
      cases heq
      obtain ⟨left, hclosing, hleft⟩ := hts.call _ _ _ rfl ht ho
      refine ⟨left ++ x :: us, ?_, ?_⟩
      · intro rest
        change behindClosing 1 (more' ++ x :: us ++ rest) = _
        rw [List.append_assoc, List.append_assoc, hclosing]
      · intro u vs hu
        cases left with
        | nil => cases hu; exact hx
        | cons => cases hu; exact hleft _ _ rfl

/-- A list behind a phrase, which may be a single name. -/
theorem Phrase.call_list {o c : Token} {ts us : List Token} (hts : Phrase ts)
    (ho : o.isPunctuation "(") (hus : Balanced us) (hc : c.isPunctuation ")") :
    Phrase (ts ++ o :: (us ++ [c])) := by
  have hbal : Balanced (o :: (us ++ [c])) := .bracket (.inl ho) hus (.inl hc)
  obtain ⟨t, more, rfl, hopen⟩ := hts.opens
  cases more with
  | cons u more => exact hts.extend (.inl ho) hbal (by simp)
  | nil =>
    refine ⟨⟨t, _, rfl, hopen⟩, hts.balanced.append hbal, ?_, ?_⟩
    · intro t' u more heq _
      cases heq
      exact .inl ho
    · intro t' o' more heq _ _
      cases heq
      refine ⟨[], ?_, by simp⟩
      intro rest
      rw [List.append_assoc, hus, List.singleton_append, behindClosing_close (.inl hc)]
      simp

/-! ## Expressions are phrases -/

theorem Listed.balanced {α : Type} {item : List Token → α → Prop} {ts : List Token} {as : List α}
    (h : Listed item ts as) (hitem : ∀ ts a, item ts a → Balanced ts) : Balanced ts := by
  induction h with
  | none => exact .nil
  | last ha => exact hitem _ _ ha
  | more ha hcomma _ ih =>
    exact (hitem _ _ ha).append (.cons (.inr (Token.isPunctuation_iff.1 hcomma).2) ih)

section Levels

variable {nested : List Token → Expr → Prop} (hnested : ∀ ts e, nested ts e → Phrase ts)
include hnested

theorem Primary.phrase {ts : List Token} {e : Expr} (h : Primary nested ts e) : Phrase ts := by
  cases h with
  | @literal t v ht =>
    refine .singleton (.inl ⟨v, ht⟩) ?_
    rw [ht.1]
    cases v <;> simp [Literal.kind]
  | name ht => exact .singleton (.inr (.inl ht)) (by grind)
  | parens ho he hc =>
    exact .of_not_identifier (.inr (.inr (.inr ho))) (by grind)
      (.bracket (.inl ho) (hnested _ _ he).balanced (.inl hc))

theorem Argument.balanced {ts : List Token} {a : PineScript.Argument} (h : Argument nested ts a) :
    Balanced ts := by
  cases h with
  | positional he => exact (hnested _ _ he).balanced
  | named ht hq he =>
    exact .cons (.inl (by grind)) (.cons (.inl (by grind)) (hnested _ _ he).balanced)

theorem Postfix.phrase {ts : List Token} {e : Expr} (h : Postfix nested ts e) : Phrase ts := by
  induction h with
  | primary he => exact he.phrase hnested
  | call _ ho hargs hc ih =>
    exact ih.call_list ho (hargs.balanced fun _ _ ha => ha.balanced hnested) hc
  | index _ ho hsub hc ih =>
    exact ih.extend (.inr (.inl ho)) (.bracket (.inr ho) (hnested _ _ hsub).balanced (.inr hc))
      (by grind)

theorem Unary.phrase {ts : List Token} {e : Expr} (h : Unary nested ts e) : Phrase ts := by
  induction h with
  | operand he => exact he.phrase hnested
  | @sign t op _ _ ht _ ih =>
    have hkind : t.kind = .keyword ∨ t.kind = .operator := by
      rw [ht.1]
      cases op <;> simp [UnaryOp.kind]
    exact .of_not_identifier (.inr (.inr (.inl ⟨op, ht⟩))) (by grind)
      (.cons (.inl (by grind)) ih.balanced)

theorem Binary.phrase {k : Nat} {ts : List Token} {e : Expr} (h : Binary nested k ts e) :
    Phrase ts := by
  induction h with
  | unary he => exact he.phrase hnested
  | tighter _ ih => exact ih
  | operation _ _ ht _ ihl ihr =>
    have hkind := ht.loose.1
    exact ihl.extend ht.continues (.cons (.inl (by grind)) ihr.balanced) (by grind)

theorem Ternary.phrase {ts : List Token} {e : Expr} (h : Ternary nested ts e) : Phrase ts := by
  cases h with
  | binary he => exact he.phrase hnested
  | @choice q c _ us vs _ _ _ hcond hq htrue hc hfalse =>
    have hrest : Balanced (us ++ c :: vs) :=
      (hnested _ _ htrue).balanced.append (.cons (.inl (by grind)) (hnested _ _ hfalse).balanced)
    exact (hcond.phrase hnested).extend (.inr (.inr (.inl hq))) (.cons (.inl (by grind)) hrest)
      (by grind)

end Levels

theorem Expression.phrase {n : Nat} {ts : List Token} {e : Expr} (h : Expression n ts e) :
    Phrase ts := by
  induction n generalizing ts e with
  | zero => exact h.elim
  | succ n ih => exact Ternary.phrase (fun _ _ he => ih he) h

end Grammar

end PineScript
