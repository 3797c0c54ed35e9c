import PineScript.Token
import PineScript.Tree.Expr

/-!
# The grammar of expressions

A sequence of code tokens derives an expression. From loose to tight there are the choice, which
groups to the right, six levels of binary operators, which group to the left, chains of signs, calls
and subscripts, and what stands alone. A parenthesis, an argument, a subscript and both branches of
a choice hold an expression of their own; `Expression n` allows `n` of them inside each other.

The tree is the one with ranges: an operation ranges over its operands without the parentheses around
them, a call and a subscript range up to the bracket that closes them.
-/

namespace PineScript

/-! ## Tokens of the grammar -/

/-- How tightly an operator binds; the loosest level is zero. -/
def BinaryOp.precedence : BinaryOp → Nat
  | or => 0
  | and => 1
  | equal | notEqual => 2
  | less | greater | lessEqual | greaterEqual => 3
  | add | subtract => 4
  | multiply | divide | modulo => 5

/-- The operators that are words are key words. -/
def BinaryOp.kind : BinaryOp → TokenKind
  | or | and => .keyword
  | _ => .operator

def UnaryOp.kind : UnaryOp → TokenKind
  | not => .keyword
  | minus | plus => .operator

def Literal.kind : Literal → TokenKind
  | number _ => .number
  | string _ => .string
  | color _ => .color
  | bool _ => .keyword

/-- The token is this operator. -/
def BinaryOp.Written (op : BinaryOp) (t : Token) : Prop := t.kind = op.kind ∧ t.text = op.text

/-- The token is this sign. -/
def UnaryOp.Written (op : UnaryOp) (t : Token) : Prop := t.kind = op.kind ∧ t.text = op.text

/-- The token is this literal. -/
def Literal.Written (v : Literal) (t : Token) : Prop := t.kind = v.kind ∧ t.text = v.text

namespace Grammar

/-- Items with commas between them; one more comma may stand behind the last item. -/
inductive Listed {α : Type} (item : List Token → α → Prop) : List Token → List α → Prop
  | none : Listed item [] []
  | last {ts : List Token} {a : α} (ha : item ts a) : Listed item ts [a]
  | more {ts us : List Token} {comma : Token} {a : α} {as : List α} (ha : item ts a)
      (hcomma : comma.isPunctuation ",") (has : Listed item us as) :
      Listed item (ts ++ comma :: us) (a :: as)

section Levels

variable (nested : List Token → Expr → Prop)

/-- What stands alone. -/
inductive Primary : List Token → Expr → Prop
  | literal {t : Token} {v : Literal} (ht : v.Written t) : Primary [t] (.literal t.range v)
  | name {t : Token} (ht : t.isIdentifier) : Primary [t] (.name ⟨t.range, t.text⟩)
  | parens {o c : Token} {ts : List Token} {e : Expr} (ho : o.isPunctuation "(") (he : nested ts e)
      (hc : c.isPunctuation ")") : Primary (o :: (ts ++ [c])) e

inductive Argument : List Token → PineScript.Argument → Prop
  | positional {ts : List Token} {e : Expr} (he : nested ts e) : Argument ts (.positional e)
  | named {t q : Token} {ts : List Token} {e : Expr} (ht : t.isIdentifier) (hq : q.isOperator "=")
      (he : nested ts e) :
      Argument (t :: q :: ts) (.named ⟨t.range.start, e.range.stop⟩ ⟨t.range, t.text⟩ e)

/-- Calls and subscripts. -/
inductive Postfix : List Token → Expr → Prop
  | primary {ts : List Token} {e : Expr} (he : Primary nested ts e) : Postfix ts e
  | call {o c : Token} {ts us : List Token} {e : Expr} {arguments : List PineScript.Argument}
      (he : Postfix ts e) (ho : o.isPunctuation "(") (hargs : Listed (Argument nested) us arguments)
      (hc : c.isPunctuation ")") :
      Postfix (ts ++ o :: (us ++ [c])) (.call ⟨e.range.start, c.range.stop⟩ e arguments)
  | index {o c : Token} {ts us : List Token} {e subscript : Expr} (he : Postfix ts e)
      (ho : o.isPunctuation "[") (hsub : nested us subscript) (hc : c.isPunctuation "]") :
      Postfix (ts ++ o :: (us ++ [c])) (.index ⟨e.range.start, c.range.stop⟩ e subscript)

/-- Chains of signs. -/
inductive Unary : List Token → Expr → Prop
  | operand {ts : List Token} {e : Expr} (he : Postfix nested ts e) : Unary ts e
  | sign {t : Token} {op : UnaryOp} {ts : List Token} {e : Expr} (ht : op.Written t)
      (he : Unary ts e) : Unary (t :: ts) (.unary ⟨t.range.start, e.range.stop⟩ op e)

/-- Operations of one level and the tighter ones; behind the tightest level stand signs. -/
inductive Binary : Nat → List Token → Expr → Prop
  | unary {ts : List Token} {e : Expr} (he : Unary nested ts e) : Binary 6 ts e
  | tighter {k : Nat} {ts : List Token} {e : Expr} (he : Binary (k + 1) ts e) : Binary k ts e
  | operation {k : Nat} {t : Token} {op : BinaryOp} {ts us : List Token} {left right : Expr}
      (hleft : Binary k ts left) (hop : op.precedence = k) (ht : op.Written t)
      (hright : Binary (k + 1) us right) :
      Binary k (ts ++ t :: us) (.binary ⟨left.range.start, right.range.stop⟩ op left right)

theorem Binary.le_six {nested : List Token → Expr → Prop} {k : Nat} {ts : List Token} {e : Expr}
    (h : Binary nested k ts e) : k ≤ 6 := by
  induction h with
  | unary => exact Nat.le_refl 6
  | tighter _ ih => exact Nat.le_of_succ_le ih
  | operation _ _ _ _ ih => exact ih

/-- The choice between two expressions. -/
inductive Ternary : List Token → Expr → Prop
  | binary {ts : List Token} {e : Expr} (he : Binary nested 0 ts e) : Ternary ts e
  | choice {q c : Token} {ts us vs : List Token} {condition whenTrue whenFalse : Expr}
      (hcond : Binary nested 0 ts condition) (hq : q.isOperator "?") (htrue : nested us whenTrue)
      (hc : c.isOperator ":") (hfalse : nested vs whenFalse) :
      Ternary (ts ++ q :: (us ++ c :: vs))
        (.ternary ⟨condition.range.start, whenFalse.range.stop⟩ condition whenTrue whenFalse)

end Levels

/-- The tokens derive the expression with at most so many expressions inside each other. -/
def Expression : Nat → List Token → Expr → Prop
  | 0 => fun _ _ => False
  | n + 1 => Ternary (Expression n)

end Grammar

end PineScript
