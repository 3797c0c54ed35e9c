import PineScript.Parser.Stmt
import PineScript.Proofs.Grammar

/-!
# The grammar of lines

A statement without a block is one logical line; of a statement with a block the header is one. The
code of a line derives the statement that it belongs to, ranges included: what is below a header is
left open. `Program.heads` lists what the lines of a script belong to, from top to bottom.
-/

namespace PineScript

namespace Grammar

/-- The tokens derive the value with some nesting. -/
def Value (ts : List Token) (e : Expr) : Prop := ∃ n, Expression n ts e

/-- What may be left out. -/
inductive Optional {α : Type} (item : List Token → α → Prop) : List Token → Option α → Prop
  | none : Optional item [] none
  | some {ts : List Token} {a : α} (ha : item ts a) : Optional item ts (some a)

section Values

variable (value : List Token → Expr → Prop)

/-- Words, the last of which is the name, and maybe a default. -/
inductive Parameter : List Token → PineScript.Parameter → Prop
  | plain {words : List Token} {first name : Token} (hwords : ∀ t ∈ words, t.isIdentifier)
      (hfirst : words.head? = some first) (hname : words.getLast? = some name) :
      Parameter words ⟨⟨first.range.start, name.range.stop⟩,
        Parser.typeOf words.dropLast, Parser.nameOf name, none⟩
  | default {words ts : List Token} {first name q : Token} {e : Expr}
      (hwords : ∀ t ∈ words, t.isIdentifier) (hfirst : words.head? = some first)
      (hname : words.getLast? = some name) (hq : q.isOperator "=") (he : value ts e) :
      Parameter (words ++ q :: ts) ⟨⟨first.range.start, e.range.stop⟩,
        Parser.typeOf words.dropLast, Parser.nameOf name, some e⟩

/-- Statements without a block. -/
inductive Simple : List Token → Stmt → Prop
  | expression {ts : List Token} {e : Expr} (he : value ts e) : Simple ts (.expression e)
  | declaration {ms tys ts : List Token} {first x q : Token} {modifier : Option Modifier}
      {typeName : Option String} {e : Expr}
      (hms : Optional (fun us m => ∃ t : Token, us = [t] ∧ t.isKeyword m.text) ms modifier)
      (htys : Optional (fun us text => ∃ t : Token, us = [t] ∧ t.isIdentifier ∧ t.text = text) tys
        typeName)
      (hfirst : (ms ++ tys ++ [x]).head? = some first) (hx : x.isIdentifier) (hq : q.isOperator "=")
      (he : value ts e) :
      Simple (ms ++ (tys ++ x :: q :: ts)) (.declaration ⟨first.range.start, e.range.stop⟩ modifier
        typeName (Parser.nameOf x) e)
  | assignment {ts : List Token} {x q : Token} {op : AssignOp} {e : Expr} (hx : x.isIdentifier)
      (hq : q.isOperator op.text) (he : value ts e) :
      Simple (x :: q :: ts) (.assignment ⟨x.range.start, e.range.stop⟩ (Parser.nameOf x) op e)
  | jump {t : Token} {kind : JumpKind} (ht : t.isKeyword kind.text) :
      Simple [t] (.jump t.range kind none)
  | returning {t : Token} {ts : List Token} {e : Expr} (ht : t.isKeyword JumpKind.return.text)
      (he : value ts e) :
      Simple (t :: ts) (.jump ⟨t.range.start, e.range.stop⟩ .return (some e))

/-- The lines of statements: headers, statements without a block and what could not be read. -/
inductive Header : List Token → Stmt → Prop
  | simple {ts : List Token} {s : Stmt} (h : Simple value ts s) : Header ts s
  | conditional {t : Token} {ts : List Token} {condition : Expr} {stop : Position} {body : Block}
      {otherwise : Otherwise} (ht : t.isKeyword "if") (hcond : value ts condition) :
      Header (t :: ts) (.conditional (.mk ⟨t.range.start, stop⟩ condition body otherwise))
  | countingLoop {t x q u : Token} {ts us steps : List Token} {first last : Expr}
      {step : Option Expr} {stop : Position} {body : Block} (ht : t.isKeyword "for")
      (hx : x.isIdentifier) (hq : q.isOperator "=") (hfirst : value ts first)
      (hu : u.isKeyword "to") (hlast : value us last)
      (hstep : Optional (fun vs e => ∃ b vs', vs = b :: vs' ∧ b.isKeyword "by" ∧ value vs' e) steps
        step) :
      Header (t :: x :: q :: (ts ++ u :: (us ++ steps)))
        (.countingLoop ⟨t.range.start, stop⟩ (Parser.nameOf x) first last step body)
  | iteratingLoop {t x i : Token} {ts : List Token} {collection : Expr} {stop : Position}
      {body : Block} (ht : t.isKeyword "for") (hx : x.isIdentifier) (hi : i.isKeyword "in")
      (he : value ts collection) :
      Header (t :: x :: i :: ts)
        (.iteratingLoop ⟨t.range.start, stop⟩ (Parser.nameOf x) collection body)
  | whileLoop {t : Token} {ts : List Token} {condition : Expr} {stop : Position} {body : Block}
      (ht : t.isKeyword "while") (hcond : value ts condition) :
      Header (t :: ts) (.whileLoop ⟨t.range.start, stop⟩ condition body)
  | lineFunction {x o c a : Token} {ps ts : List Token} {parameters : List PineScript.Parameter}
      {e : Expr} (hx : x.isIdentifier) (ho : o.isPunctuation "(")
      (hps : Listed (Parameter value) ps parameters) (hc : c.isPunctuation ")")
      (ha : a.isOperator "=>") (he : value ts e) :
      Header (x :: o :: (ps ++ c :: a :: ts))
        (.lineFunction ⟨x.range.start, e.range.stop⟩ (Parser.nameOf x) parameters e)
  | blockFunction {x o c a : Token} {ps : List Token} {parameters : List PineScript.Parameter}
      {stop : Position} {body : Block} (hx : x.isIdentifier) (ho : o.isPunctuation "(")
      (hps : Listed (Parameter value) ps parameters) (hc : c.isPunctuation ")")
      (ha : a.isOperator "=>") :
      Header (x :: o :: (ps ++ [c, a]))
        (.blockFunction ⟨x.range.start, stop⟩ (Parser.nameOf x) parameters body)
  | malformed {ts : List Token} {first last : Token} {cause : Fault.Cause}
      (hfirst : ts.head? = some first) (hlast : ts.getLast? = some last) :
      Header ts (.malformed ⟨first.range.start, last.range.stop⟩ cause)

end Values

section

variable {value value' : List Token → Expr → Prop} (hvalue : ∀ ts e, value ts e → value' ts e)
  {ts : List Token}

theorem Listed.mono {α : Type} {item item' : List Token → α → Prop} {as : List α}
    (hitem : ∀ ts a, item ts a → item' ts a) (h : Listed item ts as) : Listed item' ts as := by
  induction h with
  | none => exact .none
  | last ha => exact .last (hitem _ _ ha)
  | more ha hcomma _ ih => exact .more (hitem _ _ ha) hcomma ih

include hvalue

theorem Parameter.mono {p : PineScript.Parameter} (h : Parameter value ts p) :
    Parameter value' ts p := by
  cases h with
  | plain hwords hfirst hname => exact .plain hwords hfirst hname
  | default hwords hfirst hname hq he => exact .default hwords hfirst hname hq (hvalue _ _ he)

theorem Simple.mono {s : Stmt} (h : Simple value ts s) : Simple value' ts s := by
  cases h with
  | expression he => exact .expression (hvalue _ _ he)
  | declaration hms htys hfirst hx hq he => exact .declaration hms htys hfirst hx hq (hvalue _ _ he)
  | assignment hx hq he => exact .assignment hx hq (hvalue _ _ he)
  | jump ht => exact .jump ht
  | returning ht he => exact .returning ht (hvalue _ _ he)

end

end Grammar

/-! ## The lines of a script -/

def Stmt.isSimple : Stmt → Bool
  | expression _ | declaration _ _ _ _ _ | assignment _ _ _ _ | jump _ _ _ => true
  | _ => false

theorem Grammar.Simple.isSimple {value : List Token → Expr → Prop} {ts : List Token} {s : Stmt}
    (h : Simple value ts s) : s.isSimple = true := by
  cases h <;> rfl

/-- What a logical line belongs to: a statement, an `if` behind an `else`, or an `else` alone. -/
inductive Head where
  | statement (s : Stmt)
  | elseIf (branch : Branch)
  | «else»

/-- The code of a line. -/
inductive Head.Spelled : Head → List Token → Prop
  | statement {s : Stmt} {ts : List Token} (h : Grammar.Header Grammar.Value ts s) :
      Spelled (.statement s) ts
  | elseIf {b : Branch} {t : Token} {ts : List Token} (ht : t.isKeyword "else")
      (h : Grammar.Header Grammar.Value ts (.conditional b)) : Spelled (.elseIf b) (t :: ts)
  | else {t : Token} (ht : t.isKeyword "else") : Spelled .else [t]

/-- The statement that begins on the line, if one does. -/
def Head.stmt? : Head → Option Stmt
  | .statement s => some s
  | .elseIf b => some (.conditional b)
  | .else => none

def Head.isSimple : Head → Bool
  | .statement s => s.isSimple
  | _ => false

mutual

/-- The lines below a statement's own. -/
def Stmt.headsBelow : Stmt → List Head
  | .conditional b => b.headsBelow
  | .countingLoop _ _ _ _ _ body => body.heads
  | .iteratingLoop _ _ _ body => body.heads
  | .whileLoop _ _ body => body.heads
  | .blockFunction _ _ _ body => body.heads
  | _ => []

def Branch.headsBelow : Branch → List Head
  | .mk _ _ body otherwise => body.heads ++ otherwise.heads

def Otherwise.heads : Otherwise → List Head
  | .nothing => []
  | .block body => .else :: body.heads
  | .elseIf b => .elseIf b :: b.headsBelow

def Block.heads : Block → List Head
  | .mk _ statements => Stmt.headsOf statements

/-- The lines of statements one below the other. Comments are no lines. -/
def Stmt.headsOf : List Stmt → List Head
  | [] => []
  | s :: more => (if s.isComment then [] else .statement s :: s.headsBelow) ++ Stmt.headsOf more

end

theorem Stmt.headsBelow_of_isSimple {s : Stmt} (h : s.isSimple = true) : s.headsBelow = [] := by
  cases s <;> first | rfl | cases h

def Program.heads (p : Program) : List Head := Stmt.headsOf p.body

theorem Stmt.headsOf_append (ss ss' : List Stmt) :
    Stmt.headsOf (ss ++ ss') = Stmt.headsOf ss ++ Stmt.headsOf ss' := by
  induction ss with
  | nil => rfl
  | cons s ss ih => rw [List.cons_append, Stmt.headsOf, Stmt.headsOf, ih, List.append_assoc]

theorem Stmt.headsOf_comments {ss : List Stmt} (h : ∀ s ∈ ss, s.isComment = true) :
    Stmt.headsOf ss = [] := by
  induction ss with
  | nil => rfl
  | cons s ss ih =>
    rw [Stmt.headsOf, if_pos (h s List.mem_cons_self),
      ih fun t ht => h t (List.mem_cons_of_mem s ht)]
    rfl

end PineScript
