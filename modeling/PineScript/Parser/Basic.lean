import PineScript.Tree.Fault

/-!
# Reading tokens

A parser reads from the tokens that are left. It succeeds with a value or stops at a fault; in both
cases it says what is left, because recovery goes on from there.

What a parser sees depends on its context: comments are never seen, line breaks are not seen inside
brackets, and in a simple statement a line that is indented deeper may carry an expression on.
-/

namespace PineScript

structure Context where
  /-- Where the input ends. -/
  finish : Position
  /-- Whether a bracket is open. -/
  bracketed : Bool
  /-- The indentation of the simple statement that is being read. -/
  margin : Option Int

inductive Reply (α : Type) where
  | ok (value : α) (rest : List Token)
  | fault (fault : Fault) (rest : List Token)

def Reply.rest : Reply α → List Token
  | ok _ rest | fault _ rest => rest

def Parser (α : Type) : Type := Context → List Token → Reply α

namespace Parser

protected def pure (a : α) : Parser α := fun _ ts => .ok a ts

protected def bind (p : Parser α) (f : α → Parser β) : Parser β := fun ctx ts =>
  match p ctx ts with
  | .ok a rest => f a ctx rest
  | .fault e rest => .fault e rest

instance : Monad Parser where
  pure := Parser.pure
  bind := Parser.bind

@[simp] theorem pure_apply (a : α) (ctx : Context) (ts : List Token) :
    (pure a : Parser α) ctx ts = .ok a ts := rfl

@[simp] theorem bind_apply (p : Parser α) (f : α → Parser β) (ctx : Context) (ts : List Token) :
    (p >>= f) ctx ts =
      match p ctx ts with
      | .ok a rest => f a ctx rest
      | .fault e rest => .fault e rest := rfl

/-! ## Seeing and taking tokens -/

end Parser

namespace Context

/-- The token that stands behind the input. -/
def endToken (ctx : Context) : Token := .endOfInput ctx.finish

/-- Whether a token is not seen. -/
def skips (ctx : Context) (t : Token) : Bool :=
  t.kind == .comment || (ctx.bracketed && t.kind == .newline)

/-- The `n`-th token that is seen, counted from zero. -/
def lookahead (ctx : Context) : Nat → List Token → Token
  | _, [] => ctx.endToken
  | n, t :: ts =>
    if ctx.skips t then ctx.lookahead n ts
    else match n with
      | 0 => t
      | n + 1 => ctx.lookahead n ts

end Context

namespace Parser

def peekAt (n : Nat) : Parser Token := fun ctx ts => .ok (ctx.lookahead n ts) ts

def peek : Parser Token := peekAt 0

/-- Takes the next token that is seen. -/
def advance : Parser Token := fun ctx ts =>
  match ts.dropWhile ctx.skips with
  | [] => .ok ctx.endToken []
  | t :: rest => .ok t rest

def atLineEnd : Parser Bool := do return (← peek).isLineEnd

/-- Goes past line breaks and comments, whatever the context. -/
def passLayout : Parser Unit := fun _ ts => .ok () (ts.dropWhile Token.isLayout)

/-- Reads inside a bracket. -/
def bracketed (p : Parser α) : Parser α := fun ctx ts => p { ctx with bracketed := true } ts

/-- Reads a simple statement of the given indentation. -/
def withMargin (margin : Int) (p : Parser α) : Parser α := fun ctx ts =>
  p { ctx with margin := some margin } ts

/-- Whether a token carries an expression on from the line above it. -/
def carriesOn (margin : Int) (spellings : List String) (t : Token) : Bool :=
  (match t.indent with
    | some indent => margin < indent
    | none => false)
  && (t.kind == .operator || t.kind == .keyword) && t.text ∈ spellings

/-- Steps onto the next line of code if it carries the statement on with one of the operators. -/
def joinLine (spellings : List String) : Parser Unit := fun ctx ts =>
  match ctx.margin with
  | none => .ok () ts
  | some margin =>
    if ctx.bracketed || (ctx.lookahead 0 ts).kind != .newline then .ok () ts
    else match ts.dropWhile Token.isLayout with
      | [] => .ok () ts
      | t :: rest => if carriesOn margin spellings t then .ok () (t :: rest) else .ok () ts

/-! ## Faults -/

def fail (cause : Fault.Cause) (range : Range) : Parser α := fun _ ts => .fault ⟨cause, range⟩ ts

/-- Stops at the next token. -/
def failHere (cause : Fault.Cause) : Parser α := do fail cause (← peek).range

/-- Stops because the next token is not what the grammar asks for. -/
def unexpected (wanted : Expected) : Parser α := do
  let t ← peek
  fail (.unexpected t.kind t.text wanted) t.range

/-- Takes the next token, which has to pass the test. -/
def expect (test : Token → Bool) (wanted : Expected) : Parser Token := do
  if test (← peek) then advance else unexpected wanted

/-! ## Loops

A round that goes on takes at least one token, so a loop has at most one round more than there are
tokens. The list `bound` counts the rounds. -/

def iterateFor (step : σ → Parser (Option σ)) : List Token → σ → Parser σ
  | [], s => pure s
  | _ :: bound, s => do
    match ← step s with
    | none => return s
    | some next => iterateFor step bound next

/-- Repeats the step until it gives nothing. -/
def iterate (step : σ → Parser (Option σ)) (s : σ) : Parser σ := fun ctx ts =>
  iterateFor step (ctx.endToken :: ts) s ctx ts

def collectFor (item : Parser (Option α)) : List Token → Parser (List α)
  | [] => pure []
  | _ :: bound => do
    match ← item with
    | none => return []
    | some a => return a :: (← collectFor item bound)

/-- Lists the items until there is none. -/
def collect (item : Parser (Option α)) : Parser (List α) := fun ctx ts =>
  collectFor item (ctx.endToken :: ts) ctx ts

end Parser

end PineScript
