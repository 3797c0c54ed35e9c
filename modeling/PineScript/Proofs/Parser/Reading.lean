import PineScript.Proofs.Parser.Onward

/-!
# Readers and what runs them

The readers of expressions and statements, written for anything that can run them: it takes tokens,
knows of brackets and of the margin of a statement, and bounds the rounds of a loop. Run by `Parser`
they are the readers of a script (`statement_eq`).

Main statement: readers that are run in two ways stay related if what they are made of is related,
and the loops in them are (`Simulation.statement`). Loops that make the same rounds both ways are
(`Lockstep.statement`). So two ways of running readers are compared on their parts alone.
-/

namespace PineScript.Parser

/-- What can run a reader. -/
class Reading (m : Type → Type) extends Monad m, MonadLift Parser m where
  bracketed : {α : Type} → m α → m α
  withMargin : {α : Type} → Int → m α → m α
  /-- Runs with a list as long as a loop may make rounds. -/
  bounded : {α : Type} → (List Token → m α) → m α
  /-- Ends a loop that has made all its rounds. -/
  spent : {α : Type} → α → m α := fun a => pure a

instance : Reading Parser where
  toMonad := inferInstance
  monadLift p := p
  bracketed := Parser.bracketed
  withMargin := Parser.withMargin
  bounded f := fun ctx ts => f (ctx.endToken :: ts) ctx ts

namespace Reading

variable {m : Type → Type} [Reading m] {α σ : Type}

/-! ## Loops -/

def iterateFor (step : σ → m (Option σ)) : List Token → σ → m σ
  | [], s => spent s
  | _ :: bound, s => do
    match ← step s with
    | none => return s
    | some next => iterateFor step bound next

def iterate (step : σ → m (Option σ)) (s : σ) : m σ := bounded fun bound => iterateFor step bound s

def collectFor (item : m (Option α)) : List Token → m (List α)
  | [] => spent []
  | _ :: bound => do
    match ← item with
    | none => return []
    | some a => return a :: (← collectFor item bound)

def collect (item : m (Option α)) : m (List α) := bounded (collectFor item)

/-! ## Expressions -/

section

variable (nested : m Expr)

def primary : m Expr := do
  let t ← peek
  if let some value := literal? t then
    discard advance
    return .literal t.range value
  else if t.isIdentifier then
    discard advance
    return .name (nameOf t)
  else if t.isPunctuation "(" then
    discard advance
    bracketed do
      let inner ← nested
      discard <| expect (·.isPunctuation ")") .closeParen
      return inner
  else liftM (unexpected .expression : Parser Expr)

def argument : m Argument := do
  let t ← peek
  if t.isIdentifier && (← peekAt 1).isOperator "=" then
    discard advance
    discard advance
    let value ← nested
    return .named ⟨t.range.start, value.range.stop⟩ (nameOf t) value
  else return .positional (← nested)

def listItem (item : m α) : m (Option α) := do
  if (← peek).isPunctuation ")" then return none
  let a ← item
  let t ← peek
  if t.isPunctuation "," then
    discard advance
    return some a
  else if t.isPunctuation ")" then return some a
  else liftM (unexpected .listGoesOn : Parser (Option α))

def listItems (item : m α) : m (List α × Token) := bracketed do
  let items ← collect (listItem item)
  return (items, ← advance)

def suffix (e : Expr) : m (Option Expr) := do
  let t ← peek
  if t.isPunctuation "(" then
    discard advance
    let (arguments, close) ← listItems (argument nested)
    return some (.call ⟨e.range.start, close.range.stop⟩ e arguments)
  else if t.isPunctuation "[" then
    discard advance
    bracketed do
      let subscript ← nested
      let close ← expect (·.isPunctuation "]") .closeBracket
      return some (.index ⟨e.range.start, close.range.stop⟩ e subscript)
  else return none

def suffixed : m Expr := do iterate (suffix nested) (← primary nested)

def signed : m Expr := do
  let signs ← collect (liftM sign)
  let operand ← suffixed nested
  return signs.foldr (fun (op, r) e => .unary ⟨r.start, e.range.stop⟩ op e) operand

def operation (level : List BinaryOp) (tighter : m Expr) (left : Expr) : m (Option Expr) := do
  joinLine (level.map BinaryOp.text)
  match binaryOp? level (← peek) with
  | none => return none
  | some op =>
    discard advance
    passLayout
    let right ← tighter
    return some (.binary (left.range.span right.range) op left right)

def operations : List (List BinaryOp) → m Expr
  | [] => signed nested
  | level :: tighter => do
    iterate (operation level (operations tighter)) (← operations tighter)

def ternary : m Expr := do
  let condition ← operations nested BinaryOp.levels
  joinLine ["?"]
  if (← peek).isOperator "?" then
    discard advance
    passLayout
    let whenTrue ← nested
    joinLine [":"]
    discard <| expect (·.isOperator ":") .colon
    passLayout
    let whenFalse ← nested
    return .ternary (condition.range.span whenFalse.range) condition whenTrue whenFalse
  else return condition

end

/-! ## Statements -/

section

variable (nested : m Expr) (block : Int → m (Mended Block))

def jump (kind : JumpKind) : m Stmt := do
  let keyword ← advance
  if kind != .return || (← atLineEnd) then return .jump keyword.range kind none
  let value ← nested
  return .jump ⟨keyword.range.start, value.range.stop⟩ kind (some value)

def declaration : m Stmt := do
  let first ← peek
  let modifier := modifier? first
  if modifier.isSome then discard advance
  let typed := (← peek).isIdentifier && (← peekAt 1).isIdentifier
  let typeName ← if typed then (fun t => some t.text) <$> (liftM advance : m Token) else pure none
  let name ← expect Token.isIdentifier .variableName
  discard <| expect (·.isOperator "=") .equals
  passLayout
  let value ← nested
  return .declaration ⟨first.range.start, value.range.stop⟩ modifier typeName (nameOf name) value

def assignment (op : AssignOp) : m Stmt := do
  let name ← advance
  discard advance
  passLayout
  let value ← nested
  return .assignment ⟨name.range.start, value.range.stop⟩ (nameOf name) op value

def simpleForm : m Stmt := do
  let t ← peek
  if let some kind := jumpKind? t then jump nested kind
  else if (modifier? t).isSome || (← startsDeclaration) then declaration nested
  else match t.isIdentifier, assignOp? (← peekAt 1) with
    | true, some op => assignment nested op
    | _, _ => return .expression (← nested)

def simple (indent : Int) : m Stmt := do
  let s ← withMargin indent (simpleForm nested)
  endOfLine
  return s

def branch (indent : Int) (rest : m (Mended Otherwise)) (keyword : Token) : m (Mended Branch) := do
  let condition ← nested
  let body ← block indent
  let otherwise ← rest
  let range : Range := ⟨keyword.range.start, body.stop otherwise⟩
  return ⟨.mk range condition body.value otherwise.value, body.faults ++ otherwise.faults⟩

/-- Reads what is behind an `else`: another branch and what follows that, or a block. -/
def behindElse (indent : Int) (rest : m (Mended Otherwise)) : m (Mended Otherwise) := do
  if (← peek).isKeyword "if" then
    let b ← branch nested block indent rest (← advance)
    return ⟨.elseIf b.value, b.faults⟩
  let b ← block indent
  return ⟨.block b.value, b.faults⟩

def otherwiseFor (indent : Int) : List Token → m (Mended Otherwise)
  | [] => spent ⟨.nothing, []⟩
  | _ :: bound => do
    if !(← takeElse indent) then return ⟨.nothing, []⟩
    behindElse nested block indent (otherwiseFor indent bound)

def conditional (indent : Int) : m (Mended Stmt) := do
  let b ← branch nested block indent (bounded (otherwiseFor nested block indent)) (← advance)
  return ⟨.conditional b.value, b.faults⟩

def forLoop (indent : Int) : m (Mended Stmt) := do
  let keyword ← advance
  let name ← expect Token.isIdentifier .loopVariable
  let t ← peek
  if t.isOperator "=" then
    discard advance
    let first ← nested
    discard <| expect (·.isKeyword "to") .boundsEnd
    let last ← nested
    let step ← if (← peek).isKeyword "by" then (do discard advance; some <$> nested) else pure none
    let body ← block indent
    let range : Range := ⟨keyword.range.start, body.value.range.stop⟩
    return ⟨.countingLoop range (nameOf name) first last step body.value, body.faults⟩
  else if t.isKeyword "in" then
    discard advance
    let collection ← nested
    let body ← block indent
    let range : Range := ⟨keyword.range.start, body.value.range.stop⟩
    return ⟨.iteratingLoop range (nameOf name) collection body.value, body.faults⟩
  else liftM (unexpected .loopSource : Parser (Mended Stmt))

def whileLoop (indent : Int) : m (Mended Stmt) := do
  let keyword ← advance
  let condition ← nested
  let body ← block indent
  let range : Range := ⟨keyword.range.start, body.value.range.stop⟩
  return ⟨.whileLoop range condition body.value, body.faults⟩

def parameter : m Parameter := do
  let words ← collect (liftM parameterWord)
  match words.head?, words.getLast? with
  | some first, some name =>
    let default ← if (← peek).isOperator "=" then (do discard advance; some <$> nested)
      else pure none
    let stop := match default with
      | some value => value.range.stop
      | none => name.range.stop
    return ⟨⟨first.range.start, stop⟩, typeOf words.dropLast, nameOf name, default⟩
  | _, _ => liftM (unexpected .parameterName : Parser Parameter)

def function (indent : Int) : m (Mended Stmt) := do
  let name ← advance
  discard advance
  let (parameters, _) ← listItems (parameter nested)
  discard <| expect (·.isOperator "=>") .arrow
  if ← atLineEnd then
    let body ← block indent
    let range : Range := ⟨name.range.start, body.value.range.stop⟩
    return ⟨.blockFunction range (nameOf name) parameters body.value, body.faults⟩
  else
    let value ← nested
    endOfLine
    let range : Range := ⟨name.range.start, value.range.stop⟩
    return ⟨.lineFunction range (nameOf name) parameters value, []⟩

def statement (indent : Int) : m (Mended Stmt) := do
  let t ← peek
  if t.isKeyword "if" then conditional nested block indent
  else if t.isKeyword "for" then forLoop nested block indent
  else if t.isKeyword "while" then whileLoop nested block indent
  else if t.isKeyword "else" then liftM (fail .strayElse t.range : Parser (Mended Stmt))
  else if ← startsFunction then function nested block indent
  else return ⟨← simple nested indent, []⟩

end

/-! ## Readers of a script -/

section

variable {nested : Parser Expr}

theorem iterate_eq (step : σ → Parser (Option σ)) (s : σ) :
    iterate step s = Parser.iterate step s := by
  have hfor (bound : List Token) (s : σ) : iterateFor step bound s = Parser.iterateFor step bound s := by
    induction bound generalizing s with
    | nil => rfl
    | cons _ bound ih =>
      rw [iterateFor, Parser.iterateFor]
      refine congrArg _ (funext fun o => ?_)
      cases o with
      | none => rfl
      | some next => exact ih next
  funext ctx ts
  exact congrFun (congrFun (hfor _ s) ctx) ts

theorem collect_eq (item : Parser (Option α)) : collect item = Parser.collect item := by
  have hfor (bound : List Token) : collectFor item bound = Parser.collectFor item bound := by
    induction bound with
    | nil => rfl
    | cons _ bound ih =>
      refine congrArg _ (funext fun o => ?_)
      cases o with
      | none => rfl
      | some a => exact congrArg (· >>= fun more => pure (a :: more)) ih
  funext ctx ts
  exact congrFun (congrFun (hfor _) ctx) ts

theorem listItems_eq (item : Parser α) : listItems item = Parser.listItems item := by
  unfold listItems
  rw [collect_eq]
  rfl

theorem suffix_eq : suffix nested = Parser.suffix nested := by
  funext e
  unfold suffix
  rw [listItems_eq]
  rfl

theorem suffixed_eq : suffixed nested = Parser.suffixed nested := by
  unfold suffixed
  rw [suffix_eq]
  simp only [iterate_eq]
  rfl

theorem signed_eq : signed nested = Parser.signed nested := by
  unfold signed
  rw [collect_eq, suffixed_eq]
  rfl

theorem operations_eq (levels : List (List BinaryOp)) :
    operations nested levels = Parser.operations nested levels := by
  induction levels with
  | nil => exact signed_eq
  | cons level tighter ih =>
    rw [operations, Parser.operations, ih]
    simp only [iterate_eq]
    rfl

theorem ternary_eq : ternary nested = Parser.ternary nested := by
  unfold ternary
  rw [operations_eq]
  rfl

theorem otherwiseFor_eq (block : Int → Parser (Mended Block)) (indent : Int) (bound : List Token) :
    otherwiseFor nested block indent bound = Parser.otherwiseFor nested block indent bound := by
  induction bound with
  | nil => rfl
  | cons _ bound ih =>
    rw [otherwiseFor, Parser.otherwiseFor, ih]
    rfl

theorem conditional_eq (block : Int → Parser (Mended Block)) (indent : Int) :
    conditional nested block indent = Parser.conditional nested block indent := by
  have hrest : bounded (otherwiseFor nested block indent) = Parser.otherwise nested block indent := by
    funext ctx ts
    exact congrFun (congrFun (otherwiseFor_eq block indent (ctx.endToken :: ts)) ctx) ts
  unfold conditional
  rw [hrest]
  rfl

theorem parameter_eq : parameter nested = Parser.parameter nested := by
  unfold parameter
  rw [collect_eq]
  rfl

theorem function_eq (block : Int → Parser (Mended Block)) (indent : Int) :
    function nested block indent = Parser.function nested block indent := by
  unfold function
  rw [listItems_eq, parameter_eq]
  rfl

/-- The readers of a script are those that `Parser` runs. -/
theorem statement_eq (block : Int → Parser (Mended Block)) (indent : Int) :
    statement nested block indent = Parser.statement nested block indent := by
  unfold statement
  rw [conditional_eq, function_eq]
  rfl

end

/-! ## Two ways to run a reader -/

/-- A relation between two ways to run a reader that holds of the parts of a reader, and of what is
made of related parts. -/
structure Congruence {m m' : Type → Type} [Reading m] [Reading m']
    (rel : (α : Type) → m α → m' α → Prop) : Prop where
  pure : ∀ {α : Type} (a : α), rel _ (pure a) (pure a)
  bind : ∀ {α β : Type} {p : m α} {q : m' α} {f : α → m β} {g : α → m' β}, rel _ p q →
    (∀ a, rel _ (f a) (g a)) → rel _ (p >>= f) (q >>= g)
  map : ∀ {α β : Type} (f : α → β) {p : m α} {q : m' α}, rel _ p q → rel _ (f <$> p) (f <$> q)
  discard : ∀ {α : Type} {p : m α} {q : m' α}, rel _ p q → rel _ (discard p) (discard q)
  lift : ∀ {α : Type} {p : Parser α}, Onward p → rel _ (liftM p : m α) (liftM p : m' α)

/-- A relation between two ways to run a reader that make as many rounds of a loop. -/
structure Paced {m m' : Type → Type} [Reading m] [Reading m']
    (rel : (α : Type) → m α → m' α → Prop) : Prop where
  bounded : ∀ {α : Type} {f : List Token → m α} {g : List Token → m' α},
    (∀ bound, rel _ (f bound) (g bound)) → rel _ (bounded f) (bounded g)
  spent : ∀ {α : Type} (a : α), rel _ (spent a) (spent a)

/-- Two ways to run a reader: a relation for readers of expressions, which stand in brackets or out
of them, and one for readers of statements, which stand in none. -/
structure Simulation (m m' : Type → Type) [Reading m] [Reading m'] where
  inner : (α : Type) → m α → m' α → Prop
  outer : (α : Type) → m α → m' α → Prop
  within : Congruence inner
  around : Congruence outer
  bracketed : ∀ {α : Type} {p : m α} {q : m' α}, inner _ p q → inner _ (bracketed p) (bracketed q)
  withMargin : ∀ {α : Type} (margin : Int) {p : m α} {q : m' α}, inner _ p q →
    outer _ (withMargin margin p) (withMargin margin q)
  weaken : ∀ {α : Type} {p : m α} {q : m' α}, inner _ p q → outer _ p q

theorem ite_related {m m' : Type → Type} {α : Type} {rel : (α : Type) → m α → m' α → Prop} {c : Prop}
    [Decidable c] {p p' : m α} {q q' : m' α} (hp : rel _ p q) (hp' : rel _ p' q') :
    rel _ (if c then p else p') (if c then q else q') := by
  split
  · exact hp
  · exact hp'

/-- Two ways to run a reader that begins with another one, which are related from there on. -/
def Begins {m m' : Type → Type} [Reading m] [Reading m'] (rel : (α : Type) → m α → m' α → Prop)
    {α β : Type} (first : m α) (first' : m' α) (p : m β) (q : m' β) : Prop :=
  ∃ (f : α → m β) (g : α → m' β), p = first >>= f ∧ q = first' >>= g ∧ ∀ a, rel _ (f a) (g a)

namespace Congruence

variable {m m' : Type → Type} [Reading m] [Reading m'] {rel : (α : Type) → m α → m' α → Prop}
  (C : Congruence rel) {α β σ : Type}
include C

/-- What follows a reader that is the same both ways. -/
theorem then_ {p : Parser α} (hp : Onward p) {f : α → m β} {g : α → m' β}
    (h : ∀ a, rel _ (f a) (g a)) : rel _ ((liftM p : m α) >>= f) ((liftM p : m' α) >>= g) :=
  C.bind (C.lift hp) h

theorem past {p : Parser α} (hp : Onward p) {f : PUnit → m β} {g : PUnit → m' β}
    (h : ∀ a, rel _ (f a) (g a)) :
    rel _ (Functor.discard (liftM p : m α) >>= f) (Functor.discard (liftM p : m' α) >>= g) :=
  C.bind (C.discard (C.lift hp)) h

theorem begins {first : m α} {first' : m' α} {p : m β} {q : m' β}
    (h : Begins rel first first' p q) (hfirst : rel _ first first') : rel _ p q := by
  obtain ⟨f, g, rfl, rfl, hrest⟩ := h
  exact C.bind hfirst hrest

end Congruence

namespace Paced

variable {m m' : Type → Type} [Reading m] [Reading m'] {rel : (α : Type) → m α → m' α → Prop}
  (P : Paced rel) (C : Congruence rel) {α σ : Type}
include P C

-- The bound of a loop is the same both ways, so the induction is on the bound.
theorem iterate {step : σ → m (Option σ)} {step' : σ → m' (Option σ)}
    (hstep : ∀ s, rel _ (step s) (step' s)) (s : σ) : rel _ (iterate step s) (iterate step' s) := by
  refine P.bounded fun bound => ?_
  induction bound generalizing s with
  | nil => exact P.spent s
  | cons _ bound ih =>
    refine C.bind (hstep s) fun o => ?_
    cases o with
    | none => exact C.pure s
    | some next => exact ih next

theorem collect {item : m (Option α)} {item' : m' (Option α)} (hitem : rel _ item item') :
    rel _ (collect item) (collect item') := by
  refine P.bounded fun bound => ?_
  induction bound with
  | nil => exact P.spent []
  | cons _ bound ih =>
    refine C.bind hitem fun o => ?_
    cases o with
    | none => exact C.pure []
    | some a => exact C.bind ih fun more => C.pure (a :: more)

end Paced

namespace Simulation

variable {m m' : Type → Type} [Reading m] [Reading m'] (S : Simulation m m') {α : Type}
  {nested : m Expr} {nested' : m' Expr} (hnested : S.inner _ nested nested')

/-! ### Expressions -/

section
include hnested

theorem primary : S.inner _ (primary nested) (primary nested') := by
  refine S.within.then_ .peek fun t => ?_
  cases literal? t with
  | some value => exact S.within.past .advance fun _ => S.within.pure _
  | none =>
    refine ite_related (S.within.past .advance fun _ => S.within.pure _)
      (ite_related ?_ (S.within.lift (.unexpected _)))
    refine S.within.past .advance fun _ => S.bracketed (S.within.bind hnested fun inner => ?_)
    exact S.within.past (.expect _ _) fun _ => S.within.pure inner

theorem argument : S.inner _ (argument nested) (argument nested') := by
  refine S.within.then_ .peek fun t => S.within.then_ (.peekAt 1) fun second => ite_related ?_ ?_
  · refine S.within.past .advance fun _ => S.within.past .advance fun _ => ?_
    exact S.within.bind hnested fun value => S.within.pure _
  · exact S.within.bind hnested fun value => S.within.pure _

end

section

variable {item : m α} {item' : m' α}

theorem listItem (hitem : S.inner _ item item') : S.inner _ (listItem item) (listItem item') := by
  refine S.within.then_ .peek fun t => ite_related (S.within.pure none) ?_
  refine S.within.bind hitem fun a => S.within.then_ .peek fun next => ite_related ?_ ?_
  · exact S.within.past .advance fun _ => S.within.pure _
  · exact ite_related (S.within.pure _) (S.within.lift (.unexpected _))

theorem listItems
    (hitems : S.inner _ (collect (Reading.listItem item)) (collect (Reading.listItem item'))) :
    S.inner _ (listItems item) (listItems item') :=
  S.bracketed (S.within.bind hitems fun _ => S.within.then_ .advance fun _ => S.within.pure _)

end

section
include hnested

theorem suffix (harguments : S.inner _ (Reading.listItems (Reading.argument nested))
      (Reading.listItems (Reading.argument nested'))) (e : Expr) :
    S.inner _ (suffix nested e) (suffix nested' e) := by
  refine S.within.then_ .peek fun t => ite_related ?_ (ite_related ?_ (S.within.pure none))
  · exact S.within.past .advance fun _ => S.within.bind harguments fun list => S.within.pure _
  · refine S.within.past .advance fun _ => S.bracketed (S.within.bind hnested fun subscript => ?_)
    exact S.within.then_ (.expect _ _) fun close => S.within.pure _

theorem operation (level : List BinaryOp) (left : Expr) :
    S.inner _ (operation level nested left) (operation level nested' left) := by
  refine S.within.then_ (.joinLine _) fun _ => S.within.then_ .peek fun t => ?_
  cases binaryOp? level t with
  | none => exact S.within.pure none
  | some op =>
    refine S.within.past .advance fun _ => S.within.then_ .passLayout fun _ => ?_
    exact S.within.bind hnested fun right => S.within.pure _

theorem ternary : Begins S.inner (operations nested BinaryOp.levels)
    (operations nested' BinaryOp.levels) (ternary nested) (ternary nested') := by
  refine ⟨_, _, rfl, rfl, fun condition => ?_⟩
  refine S.within.then_ (.joinLine _) fun _ => S.within.then_ .peek fun t => ?_
  refine ite_related (S.within.past .advance fun _ => ?_) (S.within.pure condition)
  refine S.within.then_ .passLayout fun _ => S.within.bind hnested fun whenTrue => ?_
  refine S.within.then_ (.joinLine _) fun _ => S.within.past (.expect _ _) fun _ => ?_
  refine S.within.then_ .passLayout fun _ => ?_
  exact S.within.bind hnested fun whenFalse => S.within.pure _

/-! ### Simple statements -/

theorem jump (kind : JumpKind) :
    Begins S.inner (liftM advance) (liftM advance) (jump nested kind) (jump nested' kind) := by
  refine ⟨_, _, rfl, rfl, fun keyword => S.within.then_ .atLineEnd fun atEnd => ?_⟩
  exact ite_related (S.within.pure _) (S.within.bind hnested fun value => S.within.pure _)

theorem declaration : S.inner _ (declaration nested) (declaration nested') := by
  refine S.within.then_ .peek fun first => ?_
  -- With or without a modifier the same is read from here on.
  refine ite_related (S.within.past .advance fun _ => ?_) ?_
  all_goals
    refine S.within.then_ .peek fun t => S.within.then_ (.peekAt 1) fun second => ?_
    refine ite_related (S.within.bind (S.within.map _ (S.within.lift .advance)) fun typeName => ?_)
      (S.within.bind (S.within.pure none) fun typeName => ?_)
    all_goals
      refine S.within.then_ (.expect _ _) fun name => S.within.past (.expect _ _) fun _ => ?_
      refine S.within.then_ .passLayout fun _ => ?_
      exact S.within.bind hnested fun value => S.within.pure _

theorem assignment (op : AssignOp) :
    Begins S.inner (liftM advance) (liftM advance) (assignment nested op)
      (assignment nested' op) := by
  refine ⟨_, _, rfl, rfl, fun name => S.within.past .advance fun _ => ?_⟩
  exact S.within.then_ .passLayout fun _ => S.within.bind hnested fun value => S.within.pure _

theorem simpleForm : S.inner _ (simpleForm nested) (simpleForm nested') := by
  refine S.within.then_ .peek fun t => ?_
  cases jumpKind? t with
  | some kind => exact S.within.begins (S.jump hnested kind) (S.within.lift .advance)
  | none =>
    refine S.within.then_ .startsDeclaration fun starts => ite_related (S.declaration hnested) ?_
    refine S.within.then_ (.peekAt 1) fun second => ?_
    cases t.isIdentifier with
    | false => exact S.within.bind hnested fun value => S.within.pure _
    | true =>
      cases assignOp? second with
      | none => exact S.within.bind hnested fun value => S.within.pure _
      | some op => exact S.within.begins (S.assignment hnested op) (S.within.lift .advance)

theorem simple (indent : Int) : S.outer _ (simple nested indent) (simple nested' indent) := by
  refine S.around.bind (S.withMargin indent (S.simpleForm hnested)) fun s => ?_
  exact S.around.then_ .endOfLine fun _ => S.around.pure s

theorem marked :
    S.inner _ (do discard advance; some <$> nested) (do discard advance; some <$> nested') :=
  S.within.past .advance fun _ => S.within.map some hnested

theorem parameter
    (hwords : S.inner _ (collect (liftM parameterWord) : m _) (collect (liftM parameterWord))) :
    S.inner _ (parameter nested) (parameter nested') := by
  refine S.within.bind hwords fun words => ?_
  cases words.head? with
  | none => exact S.within.lift (.unexpected _)
  | some first =>
    cases words.getLast? with
    | none => exact S.within.lift (.unexpected _)
    | some name =>
      refine S.within.then_ .peek fun t => ite_related ?_ ?_
      · exact S.within.bind (S.marked hnested) fun default => S.within.pure _
      · exact S.within.bind (S.within.pure none) fun default => S.within.pure _

end

/-! ### Statements with a block -/

variable {block : Int → m (Mended Block)} {block' : Int → m' (Mended Block)}
  (hblock : ∀ header, S.outer _ (block header) (block' header))
include hnested hblock

theorem branch {rest : m (Mended Otherwise)} {rest' : m' (Mended Otherwise)} (indent : Int)
    (hrest : S.outer _ rest rest') (keyword : Token) :
    S.outer _ (branch nested block indent rest keyword) (branch nested' block' indent rest' keyword) := by
  refine S.around.bind (S.weaken hnested) fun condition => ?_
  refine S.around.bind (hblock indent) fun body => ?_
  exact S.around.bind hrest fun otherwise => S.around.pure _

theorem behindElse {rest : m (Mended Otherwise)} {rest' : m' (Mended Otherwise)} (indent : Int)
    (hrest : S.outer _ rest rest') : S.outer _ (behindElse nested block indent rest)
      (behindElse nested' block' indent rest') := by
  refine S.around.then_ .peek fun t => ite_related (S.around.then_ .advance fun keyword => ?_) ?_
  · exact S.around.bind (S.branch hnested hblock indent hrest keyword) fun b => S.around.pure _
  · exact S.around.bind (hblock indent) fun b => S.around.pure _

theorem conditional (indent : Int)
    (hrest : S.outer _ (bounded (otherwiseFor nested block indent))
      (bounded (otherwiseFor nested' block' indent))) :
    Begins S.outer (liftM advance) (liftM advance) (conditional nested block indent)
      (conditional nested' block' indent) := by
  refine ⟨_, _, rfl, rfl, fun keyword => ?_⟩
  exact S.around.bind (S.branch hnested hblock indent hrest keyword) fun b => S.around.pure _

theorem forLoop (indent : Int) :
    Begins S.outer (liftM advance) (liftM advance) (forLoop nested block indent)
      (forLoop nested' block' indent) := by
  -- A header is read without a margin, as a part of the statement around it.
  have hexpr := S.weaken hnested
  refine ⟨_, _, rfl, rfl, fun keyword => S.around.then_ (.expect _ _) fun name => ?_⟩
  refine S.around.then_ .peek fun t => ite_related (S.around.past .advance fun _ => ?_)
    (ite_related (S.around.past .advance fun _ => ?_) (S.around.lift (.unexpected _)))
  · refine S.around.bind hexpr fun first => S.around.past (.expect _ _) fun _ => ?_
    refine S.around.bind hexpr fun last => S.around.then_ .peek fun next => ite_related ?_ ?_
    · refine S.around.bind (S.weaken (S.marked hnested)) fun step => ?_
      exact S.around.bind (hblock indent) fun body => S.around.pure _
    · refine S.around.bind (S.around.pure none) fun step => ?_
      exact S.around.bind (hblock indent) fun body => S.around.pure _
  · refine S.around.bind hexpr fun collection => ?_
    exact S.around.bind (hblock indent) fun body => S.around.pure _

theorem whileLoop (indent : Int) :
    Begins S.outer (liftM advance) (liftM advance) (whileLoop nested block indent)
      (whileLoop nested' block' indent) := by
  refine ⟨_, _, rfl, rfl, fun keyword => S.around.bind (S.weaken hnested) fun condition => ?_⟩
  exact S.around.bind (hblock indent) fun body => S.around.pure _

theorem function (hparameters : S.inner _ (Reading.listItems (Reading.parameter nested))
      (Reading.listItems (Reading.parameter nested'))) (indent : Int) :
    Begins S.outer (liftM advance) (liftM advance) (function nested block indent)
      (function nested' block' indent) := by
  refine ⟨_, _, rfl, rfl, fun name => S.around.past .advance fun _ => ?_⟩
  refine S.around.bind (S.weaken hparameters) fun list => ?_
  refine S.around.past (.expect _ _) fun _ => S.around.then_ .atLineEnd fun atEnd => ite_related ?_ ?_
  · exact S.around.bind (hblock indent) fun body => S.around.pure _
  · refine S.around.bind (S.weaken hnested) fun value => ?_
    exact S.around.then_ .endOfLine fun _ => S.around.pure _

/-- Statements stay related if the readers of expressions and of blocks are, and the two loops that
they go through. -/
theorem statement (hparameters : S.inner _ (Reading.listItems (Reading.parameter nested))
      (Reading.listItems (Reading.parameter nested'))) (indent : Int)
    (hrest : S.outer _ (bounded (otherwiseFor nested block indent))
      (bounded (otherwiseFor nested' block' indent))) :
    S.outer _ (statement nested block indent) (statement nested' block' indent) := by
  have htake {p : m (Mended Stmt)} {q : m' (Mended Stmt)}
      (h : Begins S.outer (liftM advance) (liftM advance) p q) : S.outer _ p q :=
    S.around.begins h (S.around.lift .advance)
  refine S.around.then_ .peek fun t => ?_
  refine ite_related (htake (S.conditional hnested hblock indent hrest)) ?_
  refine ite_related (htake (S.forLoop hnested hblock indent)) ?_
  refine ite_related (htake (S.whileLoop hnested hblock indent)) ?_
  refine ite_related (S.around.lift (.fail _ _)) (S.around.then_ .startsFunction fun starts => ?_)
  refine ite_related (htake (S.function hnested hblock hparameters indent)) ?_
  exact S.around.bind (S.simple hnested indent) fun s => S.around.pure _

end Simulation

/-! ## Two ways with the same rounds -/

/-- A simulation of loops by loops with as many rounds. -/
structure Lockstep {m m' : Type → Type} [Reading m] [Reading m'] (S : Simulation m m') : Prop where
  within : Paced S.inner
  around : Paced S.outer

namespace Lockstep

variable {m m' : Type → Type} [Reading m] [Reading m'] {S : Simulation m m'} (L : Lockstep S)
  {α : Type} {nested : m Expr} {nested' : m' Expr} (hnested : S.inner _ nested nested')
include L

theorem collect {item : m (Option α)} {item' : m' (Option α)} (h : S.inner _ item item') :
    S.inner _ (collect item) (collect item') :=
  L.within.collect S.within h

theorem listItems {item : m α} {item' : m' α} (hitem : S.inner _ item item') :
    S.inner _ (listItems item) (listItems item') :=
  S.listItems (L.collect (S.listItem hitem))

section
include hnested

theorem suffix (e : Expr) : S.inner _ (suffix nested e) (suffix nested' e) :=
  S.suffix hnested (L.listItems (S.argument hnested)) e

theorem suffixed : S.inner _ (suffixed nested) (suffixed nested') :=
  S.within.bind (S.primary hnested) fun e => L.within.iterate S.within (L.suffix hnested) e

theorem signed : S.inner _ (signed nested) (signed nested') := by
  refine S.within.bind (L.collect (S.within.lift .sign)) fun signs => ?_
  exact S.within.bind (L.suffixed hnested) fun operand => S.within.pure _

theorem operations (levels : List (List BinaryOp)) :
    S.inner _ (operations nested levels) (operations nested' levels) := by
  induction levels with
  | nil => exact L.signed hnested
  | cons level tighter ih =>
    exact S.within.bind ih fun e => L.within.iterate S.within (S.operation ih level) e

theorem ternary : S.inner _ (ternary nested) (ternary nested') :=
  S.within.begins (S.ternary hnested) (L.operations hnested _)

theorem parameter : S.inner _ (parameter nested) (parameter nested') :=
  S.parameter hnested (L.collect (S.within.lift .parameterWord))

end

variable {block : Int → m (Mended Block)} {block' : Int → m' (Mended Block)}
  (hblock : ∀ header, S.outer _ (block header) (block' header))
include hnested hblock

theorem otherwiseFor (indent : Int) (bound : List Token) :
    S.outer _ (otherwiseFor nested block indent bound) (otherwiseFor nested' block' indent bound) := by
  induction bound with
  | nil => exact L.around.spent _
  | cons _ bound ih =>
    refine S.around.then_ (.takeElse _) fun taken => ite_related (S.around.pure _) ?_
    exact S.behindElse hnested hblock indent ih

/-- Statements stay related if the readers of expressions and of blocks are. -/
theorem statement (indent : Int) :
    S.outer _ (statement nested block indent) (statement nested' block' indent) :=
  S.statement hnested hblock (L.listItems (L.parameter hnested)) indent
    (L.around.bounded (L.otherwiseFor hnested hblock indent))

end Lockstep

end Reading

end PineScript.Parser
