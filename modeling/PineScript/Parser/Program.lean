import PineScript.Parser.Stmt

/-!
# Reading blocks and scripts

A suite is a run of statements of one indentation. It ends before a line that is indented less; a
line that is indented deeper is malformed. `Program.parse` reads a script and never fails.
-/

namespace PineScript

namespace Parser

/-- The comments among some layout tokens that have a line of their own. -/
def ownComments (layout : List Token) : List Stmt :=
  layout.filterMap fun t =>
    if t.kind == .comment && t.isLineLeading then some (.comment t.range t.text) else none

/-- Reads the statement that `first` opens, or recovers from its fault. -/
def attempt (statement : Int → Parser (Mended Stmt)) (indent : Int) (ctx : Context) (first : Token)
    (more : List Token) : Mended Stmt × List Token :=
  let start := first :: more
  if indent < indentOf indent first then
    let fault : Fault := ⟨.indentation, first.range⟩
    let (s, rest) := recover indent fault first start start
    (⟨s, [fault]⟩, rest)
  else match statement indent { ctx with bracketed := false, margin := none } start with
    | .ok s rest => (s, rest)
    | .fault fault stopped =>
      let (s, rest) := recover indent fault first start stopped
      (⟨s, [fault]⟩, rest)

/-- The next statement of a suite and the comments above it. At least one token is taken. -/
def suiteItem (statement : Int → Parser (Mended Stmt)) (indent : Int) :
    Parser (Option (Mended (List Stmt))) := fun ctx ts =>
  match ts.dropWhile Token.isLayout with
  | [] => .ok none ts
  | first :: more =>
    if indentOf indent first < indent then .ok none ts
    else
      let (s, rest) := attempt statement indent ctx first more
      let item := ⟨ownComments (ts.takeWhile Token.isLayout) ++ [s.value], s.faults⟩
      .ok (some item) (if rest.length ≤ more.length then rest else more)

/-- The statements from here on that share an indentation. -/
def suite (statement : Int → Parser (Mended Stmt)) (indent : Int) :
    Parser (Mended (List Stmt)) := do
  let items ← collect (suiteItem statement indent)
  return ⟨items.flatMap (·.value), items.flatMap (·.faults)⟩

/-- A block from the first to the last of its statements. -/
def blockOf (finish : Position) (statements : List Stmt) : Block :=
  match statements.head?, statements.getLast? with
  | some first, some last => .mk (first.range.span last.range) statements
  | _, _ => .mk (.point finish) statements

/-- Reads what `body` makes of the indented lines below a header; `body` is given their indentation
and first token. -/
def indented (header : Int) (body : Int → Token → Parser (Mended Block)) :
    Parser (Mended Block) := do
  endOfLine
  fun ctx ts =>
    match ts.dropWhile Token.isLayout with
    | [] => failHere .missingBlock ctx ts
    | first :: _ =>
      let indent := indentOf header first
      if indent ≤ header then failHere .missingBlock ctx ts else body indent first ctx ts

/-- Reads the block below a header, with at most so many levels of nesting. -/
def block : Nat → Int → Parser (Mended Block)
  | 0, header => indented header fun _ first => fail .deepBlocks first.range
  | n + 1, header => indented header fun indent _ => do
    let body ← suite (statement (expression n) (block n)) indent
    fun ctx ts => .ok ⟨blockOf ctx.finish body.value, body.faults⟩ ts

/-- Blocks and nested expressions together may be this deep. -/
def nestingLimit : Nat := 48

/-- The statements of a script. The layout behind the last of them belongs to it. -/
def script : Parser (Mended (List Stmt)) := do
  let body ← suite (statement (expression nestingLimit) (block nestingLimit)) 0
  fun _ ts =>
    let trailing := if ts.all Token.isLayout then ownComments ts else []
    .ok ⟨body.value ++ trailing, body.faults⟩ (if ts.all Token.isLayout then [] else ts)

end Parser

/-- Where a list of tokens ends. -/
def finishOf (ts : List Token) : Position :=
  match ts.getLast? with
  | some last => last.range.stop
  | none => .origin

/-- The script that some tokens spell, and the faults that were found, in source order. -/
def Program.parse (ts : List Token) : Program × List Fault :=
  let finish := finishOf ts
  match Parser.script ⟨finish, false, none⟩ ts with
  | .ok body _ => (⟨⟨.origin, finish⟩, body.value⟩, body.faults)
  | .fault fault _ => (⟨⟨.origin, finish⟩, []⟩, [fault])

end PineScript
