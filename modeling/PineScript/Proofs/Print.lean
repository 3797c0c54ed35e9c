import PineScript.Proofs.Grammar
import PineScript.Proofs.Lexer.Lexeme
import PineScript.Tree.Stmt

/-!
# Printing

A tree is printed as lines of words. A line is indented by four spaces for each block around it, and
one space stands between two words. An operand is put in parentheses only if it would otherwise fall
apart: if it binds looser than its place asks for.

`Program.print` gives the text. `Program.Printable` says which trees have a text that stands for
them, and `erase` forgets the ranges, which printing does not keep.
-/

namespace PineScript

/-! ## Words -/

/-- The key words of statements with a block. -/
inductive Keyword where
  | «if» | «else» | «for» | to | «by» | «in» | «while»
deriving DecidableEq, Repr

def Keyword.text : Keyword → String
  | .if => "if"
  | .else => "else"
  | .for => "for"
  | .to => "to"
  | .by => "by"
  | .in => "in"
  | .while => "while"

/-- Brackets and the signs that hold a form together. -/
inductive Mark where
  | openParen | closeParen | openBracket | closeBracket | comma
  | equals | arrow | question | colon
deriving DecidableEq, Repr

namespace Mark

def kind : Mark → TokenKind
  | openParen | closeParen | openBracket | closeBracket | comma => .punctuation
  | equals | arrow | question | colon => .operator

def text : Mark → String
  | openParen => "("
  | closeParen => ")"
  | openBracket => "["
  | closeBracket => "]"
  | comma => ","
  | equals => "="
  | arrow => "=>"
  | question => "?"
  | colon => ":"

end Mark

/-- What is printed between two spaces. -/
inductive Word where
  | name (text : String)
  | literal (value : Literal)
  | unary (op : UnaryOp)
  | binary (op : BinaryOp)
  | assign (op : AssignOp)
  | modifier (modifier : Modifier)
  | jump (kind : JumpKind)
  | keyword (word : Keyword)
  | mark (mark : Mark)
deriving DecidableEq, Repr

namespace Word

def kind : Word → TokenKind
  | name _ => .identifier
  | literal v => v.kind
  | unary op => op.kind
  | binary op => op.kind
  | assign _ => .operator
  | modifier _ | jump _ | keyword _ => .keyword
  | mark m => m.kind

def text : Word → String
  | name s => s
  | literal v => v.text
  | unary op => op.text
  | binary op => op.text
  | assign op => op.text
  | modifier m => m.text
  | jump k => k.text
  | keyword w => w.text
  | mark m => m.text

/-- The kind and spelling by which a token is recognised. -/
def lexeme (w : Word) : TokenKind × String := (w.kind, w.text)

/-- The words with commas between them. -/
def separated : List (List Word) → List Word
  | [] => []
  | [ws] => ws
  | ws :: more => ws ++ mark .comma :: separated more

def inParens (ws : List Word) : List Word := mark .openParen :: (ws ++ [mark .closeParen])

end Word

/-- A printed line below so many headers. -/
structure Line where
  level : Nat
  words : List Word
deriving DecidableEq, Repr

def Line.text (line : Line) : List Char :=
  List.replicate (4 * line.level) ' ' ++ [' '].intercalate (line.words.map (·.text.toList))

/-! ## Expressions -/

namespace Expr

/-- How tightly an expression holds together; what stands alone holds together tightest. -/
def tightness : Expr → Nat
  | .ternary _ _ _ _ => 0
  | .binary _ op _ _ => op.precedence + 1
  | .unary _ _ _ => 7
  | .name _ | .literal _ _ | .call _ _ _ | .index _ _ _ => 8

/-- The words of an operand at a place that asks for the given tightness. -/
def wordsAt (place own : Nat) (ws : List Word) : List Word :=
  if own < place then Word.inParens ws else ws

end Expr

mutual

def Expr.words : Expr → List Word
  | .name n => [.name n.text]
  | .literal _ v => [.literal v]
  | .call _ callee arguments =>
    Expr.wordsAt 8 callee.tightness callee.words ++
      Word.inParens (Word.separated (Argument.wordLists arguments))
  | .index _ target subscript =>
    Expr.wordsAt 8 target.tightness target.words ++
      .mark .openBracket :: (subscript.words ++ [.mark .closeBracket])
  | .unary _ op operand => .unary op :: Expr.wordsAt 7 operand.tightness operand.words
  | .binary _ op left right =>
    Expr.wordsAt (op.precedence + 1) left.tightness left.words ++
      .binary op :: Expr.wordsAt (op.precedence + 2) right.tightness right.words
  | .ternary _ condition whenTrue whenFalse =>
    Expr.wordsAt 1 condition.tightness condition.words ++
      .mark .question :: (whenTrue.words ++ .mark .colon :: whenFalse.words)

def Argument.words : Argument → List Word
  | .positional value => value.words
  | .named _ name value => .name name.text :: .mark .equals :: value.words

def Argument.wordLists : List Argument → List (List Word)
  | [] => []
  | a :: more => a.words :: Argument.wordLists more

end

namespace Expr

/-- A pair of parentheses is one more level. -/
def depthAt (place own depth : Nat) : Nat := if own < place then depth + 1 else depth

end Expr

mutual

/-- How many expressions stand inside each other, the expression itself being the first. -/
def Expr.depth : Expr → Nat
  | .name _ | .literal _ _ => 1
  | .call _ callee arguments =>
    max (Expr.depthAt 8 callee.tightness callee.depth) (Argument.depths arguments + 1)
  | .index _ target subscript =>
    max (Expr.depthAt 8 target.tightness target.depth) (subscript.depth + 1)
  | .unary _ _ operand => Expr.depthAt 7 operand.tightness operand.depth
  | .binary _ op left right =>
    max (Expr.depthAt (op.precedence + 1) left.tightness left.depth)
      (Expr.depthAt (op.precedence + 2) right.tightness right.depth)
  | .ternary _ condition whenTrue whenFalse =>
    max (Expr.depthAt 1 condition.tightness condition.depth)
      (max whenTrue.depth whenFalse.depth + 1)

def Argument.depth : Argument → Nat
  | .positional value => value.depth
  | .named _ _ value => value.depth

def Argument.depths : List Argument → Nat
  | [] => 0
  | a :: more => max a.depth (Argument.depths more)

end

def Expr.depthOf? (e : Option Expr) : Nat := (e.map Expr.depth).getD 0

namespace Parameter

/-- The words that a space separates. -/
def splitWords : List Char → List (List Char)
  | [] => [[]]
  | c :: cs =>
    if c = ' ' then [] :: splitWords cs
    else match splitWords cs with
      | [] => [[c]]
      | w :: ws => (c :: w) :: ws

def typeWords : Option String → List Word
  | none => []
  | some text => (splitWords text.toList).map fun w => .name (String.ofList w)

def words (p : Parameter) : List Word :=
  typeWords p.typeName ++ .name p.name.text ::
    match p.default with
    | none => []
    | some value => .mark .equals :: value.words

def depths (ps : List Parameter) : Nat :=
  ps.foldr (fun p depth => max (Expr.depthOf? p.default) depth) 0

end Parameter

/-! ## Statements -/

/-- The words of a function's header up to its arrow. -/
def functionHeader (name : Name) (parameters : List Parameter) : List Word :=
  .name name.text :: (Word.inParens (Word.separated (parameters.map Parameter.words)) ++
    [.mark .arrow])

mutual

def Stmt.lines (level : Nat) : Stmt → List Line
  | .comment _ _ | .malformed _ _ => []
  | .expression value => [⟨level, value.words⟩]
  | .declaration _ modifier typeName name value =>
    [⟨level, (modifier.map Word.modifier).toList ++ (typeName.map Word.name).toList ++
      .name name.text :: .mark .equals :: value.words⟩]
  | .assignment _ target op value => [⟨level, .name target.text :: .assign op :: value.words⟩]
  | .jump _ kind value => [⟨level, .jump kind :: (value.map Expr.words).getD []⟩]
  | .conditional branch => branch.lines level [.keyword .if]
  | .countingLoop _ counter first last step body =>
    ⟨level, .keyword .for :: .name counter.text :: .mark .equals ::
      (first.words ++ .keyword .to :: (last.words ++
        (step.map fun e => .keyword .by :: e.words).getD []))⟩ :: body.lines (level + 1)
  | .iteratingLoop _ element collection body =>
    ⟨level, .keyword .for :: .name element.text :: .keyword .in :: collection.words⟩ ::
      body.lines (level + 1)
  | .whileLoop _ condition body =>
    ⟨level, .keyword .while :: condition.words⟩ :: body.lines (level + 1)
  | .lineFunction _ name parameters value => [⟨level, functionHeader name parameters ++ value.words⟩]
  | .blockFunction _ name parameters body =>
    ⟨level, functionHeader name parameters⟩ :: body.lines (level + 1)

/-- The lines of a branch that begins with the given key words. -/
def Branch.lines (level : Nat) (lead : List Word) : Branch → List Line
  | .mk _ condition body otherwise =>
    ⟨level, lead ++ condition.words⟩ :: (body.lines (level + 1) ++ otherwise.lines level)

def Otherwise.lines (level : Nat) : Otherwise → List Line
  | .nothing => []
  | .block body => ⟨level, [.keyword .else]⟩ :: body.lines (level + 1)
  | .elseIf branch => branch.lines level [.keyword .else, .keyword .if]

def Block.lines (level : Nat) : Block → List Line
  | .mk _ statements => Stmt.linesOf level statements

def Stmt.linesOf (level : Nat) : List Stmt → List Line
  | [] => []
  | s :: more => s.lines level ++ Stmt.linesOf level more

end

namespace Program

def lines (p : Program) : List Line := Stmt.linesOf 0 p.body

/-- The text of a script, with a line break between two lines. -/
def print (p : Program) : String := String.ofList (['\n'].intercalate (p.lines.map Line.text))

end Program

/-! ## Trees with a text -/

/-- A name or literal is scanned as one token of its kind; all other words are, anyway. -/
def Word.isSpelled : Word → Bool
  | .name text => (tokenize text).map Token.lexeme == [(.identifier, text)]
  | .literal v => (tokenize v.text).map Token.lexeme == [(v.kind, v.text)]
  | _ => true

mutual

/-- How deep blocks and expressions stand inside each other. -/
def Stmt.depth : Stmt → Nat
  | .comment _ _ | .malformed _ _ => 0
  | .expression value => value.depth
  | .declaration _ _ _ _ value => value.depth
  | .assignment _ _ _ value => value.depth
  | .jump _ _ value => Expr.depthOf? value
  | .conditional branch => branch.depth
  | .countingLoop _ _ first last step body =>
    max (max first.depth last.depth) (max (Expr.depthOf? step) body.depth)
  | .iteratingLoop _ _ collection body => max collection.depth body.depth
  | .whileLoop _ condition body => max condition.depth body.depth
  | .lineFunction _ _ parameters value => max (Parameter.depths parameters) value.depth
  | .blockFunction _ _ parameters body => max (Parameter.depths parameters) body.depth

def Branch.depth : Branch → Nat
  | .mk _ condition body otherwise => max (max condition.depth body.depth) otherwise.depth

def Otherwise.depth : Otherwise → Nat
  | .nothing => 0
  | .block body => body.depth
  | .elseIf branch => branch.depth

def Block.depth : Block → Nat
  | .mk _ statements => Stmt.depths statements + 1

def Stmt.depths : List Stmt → Nat
  | [] => 0
  | s :: more => max s.depth (Stmt.depths more)

end

/-- A type that is written has words. -/
def Parameter.isWellFormed (p : Parameter) : Bool := p.typeName != some ""

mutual

/-- There are no comments and malformed statements, only `return` has a value, and no block is
empty. -/
def Stmt.isWellFormed : Stmt → Bool
  | .comment _ _ | .malformed _ _ => false
  | .expression _ | .declaration _ _ _ _ _ | .assignment _ _ _ _ => true
  | .jump _ kind value => value.isNone || kind == .return
  | .conditional branch => branch.isWellFormed
  | .countingLoop _ _ _ _ _ body => body.isWellFormed
  | .iteratingLoop _ _ _ body => body.isWellFormed
  | .whileLoop _ _ body => body.isWellFormed
  | .lineFunction _ _ parameters _ => parameters.all Parameter.isWellFormed
  | .blockFunction _ _ parameters body =>
    parameters.all Parameter.isWellFormed && body.isWellFormed

def Branch.isWellFormed : Branch → Bool
  | .mk _ _ body otherwise => body.isWellFormed && otherwise.isWellFormed

def Otherwise.isWellFormed : Otherwise → Bool
  | .nothing => true
  | .block body => body.isWellFormed
  | .elseIf branch => branch.isWellFormed

def Block.isWellFormed : Block → Bool
  | .mk _ statements => !statements.isEmpty && Stmt.areWellFormed statements

def Stmt.areWellFormed : List Stmt → Bool
  | [] => true
  | s :: more => s.isWellFormed && Stmt.areWellFormed more

end

/-- The tree has a text that stands for it. -/
structure Program.Printable (p : Program) : Prop where
  wellFormed : Stmt.areWellFormed p.body
  spelled : ∀ line ∈ p.lines, ∀ w ∈ line.words, w.isSpelled
  depth : Stmt.depths p.body ≤ 48

/-! ## Trees without ranges -/

def Name.erase (n : Name) : Name := ⟨.origin, n.text⟩

mutual

def Expr.erase : Expr → Expr
  | .name n => .name n.erase
  | .literal _ v => .literal .origin v
  | .call _ callee arguments => .call .origin callee.erase (Argument.eraseAll arguments)
  | .index _ target subscript => .index .origin target.erase subscript.erase
  | .unary _ op operand => .unary .origin op operand.erase
  | .binary _ op left right => .binary .origin op left.erase right.erase
  | .ternary _ condition whenTrue whenFalse =>
    .ternary .origin condition.erase whenTrue.erase whenFalse.erase

def Argument.erase : Argument → Argument
  | .positional value => .positional value.erase
  | .named _ name value => .named .origin name.erase value.erase

def Argument.eraseAll : List Argument → List Argument
  | [] => []
  | a :: more => a.erase :: Argument.eraseAll more

end

def Parameter.erase (p : Parameter) : Parameter :=
  ⟨.origin, p.typeName, p.name.erase, p.default.map Expr.erase⟩

mutual

def Stmt.erase : Stmt → Stmt
  | .comment _ text => .comment .origin text
  | .malformed _ cause => .malformed .origin cause
  | .expression value => .expression value.erase
  | .declaration _ modifier typeName name value =>
    .declaration .origin modifier typeName name.erase value.erase
  | .assignment _ target op value => .assignment .origin target.erase op value.erase
  | .jump _ kind value => .jump .origin kind (value.map Expr.erase)
  | .conditional branch => .conditional branch.erase
  | .countingLoop _ counter first last step body =>
    .countingLoop .origin counter.erase first.erase last.erase (step.map Expr.erase) body.erase
  | .iteratingLoop _ element collection body =>
    .iteratingLoop .origin element.erase collection.erase body.erase
  | .whileLoop _ condition body => .whileLoop .origin condition.erase body.erase
  | .lineFunction _ name parameters value =>
    .lineFunction .origin name.erase (parameters.map Parameter.erase) value.erase
  | .blockFunction _ name parameters body =>
    .blockFunction .origin name.erase (parameters.map Parameter.erase) body.erase

def Branch.erase : Branch → Branch
  | .mk _ condition body otherwise => .mk .origin condition.erase body.erase otherwise.erase

def Otherwise.erase : Otherwise → Otherwise
  | .nothing => .nothing
  | .block body => .block body.erase
  | .elseIf branch => .elseIf branch.erase

def Block.erase : Block → Block
  | .mk _ statements => .mk .origin (Stmt.eraseAll statements)

def Stmt.eraseAll : List Stmt → List Stmt
  | [] => []
  | s :: more => s.erase :: Stmt.eraseAll more

end

def Program.erase (p : Program) : Program := ⟨.origin, Stmt.eraseAll p.body⟩

theorem Argument.eraseAll_eq_map (as : List Argument) : eraseAll as = as.map erase := by
  induction as with
  | nil => rfl
  | cons a more ih => rw [eraseAll, ih, List.map_cons]

theorem Stmt.eraseAll_eq_map (ss : List Stmt) : eraseAll ss = ss.map erase := by
  induction ss with
  | nil => rfl
  | cons s more ih => rw [eraseAll, ih, List.map_cons]

end PineScript
