import PineScript.Token

/-!
# Syntax faults

Why a statement could not be read, and where. A fault names what it met by kind and spelling, so
that its message does not depend on where in the document it stands.
-/

namespace PineScript

/-- What the grammar asks for at a place. -/
inductive Expected where
  | expression
  | endOfLine
  | loopVariable
  | boundsEnd
  | loopSource
  | variableName
  | equals
  | listGoesOn
  | arrow
  | parameterName
  | colon
  | closeParen
  | closeBracket
deriving DecidableEq, Repr, Inhabited

def Expected.text : Expected → String
  | expression => "an expression"
  | endOfLine => "end of line"
  | loopVariable => "a loop variable"
  | boundsEnd => "`to`"
  | loopSource => "`=` or `in`"
  | variableName => "a variable name"
  | equals => "`=`"
  | listGoesOn => "`,` or `)`"
  | arrow => "`=>`"
  | parameterName => "a parameter name"
  | colon => "`:`"
  | closeParen => "`)`"
  | closeBracket => "`]`"

namespace Fault

inductive Cause where
  | unexpected (kind : TokenKind) (text : String) (wanted : Expected)
  | indentation
  | missingBlock
  | deepBlocks
  | deepExpression
  | strayElse
deriving DecidableEq, Repr, Inhabited

/-- The first character of the text is a quote. -/
def opensQuote (text : String) : Bool :=
  match text.toList with
  | c :: _ => c == '"' || c == '\x27'
  | [] => false

def Cause.message : Cause → String
  | .unexpected .unknown text _ =>
    if opensQuote text then "Unterminated string literal" else s!"Unexpected character `{text}`"
  | .unexpected .eof _ wanted => s!"Unexpected end of input; expected {wanted.text}"
  | .unexpected .newline _ wanted => s!"Unexpected end of line; expected {wanted.text}"
  | .unexpected _ text wanted => s!"Unexpected `{text}`; expected {wanted.text}"
  | .indentation => "Unexpected indentation"
  | .missingBlock => "Expected an indented block"
  | .deepBlocks => "Blocks are nested too deeply"
  | .deepExpression => "Expression is nested too deeply"
  | .strayElse => "`else` without a matching `if`"

end Fault

structure Fault where
  cause : Fault.Cause
  range : Range
deriving DecidableEq, Repr, Inhabited

def Fault.message (fault : Fault) : String := fault.cause.message

end PineScript
