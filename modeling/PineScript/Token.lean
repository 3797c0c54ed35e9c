import PineScript.Position

/-!
# Tokens

A token is a lexeme with its kind and place. The first token of a physical line carries the
line's indentation; no other token has one.
-/

namespace PineScript

inductive TokenKind where
  | identifier
  | keyword
  | number
  | string
  | color
  | operator
  | punctuation
  | newline
  | comment
  | unknown
  /-- The end of the input; scanning never gives one. -/
  | eof
deriving DecidableEq, Repr, Inhabited

namespace TokenKind

def all : List TokenKind :=
  [identifier, keyword, number, string, color, operator, punctuation, newline, comment, unknown,
    eof]

def name : TokenKind → String
  | identifier => "identifier"
  | keyword => "keyword"
  | number => "number"
  | string => "string"
  | color => "color"
  | operator => "operator"
  | punctuation => "punctuation"
  | newline => "newline"
  | comment => "comment"
  | unknown => "unknown"
  | eof => "eof"

def ofName? (text : String) : Option TokenKind :=
  all.find? (·.name == text)

/-- Line breaks and comments separate code and are not part of it. -/
def isLayout : TokenKind → Bool
  | newline | comment => true
  | _ => false

end TokenKind

/-- The words that are never names. -/
def keywords : List String :=
  ["if", "else", "for", "to", "by", "in", "while", "var", "varip", "and", "or", "not", "true",
    "false", "return", "break", "continue"]

structure Token where
  kind : TokenKind
  text : String
  range : Range
  indent : Option Int := none
deriving DecidableEq, Repr, Inhabited

namespace Token

/-- The token that stands behind the last one. -/
def endOfInput (pos : Position) : Token :=
  { kind := .eof, text := "", range := .point pos }

def isLayout (t : Token) : Bool := t.kind.isLayout

def isLineLeading (t : Token) : Bool := t.indent.isSome

def isKeyword (t : Token) (word : String) : Bool :=
  t.kind == .keyword && t.text == word

def isOperator (t : Token) (text : String) : Bool :=
  t.kind == .operator && t.text == text

def isPunctuation (t : Token) (mark : String) : Bool :=
  t.kind == .punctuation && t.text == mark

def isIdentifier (t : Token) : Bool := t.kind == .identifier

/-- Whether the line ends here, with or without a line break. -/
def isLineEnd (t : Token) : Bool :=
  t.kind == .newline || t.kind == .eof

end Token

end PineScript
