import PineScript.Text.Digit
import PineScript.Text.Lines
import PineScript.Text.Word
import PineScript.Token

/-!
# Scanning

Every physical line is scanned on its own. At each place the forms of lexemes are tried in a fixed
order, and the first that applies wins: blanks, comment, text in quotes, colour, number, name,
operator, punctuation, and at last any single character. So scanning never fails. `lexeme` cuts
off one lexeme, `lineTokens` places the lexemes of a line, and `tokenize` scans a document.
-/

namespace PineScript.Lexer

/-- Text that was cut in two: the lexeme and what is left. -/
structure Cut where
  lexeme : List Char
  rest : List Char
deriving DecidableEq, Repr

namespace Cut

def cons (c : Char) (cut : Cut) : Cut := ⟨c :: cut.lexeme, cut.rest⟩

def append (front : List Char) (cut : Cut) : Cut := ⟨front ++ cut.lexeme, cut.rest⟩

/-- Cuts after the longest run of characters in the class. -/
def run (p : Char → Bool) (cs : List Char) : Cut := ⟨cs.takeWhile p, cs.dropWhile p⟩

/-- Cuts after a run that is not empty. -/
def run? (p : Char → Bool) (cs : List Char) : Option Cut :=
  match cs with
  | c :: _ => if p c then some (run p cs) else none
  | [] => none

end Cut

/-! ## Forms of lexemes -/

/-- The characters that may stand between tokens. -/
def isSpace (c : Char) : Bool := c == ' ' || c == '\t' || c == '\x0c'

def isQuote (c : Char) : Bool := c == '"' || c == '\x27'

def isHexDigit (c : Char) : Bool :=
  c.isDigit || ('a' ≤ c && c ≤ 'f') || ('A' ≤ c && c ≤ 'F')

def comment? : List Char → Option Cut
  | '/' :: '/' :: rest => some ⟨'/' :: '/' :: rest, []⟩
  | _ => none

/-- The text up to and with the closing quote; a backslash takes the next character along. -/
def closeQuote? (quote : Char) : List Char → Option Cut
  | [] => none
  | c :: rest =>
    if c = quote then some ⟨[c], rest⟩
    else if c = '\\' then
      match rest with
      | [] => none
      | d :: more => (closeQuote? quote more).map fun cut => (cut.cons d).cons c
    else (closeQuote? quote rest).map (Cut.cons c)

def string? : List Char → Option Cut
  | [] => none
  | c :: rest => if isQuote c then (closeQuote? c rest).map (Cut.cons c) else none

/-- A quote that nothing closes takes the rest of the line. -/
def unterminated? : List Char → Option Cut
  | [] => none
  | c :: rest => if isQuote c then some ⟨c :: rest, []⟩ else none

def startsAsciiWord : List Char → Bool
  | [] => false
  | c :: _ => c == '_' || c.isAlphanum

/-- Exactly `n` hexadecimal digits that no ASCII word character follows. -/
def hexDigits? (n : Nat) (cs : List Char) : Option Cut :=
  let digits := cs.take n
  let rest := cs.drop n
  if digits.length = n ∧ digits.all isHexDigit ∧ !startsAsciiWord rest then some ⟨digits, rest⟩
  else none

def color? : List Char → Option Cut
  | '#' :: rest => ((hexDigits? 8 rest).or (hexDigits? 6 rest)).map (Cut.cons '#')
  | _ => none

def exponent? : List Char → Option Cut
  | c :: rest =>
    if c = 'e' ∨ c = 'E' then
      match rest with
      | s :: more =>
        if s = '+' ∨ s = '-' then (Cut.run? Text.isDigit more).map (Cut.append [c, s])
        else (Cut.run? Text.isDigit rest).map (Cut.cons c)
      | [] => none
    else none
  | [] => none

/-- Digits with an optional fraction, or a fraction alone. -/
def mantissa? (cs : List Char) : Option Cut :=
  match Cut.run? Text.isDigit cs with
  | some ⟨whole, rest⟩ =>
    match rest with
    | '.' :: more => some ((Cut.run Text.isDigit more).append (whole ++ ['.']))
    | _ => some ⟨whole, rest⟩
  | none =>
    match cs with
    | '.' :: more => (Cut.run? Text.isDigit more).map (Cut.cons '.')
    | _ => none

def number? (cs : List Char) : Option Cut :=
  (mantissa? cs).map fun cut =>
    match exponent? cut.rest with
    | some power => power.append cut.lexeme
    | none => cut

/-- One word of a name. -/
def word? : List Char → Option Cut
  | [] => none
  | c :: rest => if Text.isNameStart c then some ((Cut.run Text.isWordChar rest).cons c) else none

theorem word?_rest_length {cs : List Char} {cut : Cut} (h : word? cs = some cut) :
    cut.rest.length < cs.length := by
  unfold word? at h
  split at h
  · simp at h
  · rename_i c rest
    split at h
    · simp only [Option.some.injEq] at h
      subst h
      have := (List.dropWhile_sublist (l := rest) Text.isWordChar).length_le
      simp only [Cut.cons, Cut.run, List.length_cons]
      omega
    · simp at h

/-- The further words of a dotted name. -/
def dottedWords (cs : List Char) : Cut :=
  match cs with
  | '.' :: rest =>
    match h : word? rest with
    | some cut =>
      have : cut.rest.length < rest.length := word?_rest_length h
      (dottedWords cut.rest).append ('.' :: cut.lexeme)
    | none => ⟨[], cs⟩
  | _ => ⟨[], cs⟩
termination_by cs.length

def name? (cs : List Char) : Option Cut :=
  (word? cs).map fun cut => (dottedWords cut.rest).append cut.lexeme

/-- The operators of two characters. -/
def longOperators : List (List Char) :=
  [[':', '='], ['=', '='], ['!', '='], ['<', '='], ['>', '='], ['=', '>'], ['+', '='], ['-', '='],
    ['*', '='], ['/', '='], ['%', '=']]

def shortOperators : List Char :=
  ['-', '+', '*', '/', '%', '<', '>', '=', '?', ':']

def operator? : List Char → Option Cut
  | a :: b :: rest =>
    if [a, b] ∈ longOperators then some ⟨[a, b], rest⟩
    else if a ∈ shortOperators then some ⟨[a], b :: rest⟩
    else none
  | [a] => if a ∈ shortOperators then some ⟨[a], []⟩ else none
  | [] => none

def punctuation? : List Char → Option Cut
  | c :: rest => if c ∈ ['(', ')', '[', ']', ','] then some ⟨[c], rest⟩ else none
  | [] => none

/-! ## Lexemes, lines, documents -/

def wordKind (name : List Char) : TokenKind :=
  if String.ofList name ∈ keywords then .keyword else .identifier

/-- The lexeme that starts with `c`, which is no space, and its kind. -/
def lexeme (c : Char) (rest : List Char) : TokenKind × Cut :=
  let cs := c :: rest
  if let some cut := comment? cs then (.comment, cut)
  else if let some cut := string? cs then (.string, cut)
  else if let some cut := unterminated? cs then (.unknown, cut)
  else if let some cut := color? cs then (.color, cut)
  else if let some cut := number? cs then (.number, cut)
  else if let some cut := name? cs then (wordKind cut.lexeme, cut)
  else if let some cut := operator? cs then (.operator, cut)
  else if let some cut := punctuation? cs then (.punctuation, cut)
  else (.unknown, ⟨[c], rest⟩)

/-- The lexemes of a line with their start columns. A round takes a run of spaces or a lexeme,
so the line's length bounds the rounds. -/
def scan : Nat → Nat → List Char → List (TokenKind × Nat × List Char)
  | 0, _, _ => []
  | _ + 1, _, [] => []
  | rounds + 1, column, c :: rest =>
    if isSpace c then
      scan rounds (column + (Cut.run isSpace rest).lexeme.length + 1) (Cut.run isSpace rest).rest
    else
      let (kind, cut) := lexeme c rest
      (kind, column, cut.lexeme) :: scan rounds (column + cut.lexeme.length) cut.rest

def indentOf (line : List Char) : Nat := (line.takeWhile isSpace).length

/-- Hands the indentation of a line to its first token. -/
def markFirst (indent : Nat) : List Token → List Token
  | [] => []
  | t :: ts => { t with indent := some (indent : Int) } :: ts

def place (line : Nat) (kind : TokenKind) (column : Nat) (text : List Char) : Token :=
  { kind
    text := String.ofList text
    range := ⟨⟨line, column⟩, ⟨line, (column + text.length : Nat)⟩⟩ }

/-- The line break behind a line. -/
def breakToken (line : Nat) (text : List Char) : Token :=
  place line .newline text.length ['\n']

def lineTokens (number : Nat) (line : List Char) : List Token :=
  (scan line.length 0 line).map fun (kind, column, text) => place number kind column text

/-- The tokens of the lines from line `number` on; every line but the last ends in a break. -/
def documentTokens : Nat → List (List Char) → List Token
  | _, [] => []
  | number, [line] => markFirst (indentOf line) (lineTokens number line)
  | number, line :: more =>
    markFirst (indentOf line) (lineTokens number line ++ [breakToken number line])
      ++ documentTokens (number + 1) more

end PineScript.Lexer

namespace PineScript

/-- The tokens of a script, in source order. -/
def tokenize (source : String) : List Token :=
  Lexer.documentTokens 0 (Text.lines source.toList)

end PineScript
