import PineScript.Toml.Scalar

/-!
# Reading JSON

A reader for all of JSON, by which published text can be judged. Blanks may stand
around every value and every mark. A character outside the basic plane may be escaped as two halves,
and half a character is refused. A number without fraction and exponent is an integer.
-/

namespace PineScript

open Toml (Reader)

inductive Json where
  | null
  | bool (value : Bool)
  | integer (value : Int)
  /-- A number with a fraction or an exponent: its digits, times ten to the exponent. -/
  | decimal (digits exponent : Int)
  | text (value : String)
  | array (items : List Json)
  | object (members : List (String × Json))

namespace Json

def isBlank (c : Char) : Bool := c == ' ' || c == '\t' || c == '\n' || c == '\r'

def skip (cs : List Char) : List Char := cs.dropWhile isBlank

/-! ## Texts -/

def short? : Char → Option Char
  | '"' => some '"'
  | '\\' => some '\\'
  | '/' => some '/'
  | 'b' => some '\x08'
  | 'f' => some '\x0c'
  | 'n' => some '\n'
  | 'r' => some '\r'
  | 't' => some '\t'
  | _ => none

/-- The second half of a character whose first half is `high`. -/
def secondHalf? (high : Nat) : Reader Char
  | '\\' :: 'u' :: cs => do
    let (low, rest) ← Toml.hexNumber 4 0 cs
    if 0xdc00 ≤ low ∧ low < 0xe000 then
      return (Char.ofNat (0x10000 + (high - 0xd800) * 0x400 + (low - 0xdc00)), rest)
    else none
  | _ => none

/-- The character that a backslash and what follows it stand for. -/
def escaped? : Reader Char
  | 'u' :: cs => do
    let (unit, rest) ← Toml.hexNumber 4 0 cs
    if 0xd800 ≤ unit ∧ unit < 0xdc00 then secondHalf? unit rest
    else return (← Toml.charOf? unit, rest)
  | c :: cs => do return (← short? c, cs)
  | [] => none

/-- The characters up to the closing quote. Each round takes a character, so the length bounds the
rounds. -/
def characters : Nat → Reader (List Char)
  | 0, _ => none
  | _ + 1, [] => none
  | rounds + 1, c :: cs =>
    if c = '"' then some ([], cs)
    else if c = '\\' then do
      let (d, rest) ← escaped? cs
      let (more, left) ← characters rounds rest
      return (d :: more, left)
    else if c.toNat < 0x20 then none
    else do
      let (more, left) ← characters rounds cs
      return (c :: more, left)

/-- A text whose opening quote is taken. -/
def text? (cs : List Char) : Option (String × List Char) := do
  let (body, left) ← characters cs.length cs
  return (String.ofList body, left)

/-! ## Numbers -/

/-- Digits, at least one. -/
def digits? : Reader (List Char)
  | [] => none
  | c :: cs =>
    if c.isDigit then some ((c :: cs).takeWhile Char.isDigit, (c :: cs).dropWhile Char.isDigit)
    else none

/-- The digits in front of the point. A zero stands alone. -/
def whole? : Reader (List Char)
  | '0' :: cs => some (['0'], cs)
  | cs => digits? cs

/-- The digits behind the point, if there is a point with digits behind it. -/
def fraction (cs : List Char) : List Char × List Char :=
  match cs with
  | '.' :: rest => (digits? rest).getD ([], cs)
  | _ => ([], cs)

def signed? : Reader Int
  | '-' :: cs => (digits? cs).map fun (ds, rest) => (-(Nat.ofDigitChars 10 ds 0 : Int), rest)
  | '+' :: cs => (digits? cs).map fun (ds, rest) => (Nat.ofDigitChars 10 ds 0, rest)
  | cs => (digits? cs).map fun (ds, rest) => (Nat.ofDigitChars 10 ds 0, rest)

def exponent (cs : List Char) : Option Int × List Char :=
  match cs with
  | c :: rest =>
    if c = 'e' ∨ c = 'E' then
      match signed? rest with
      | some (n, left) => (some n, left)
      | none => (none, cs)
    else (none, cs)
  | [] => (none, cs)

/-- The number of this sign whose digits come first. -/
def unsigned? (sign : Int) (cs : List Char) : Option (Json × List Char) := do
  let (whole, rest) ← whole? cs
  let (part, rest) := fraction rest
  let (power, rest) := exponent rest
  let value := sign * Nat.ofDigitChars 10 (whole ++ part) 0
  if part = [] ∧ power = none then return (.integer value, rest)
  else return (.decimal value (power.getD 0 - part.length), rest)

def number? : Reader Json
  | '-' :: cs => unsigned? (-1) cs
  | cs => unsigned? 1 cs

/-! ## Values -/

/-- The words among the values. -/
def word? : Reader Json
  | 't' :: 'r' :: 'u' :: 'e' :: cs => some (.bool true, cs)
  | 'f' :: 'a' :: 'l' :: 's' :: 'e' :: cs => some (.bool false, cs)
  | 'n' :: 'u' :: 'l' :: 'l' :: cs => some (.null, cs)
  | _ => none

/-- A value that is neither a list nor a record. -/
def scalar? : Reader Json
  | '"' :: cs => do
    let (s, rest) ← text? cs
    return (.text s, rest)
  | cs => (word? cs).or (number? cs)

/-- Items with commas between them, at least one, up to a closing mark. Each round takes an item, so
the length of the text bounds the rounds. -/
def listed? {α : Type} (closing : Char) (item? : Reader α) : Nat → Reader (List α)
  | 0, _ => none
  | rounds + 1, cs => do
    let (item, rest) ← item? cs
    match skip rest with
    | [] => none
    | c :: left =>
      if c = ',' then do
        let (more, left) ← listed? closing item? rounds left
        return (item :: more, left)
      else if c = closing then return ([item], left)
      else none

/-- The items between two marks, the first of which is taken. -/
def enclosed? {α : Type} (closing : Char) (item? : Reader α) (cs : List Char) :
    Option (List α × List Char) :=
  if (skip cs).head? = some closing then some ([], (skip cs).tail)
  else listed? closing item? cs.length cs

/-- A name, a colon and a value. -/
def member? (value? : Reader Json) (cs : List Char) : Option ((String × Json) × List Char) :=
  match skip cs with
  | '"' :: rest => do
    let (name, rest) ← text? rest
    match skip rest with
    | ':' :: rest => do
      let (value, left) ← value? rest
      return ((name, value), left)
    | _ => none
  | _ => none

/-- A value and the blanks in front of it. The depth bounds how far values are nested. -/
def value? : Nat → Reader Json
  | 0, _ => none
  | depth + 1, cs =>
    match skip cs with
    | '[' :: rest => do
      let (items, left) ← enclosed? ']' (value? depth) rest
      return (.array items, left)
    | '\x7b' :: rest => do
      let (members, left) ← enclosed? '\x7d' (member? (value? depth)) rest
      return (.object members, left)
    | rest => scalar? rest

/-- The value that a text spells. Nothing but blanks may follow it. No value is nested deeper than
the text is long. -/
def decode (source : String) : Option Json := do
  let (value, rest) ← value? source.toList.length source.toList
  if skip rest = [] then return value else none

end Json

end PineScript
