import PineScript.Toml.Value

/-!
# TOML scalars

Texts, numbers, dates and times. A reader takes the text that is left and gives a value and what is
left behind it, or nothing.
-/

namespace PineScript.Toml

abbrev Reader (α : Type) := List Char → Option (α × List Char)

def isTab (c : Char) : Bool := c == ' ' || c == '\t'

def isTabOrBreak (c : Char) : Bool := isTab c || c == '\n'

/-- Control characters, which may not stand in a text or comment; the tab may. -/
def isControl (c : Char) : Bool := (c.toNat < 32 && c != '\t') || c.toNat == 127

/-! ## Texts -/

def hexValue? (c : Char) : Option Nat :=
  if c.isDigit then some (c.toNat - 48)
  else if 'a' ≤ c ∧ c ≤ 'f' then some (c.toNat - 87)
  else if 'A' ≤ c ∧ c ≤ 'F' then some (c.toNat - 55)
  else none

/-- The number that exactly `n` hexadecimal digits spell. -/
def hexNumber : Nat → Nat → Reader Nat
  | 0, value, cs => some (value, cs)
  | n + 1, value, c :: cs => do hexNumber n (value * 16 + (← hexValue? c)) cs
  | _ + 1, _, [] => none

/-- The character with a code, which has to be a scalar value. -/
def charOf? (code : Nat) : Option Char :=
  if code < 0xd800 ∨ (0xdfff < code ∧ code < 0x110000) then some (Char.ofNat code) else none

def escaped? : Char → Option Char
  | 'b' => some '\x08'
  | 't' => some '\t'
  | 'n' => some '\n'
  | 'f' => some '\x0c'
  | 'r' => some '\r'
  | '"' => some '"'
  | '\\' => some '\\'
  | _ => none

/-- The character that a backslash and `c` stand for. -/
def escape? (c : Char) (cs : List Char) : Option (Char × List Char) := do
  if c = 'u' ∨ c = 'U' then
    let (code, rest) ← hexNumber (if c = 'u' then 4 else 8) 0 cs
    return (← charOf? code, rest)
  else return (← escaped? c, cs)

/-- What is left behind a backslash and a blank in a text of several lines: the line has to end, and
all blanks that follow are dropped. -/
def foldLine? (c : Char) (cs : List Char) : Option (List Char) :=
  if c = '\n' then some (cs.dropWhile isTabOrBreak)
  else match cs.dropWhile isTab with
    | [] => some []
    | d :: rest => if d = '\n' then some (rest.dropWhile isTabOrBreak) else none

/-- The text up to its closing quotes. Each round takes a character, so the length bounds the
rounds. -/
def basicBody (multiline : Bool) : Nat → Reader (List Char)
  | 0, _ => none
  | _ + 1, [] => none
  | rounds + 1, '"' :: rest =>
    if multiline then
      match rest with
      | '"' :: '"' :: more => some ([], more)
      | _ => do
        let (text, left) ← basicBody multiline rounds rest
        return ('"' :: text, left)
    else some ([], rest)
  | rounds + 1, '\\' :: c :: rest =>
    if multiline && isTabOrBreak c then do basicBody multiline rounds (← foldLine? c rest)
    else do
      let (d, rest) ← escape? c rest
      let (text, left) ← basicBody multiline rounds rest
      return (d :: text, left)
  | rounds + 1, c :: rest =>
    if c = '\\' || (isControl c && !(multiline && c == '\n')) then none
    else do
      let (text, left) ← basicBody multiline rounds rest
      return (c :: text, left)

/-- The text up to a single quote on the same line. -/
def literalBody : Reader (List Char)
  | [] => none
  | c :: rest =>
    if c = '\x27' then some ([], rest)
    else if isControl c then none
    else do
      let (text, left) ← literalBody rest
      return (c :: text, left)

/-- The text up to three single quotes. -/
def literalLines : Reader (List Char)
  | '\x27' :: '\x27' :: '\x27' :: rest => some ([], rest)
  | [] => none
  | c :: rest =>
    if isControl c && c != '\n' then none
    else do
      let (text, left) ← literalLines rest
      return (c :: text, left)

/-- Up to two further quotes right behind the closing ones belong to the text. -/
def extraQuotes (quote : Char) (text : List Char) (cs : List Char) : List Char × List Char :=
  match cs with
  | a :: b :: rest =>
    if a = quote then
      if b = quote then (text ++ [quote, quote], rest) else (text ++ [quote], b :: rest)
    else (text, cs)
  | [a] => if a = quote then (text ++ [quote], []) else (text, cs)
  | [] => (text, cs)

def dropBreak : List Char → List Char
  | '\n' :: rest => rest
  | cs => cs

/-- A text on one line between double quotes, the first of which is taken. -/
def basicText (cs : List Char) : Option (List Char × List Char) := basicBody false cs.length cs

def text? : Reader String
  | '"' :: '"' :: '"' :: rest => do
    let body := dropBreak rest
    let (text, left) ← basicBody true body.length body
    let (text, left) := extraQuotes '"' text left
    return (String.ofList text, left)
  | '"' :: rest => do
    let (text, left) ← basicText rest
    return (String.ofList text, left)
  | '\x27' :: '\x27' :: '\x27' :: rest => do
    let (text, left) ← literalLines (dropBreak rest)
    let (text, left) := extraQuotes '\x27' text left
    return (String.ofList text, left)
  | '\x27' :: rest => do
    let (text, left) ← literalBody rest
    return (String.ofList text, left)
  | _ => none

/-! ## Numbers -/

/-- Further digits, between which single underscores may stand. -/
def moreDigits (p : Char → Bool) : List Char → List Char × List Char
  | [] => ([], [])
  | c :: rest =>
    if p c then
      let (digits, left) := moreDigits p rest
      (c :: digits, left)
    else match c, rest with
      | '_', d :: more =>
        if p d then
          let (digits, left) := moreDigits p more
          (d :: digits, left)
        else ([], c :: rest)
      | _, _ => ([], c :: rest)

def digits? (p : Char → Bool) : Reader (List Char)
  | c :: rest =>
    if p c then
      let (digits, left) := moreDigits p rest
      some (c :: digits, left)
    else none
  | [] => none

def valueOf (base : Nat) (digits : List Char) : Nat :=
  digits.foldl (fun n c => n * base + (hexValue? c).getD 0) 0

/-- A number in another base than ten. -/
def based? : Reader Value
  | '0' :: mark :: rest => do
    let (base, p) ← match mark with
      | 'x' => some (16, fun c => (hexValue? c).isSome)
      | 'b' => some (2, fun c => c == '0' || c == '1')
      | 'o' => some (8, fun c => '0' ≤ c && c ≤ '7')
      | _ => none
    let (digits, left) ← digits? p rest
    return (.integer (valueOf base digits), left)
  | _ => none

/-- What is left behind a fraction, if one stands here. -/
def passFraction : List Char → List Char
  | '.' :: rest =>
    match digits? Char.isDigit rest with
    | some (_, left) => left
    | none => '.' :: rest
  | cs => cs

def passSign : List Char → List Char
  | '+' :: rest => rest
  | '-' :: rest => rest
  | cs => cs

/-- What is left behind an exponent, if one stands here. -/
def passExponent (cs : List Char) : List Char :=
  match cs with
  | c :: rest =>
    if c = 'e' ∨ c = 'E' then
      match digits? Char.isDigit (passSign rest) with
      | some (_, left) => left
      | none => cs
    else cs
  | [] => cs

/-- The whole part of a decimal number; only zero starts with a zero. -/
def whole? : Reader (List Char)
  | '0' :: rest => some (['0'], rest)
  | cs => digits? Char.isDigit cs

def decimal? (cs : List Char) : Option (Value × List Char) := do
  let (digits, rest) ← whole? (passSign cs)
  let left := passExponent (passFraction rest)
  let n : Int := valueOf 10 digits
  if left.length < rest.length then return (.float, left)
  else return (.integer (if cs.head? = some '-' then -n else n), left)

def specialFloat? (cs : List Char) : Option (Value × List Char) :=
  match passSign cs with
  | 'i' :: 'n' :: 'f' :: rest => some (.float, rest)
  | 'n' :: 'a' :: 'n' :: rest => some (.float, rest)
  | _ => none

/-! ## Dates and times -/

/-- Two digits and their number. -/
def pair? : Reader Nat
  | a :: b :: rest =>
    if a.isDigit ∧ b.isDigit then some (valueOf 10 [a, b], rest) else none
  | _ => none

/-- What is left behind a character. -/
def pass? (c : Char) : List Char → Option (List Char)
  | d :: rest => if d = c then some rest else none
  | [] => none

def passTime? (cs : List Char) : Option (List Char) := do
  let (hour, cs) ← pair? cs
  let (minute, cs) ← pair? (← pass? ':' cs)
  let (second, cs) ← pair? (← pass? ':' cs)
  if 24 ≤ hour ∨ 60 ≤ minute ∨ 60 ≤ second then none
  else match cs with
    | '.' :: d :: rest => if d.isDigit then return rest.dropWhile Char.isDigit else return cs
    | _ => return cs

def passOffset (cs : List Char) : List Char :=
  match cs with
  | [] => cs
  | c :: rest =>
    if c = 'Z' ∨ c = 'z' then rest
    else if c = '+' ∨ c = '-' then
      let left? : Option (List Char) := do
        let (hour, more) ← pair? rest
        let (minute, more) ← pair? (← pass? ':' more)
        if hour < 24 ∧ minute < 60 then some more else none
      left?.getD cs
    else cs

def isLeapYear (year : Nat) : Bool := year % 4 == 0 && (year % 100 != 0 || year % 400 == 0)

def daysIn (year month : Nat) : Nat :=
  if month = 2 then (if isLeapYear year then 29 else 28)
  else if month = 4 ∨ month = 6 ∨ month = 9 ∨ month = 11 then 30
  else 31

structure Date where
  year : Nat
  month : Nat
  day : Nat

def Date.isValid (d : Date) : Bool := 1 ≤ d.year && d.day ≤ daysIn d.year d.month

/-- The form of a date; it may still name a day that does not exist. -/
def date? (cs : List Char) : Option (Date × List Char) := do
  let (century, cs) ← pair? cs
  let (year, cs) ← pair? cs
  let (month, cs) ← pair? (← pass? '-' cs)
  let (day, cs) ← pair? (← pass? '-' cs)
  if 1 ≤ month ∧ month ≤ 12 ∧ 1 ≤ day ∧ day ≤ 31 then
    return (⟨century * 100 + year, month, day⟩, cs)
  else none

/-- The value that starts with a date: the date alone, or a date with a time. -/
def dated (cs : List Char) : Value × List Char :=
  match cs with
  | c :: rest =>
    if c = 'T' ∨ c = 't' ∨ c = ' ' then
      match passTime? rest with
      | some left => (.datetime, passOffset left)
      | none => (.date, cs)
    else (.date, cs)
  | [] => (.date, cs)

/-- Numbers, dates and times. -/
def number? (cs : List Char) : Option (Value × List Char) :=
  match date? cs with
  | some (d, rest) => if d.isValid then some (dated rest) else none
  | none =>
    match passTime? cs with
    | some left => some (.time, left)
    | none => (based? cs).or ((decimal? cs).or (specialFloat? cs))

end PineScript.Toml
