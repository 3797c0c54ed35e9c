import PineScript.Diagnostic

/-!
# Published diagnostics

The published form of diagnostics is a list of records, written as JSON text: two spaces for each
level, fields in a fixed order, and nothing but ASCII.
-/

namespace PineScript

inductive Payload where
  | number (value : Int)
  | text (value : String)
  | list (items : List Payload)
  | record (fields : List (String × Payload))

namespace Payload

/-! ## Text in quotes -/

/-- The last four hexadecimal digits of a number. -/
def hex4 (n : Nat) : List Char :=
  [n / 4096 % 16, n / 256 % 16, n / 16 % 16, n % 16].map Nat.digitChar

def escapeUnit (n : Nat) : List Char := '\\' :: 'u' :: hex4 n

/-- A character as it stands in quotes. Outside the basic plane it is written as two halves. -/
def escape (c : Char) : List Char :=
  let n := c.toNat
  if c = '"' then ['\\', '"']
  else if c = '\\' then ['\\', '\\']
  else if c = '\n' then ['\\', 'n']
  else if c = '\r' then ['\\', 'r']
  else if c = '\t' then ['\\', 't']
  else if n = 12 then ['\\', 'f']
  else if n = 8 then ['\\', 'b']
  else if 32 ≤ n ∧ n < 127 then [c]
  else if n < 0x10000 then escapeUnit n
  else
    escapeUnit (0xd800 + (n - 0x10000) / 0x400) ++ escapeUnit (0xdc00 + (n - 0x10000) % 0x400)

def quote (s : String) : List Char := '"' :: s.toList.flatMap escape ++ ['"']

/-! ## Layout -/

def spaces (level : Nat) : List Char := List.replicate (2 * level) ' '

/-- The items of a list or record, each on a line of its own, between brackets. -/
def enclose (opening closing : Char) (level : Nat) : List (List Char) → List Char
  | [] => [opening, closing]
  | item :: more =>
    let lines := item :: more
    let inner := List.intercalate [',', '\n'] (lines.map (spaces (level + 1) ++ ·))
    [opening, '\n'] ++ inner ++ ['\n'] ++ spaces level ++ [closing]

def digits (n : Int) : List Char :=
  if n < 0 then '-' :: Nat.toDigits 10 n.natAbs else Nat.toDigits 10 n.natAbs

mutual

def render (level : Nat) : Payload → List Char
  | number n => digits n
  | text s => quote s
  | list items => enclose '[' ']' level (renderItems (level + 1) items)
  | record fields => enclose '\x7b' '\x7d' level (renderFields (level + 1) fields)

def renderItems (level : Nat) : List Payload → List (List Char)
  | [] => []
  | p :: more => render level p :: renderItems level more

def renderFields (level : Nat) : List (String × Payload) → List (List Char)
  | [] => []
  | (name, p) :: more => (quote name ++ [':', ' '] ++ render level p) :: renderFields level more

end

def ofPosition (p : Position) : Payload :=
  record [("line", number p.line), ("character", number p.character)]

end Payload

namespace Diagnostic

def payload (d : Diagnostic) : Payload :=
  .record
    [("code", .text d.code),
     ("message", .text d.message),
     ("severity", .number d.severity.number),
     ("range", .record
       [("start", .ofPosition d.range.start), ("end", .ofPosition d.range.stop)]),
     ("source", .text d.source)]

/-- The published text of some diagnostics. -/
def publish (ds : List Diagnostic) : String :=
  String.ofList ((Payload.list (ds.map payload)).render 0 ++ ['\n'])

def hasErrors (ds : List Diagnostic) : Bool := ds.any isError

end Diagnostic

end PineScript
