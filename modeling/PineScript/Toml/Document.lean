import PineScript.Toml.Scalar

/-!
# TOML documents

A document is a list of statements, one a line: a header that opens a table, a header that appends a
table to an array, or an entry. A table may be opened once, and what an inline value made cannot be
changed later.
-/

namespace PineScript.Toml

/-! ## Keys and values -/

def isBareKeyChar (c : Char) : Bool := c.isAlphanum || c == '-' || c == '_'

def keyPart? : Reader String
  | '\x27' :: rest => do
    let (text, left) ← literalBody rest
    return (String.ofList text, left)
  | '"' :: rest => do
    let (text, left) ← basicText rest
    return (String.ofList text, left)
  | c :: rest =>
    if isBareKeyChar c then
      some (String.ofList (c :: rest.takeWhile isBareKeyChar), rest.dropWhile isBareKeyChar)
    else none
  | [] => none

/-- A dotted key; the blanks behind it are taken. -/
def keyFor : Nat → Reader Key
  | 0, _ => none
  | rounds + 1, cs => do
    let (part, rest) ← keyPart? cs
    match rest.dropWhile isTab with
    | '.' :: more => do
      let (parts, left) ← keyFor rounds (more.dropWhile isTab)
      return (part :: parts, left)
    | left => return ([part], left)

def key? (cs : List Char) : Option (Key × List Char) := keyFor cs.length cs

/-- What is left behind a comment, if one stands here. -/
def passComment? : List Char → Option (List Char)
  | '#' :: rest =>
    let comment := rest.takeWhile (· != '\n')
    if comment.any isControl then none else some (rest.dropWhile (· != '\n'))
  | cs => some cs

/-- Goes past blanks, line breaks and comments. -/
def passFiller? : Nat → List Char → Option (List Char)
  | 0, cs => some cs
  | rounds + 1, cs =>
    match cs.dropWhile isTabOrBreak with
    | '#' :: rest => do passFiller? rounds (← passComment? ('#' :: rest))
    | left => some left

def filler? (cs : List Char) : Option (List Char) := passFiller? cs.length cs

/-- The last part of a key and the parts before it. -/
def splitKey (key : Key) : Option (Key × String) :=
  key.getLast?.map (key.dropLast, ·)

/-- The entries of an inline table that are closed to further ones. -/
def isClosed (closed : List Key) (key : Key) : Bool := closed.any (·.isPrefixOf key)

mutual

def valueFor : Nat → Reader Value
  | 0, _ => none
  | depth + 1, cs =>
    match cs with
    | 't' :: 'r' :: 'u' :: 'e' :: rest => some (.boolean true, rest)
    | 'f' :: 'a' :: 'l' :: 's' :: 'e' :: rest => some (.boolean false, rest)
    | '[' :: rest => do
      let (items, left) ← itemsFor depth (← filler? rest)
      return (.array items, left)
    | '\x7b' :: rest =>
      match rest.dropWhile isTab with
      | '\x7d' :: left => some (.table [], left)
      | inner => do
        let (entries, left) ← entriesFor depth [] [] inner
        return (.table entries, left)
    | _ =>
      match text? cs with
      | some (text, left) => some (.string text, left)
      | none => number? cs

/-- The items of an array up to its bracket. -/
def itemsFor : Nat → Reader (List Value)
  | 0, _ => none
  | depth + 1, cs =>
    match cs with
    | ']' :: left => some ([], left)
    | _ => do
      let (item, rest) ← valueFor depth cs
      match ← filler? rest with
      | ']' :: left => return ([item], left)
      | ',' :: more => do
        let (items, left) ← itemsFor depth (← filler? more)
        return (item :: items, left)
      | _ => none

/-- The entries of an inline table up to its brace. -/
def entriesFor : Nat → List Key → Table → Reader Table
  | 0, _, _, _ => none
  | depth + 1, closed, made, cs => do
    let (key, rest) ← key? cs
    let rest ← pass? '=' rest
    let (value, rest) ← valueFor depth (rest.dropWhile isTab)
    let (parents, name) ← splitKey key
    if isClosed closed key then none
    else do
      let made ← Table.within false (·.add name value) parents made
      match rest.dropWhile isTab with
      | '\x7d' :: left => return (made, left)
      | ',' :: more =>
        let closed := if value.isContainer then key :: closed else closed
        entriesFor depth closed made (more.dropWhile isTab)
      | _ => none

end

/-- A value; the length of the text bounds its depth and its number of parts. -/
def value? (cs : List Char) : Option (Value × List Char) := valueFor (2 * cs.length + 2) cs

/-! ## Statements -/

structure Document where
  root : Table
  /-- The key of the table that entries go to. -/
  header : Key
  /-- Tables that a header may not open again. -/
  opened : List Key
  /-- Tables made by dotted keys, which are opened when the next header comes. -/
  dotted : List Key
  /-- What inline values made. -/
  closed : List Key

namespace Document

def empty : Document := ⟨[], [], [], [], []⟩

/-- Before a header: the tables that dotted keys made are opened. -/
def settle (d : Document) : Document := { d with opened := d.opened ++ d.dotted, dotted := [] }

def openTable (d : Document) (key : Key) : Option Document :=
  if d.opened.contains key || isClosed d.closed key then none
  else do
    let root ← Table.within true some key d.root
    return { d with root, header := key, opened := key :: d.opened }

def appendTable (d : Document) (key : Key) : Option Document :=
  if isClosed d.closed key then none
  else do
    let (parents, name) ← splitKey key
    let root ← Table.within true (Table.appendTable name) parents d.root
    let free := fun keys : List Key => keys.filter (!key.isPrefixOf ·)
    return { d with
      root
      header := key
      opened := key :: free d.opened
      closed := free d.closed }

/-- The keys of the tables that a dotted key passes. -/
def passed (header key : Key) : List Key :=
  (List.range (key.length - 1)).map fun i => header ++ key.take (i + 1)

def addEntry (d : Document) (key : Key) (value : Value) : Option Document := do
  let (parents, name) ← splitKey key
  let tables := passed d.header key
  if tables.any d.opened.contains || isClosed d.closed (d.header ++ parents) then none
  else
    let root ← Table.within true (·.add name value) (d.header ++ parents) d.root
    let closed := if value.isContainer then (d.header ++ key) :: d.closed else d.closed
    return { d with root, closed, dotted := d.dotted ++ tables }

/-- Reads the statement that starts here. -/
def statement? (d : Document) : Reader Document
  | '[' :: '[' :: rest => do
    let (key, rest) ← key? (rest.dropWhile isTab)
    let next ← d.settle.appendTable key
    return (next, ← pass? ']' (← pass? ']' rest))
  | '[' :: rest => do
    let (key, rest) ← key? (rest.dropWhile isTab)
    let next ← d.settle.openTable key
    return (next, ← pass? ']' rest)
  | '#' :: rest => some (d, '#' :: rest)
  | cs => do
    let (key, rest) ← key? cs
    let rest ← pass? '=' rest
    let (value, rest) ← value? (rest.dropWhile isTab)
    return (← d.addEntry key value, rest)

/-- Reads the statements from here on; the length of the text bounds their number. -/
def statementsFor : Nat → Document → List Char → Option Document
  | 0, _, _ => none
  | rounds + 1, d, cs =>
    match cs.dropWhile isTab with
    | [] => some d
    | '\n' :: rest => statementsFor rounds d rest
    | start => do
      let (d, rest) ← d.statement? start
      match ← passComment? (rest.dropWhile isTab) with
      | [] => return d
      | '\n' :: rest => statementsFor rounds d rest
      | _ => none

end Document

/-- A text with the breaks of two characters made one. -/
def joinBreaks : List Char → List Char
  | [] => []
  | '\r' :: '\n' :: rest => '\n' :: joinBreaks rest
  | c :: rest => c :: joinBreaks rest

/-- The root table of a document, if it is well formed. -/
def parse? (source : String) : Option Table :=
  let cs := joinBreaks source.toList
  (Document.statementsFor (cs.length + 1) .empty cs).map (·.root)

end PineScript.Toml
