import PineScript.Diagnostic
import PineScript.Text.Blank
import PineScript.Text.UpperCase

/-!
# Suppression comments

A comment may hold `// pine-lint: noqa`, which silences its line, or `// pine-lint: disable-file`,
which silences the document; with a colon and a list of codes only those. The case of letters does
not matter. Of several directives of one kind for the same place the last counts.
-/

namespace PineScript.Suppression

/-! ## Coverage -/

/-- The codes that a directive silences. -/
inductive Coverage where
  | everything
  | codes (codes : List String)
deriving DecidableEq, Repr

/-- The pieces of a text between commas. -/
def splitCommas : List Char → List (List Char)
  | [] => [[]]
  | c :: rest =>
    if c = ',' then [] :: splitCommas rest
    else match splitCommas rest with
      | [] => [[c]]
      | piece :: more => (c :: piece) :: more

/-- Reads a list of codes. A list without any covers everything. -/
def Coverage.ofList (raw : List Char) : Coverage :=
  let pieces := ((splitCommas raw).map Text.trim).filter (!·.isEmpty)
  if pieces.isEmpty then everything else codes (pieces.map fun p => Text.upper (String.ofList p))

def Coverage.covers (coverage : Coverage) (code : String) : Bool :=
  match coverage with
  | everything => true
  | codes cs => Text.upper code ∈ cs

/-! ## Directives -/

/-- Letters outside ASCII that count as an ASCII letter when case is ignored. -/
def looseCases : List (Char × Char) :=
  [('i', 'İ'), ('i', 'ı'), ('s', 'ſ'), ('k', 'K')]

/-- Whether a character spells a small letter or mark, ignoring case. -/
def spells (letter c : Char) : Bool :=
  c.toLower == letter || looseCases.contains (letter, c)

/-- What is left behind a word. -/
def behindWord : List Char → List Char → Option (List Char)
  | [], cs => some cs
  | _ :: _, [] => none
  | letter :: word, c :: cs => if spells letter c then behindWord word cs else none

def isCodeChar (c : Char) : Bool :=
  c == '_' || c.isAlphanum || looseCases.any (·.2 == c)

/-- The list of codes behind a directive's colon. -/
def codeList : List Char → Coverage
  | ':' :: rest =>
    let body := rest.dropWhile Text.isBlank
    match body with
    | c :: _ =>
      if isCodeChar c then
        .ofList (body.takeWhile fun d => isCodeChar d || d == ',' || Text.isBlank d)
      else .everything
    | [] => .everything
  | _ => .everything

/-- A directive that starts right here. -/
def directiveHere? (word : List Char) : List Char → Option Coverage
  | '/' :: '/' :: rest => do
    let name ← behindWord "pine-lint:".toList (rest.dropWhile Text.isBlank)
    let codes ← behindWord word (name.dropWhile Text.isBlank)
    return codeList codes
  | _ => none

/-- The first directive in a text. -/
def directive? (word : List Char) : List Char → Option Coverage
  | [] => none
  | c :: rest => (directiveHere? word (c :: rest)).or (directive? word rest)

def lineWord : List Char := "noqa".toList

def fileWord : List Char := "disable-file".toList

/-! ## Applying them -/

def comments (tokens : List Token) : List Token := tokens.filter (·.kind == .comment)

/-- The coverage for the whole document. -/
def ofFile (tokens : List Token) : Option Coverage :=
  ((comments tokens).filterMap fun t => directive? fileWord t.text.toList).getLast?

/-- The coverage for a line. -/
def ofLine (tokens : List Token) (line : Int) : Option Coverage :=
  (((comments tokens).filter (·.range.start.line == line)).filterMap
    fun t => directive? lineWord t.text.toList).getLast?

def silences (coverage : Option Coverage) (code : String) : Bool :=
  coverage.any (·.covers code)

/-- The diagnostics that no directive silences. -/
def apply (tokens : List Token) (diagnostics : List Diagnostic) : List Diagnostic :=
  diagnostics.filter fun d =>
    !(silences (ofFile tokens) d.code || silences (ofLine tokens d.range.start.line) d.code)

end PineScript.Suppression
