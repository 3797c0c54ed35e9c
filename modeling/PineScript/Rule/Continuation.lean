import PineScript.Diagnostic
import PineScript.Sorted
import PineScript.Tree.Walk

/-!
# Indentation of continuation lines

When the header of a statement goes over several lines, each further line of code has to be indented
deeper than the line that starts it. Blank lines and lines of comments are not judged.
-/

namespace PineScript.Rule.Continuation

def id : String := "INDENTATION_CONTINUATION"

/-- The tokens that start on a line. -/
def onLine (tokens : List Token) (line : Int) : List Token :=
  tokens.filter (·.range.start.line == line)

/-- The lines after the first up to the last that hold a token, in order. -/
def furtherLines (tokens : List Token) (extent : Range) : List Int :=
  let lines := tokens.map (·.range.start.line)
  let further := lines.filter fun n => extent.start.line < n && n ≤ extent.stop.line
  dropRepeats (stableSort (fun a b => decide (a ≤ b)) further)

def message (indent required : Int) : String :=
  s!"Continuation line is indented {indent} characters; expected at least {required}"

/-- Judges a line by its tokens. A line is code if its first token is. -/
def judgeLine (required : Int) (line : List Token) : Option Diagnostic := do
  let first ← line.head?
  let last ← (line.filter (!·.isLayout)).getLast?
  let indent := first.indent.getD 0
  if first.isLayout || required ≤ indent then none
  else return {
    code := id
    message := message indent required
    severity := .error
    range := first.range.span last.range }

def isJudged : Stmt → Bool
  | .comment _ _ | .malformed _ _ => false
  | _ => true

def judge (minIndent : Int) (tokens : List Token) (s : Stmt) : List Diagnostic :=
  let extent := s.header
  if isJudged s && extent.isMultiline then
    match (onLine tokens extent.start.line).head? with
    | some ⟨_, _, _, some indent⟩ =>
      (furtherLines tokens extent).filterMap fun n =>
        judgeLine (indent + minIndent) (onLine tokens n)
    | _ => []
  else []

def check (minIndent : Int) (program : Program) (tokens : List Token) : List Diagnostic :=
  program.statements.flatMap (judge minIndent tokens)

end PineScript.Rule.Continuation
