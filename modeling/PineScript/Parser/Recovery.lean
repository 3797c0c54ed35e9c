import PineScript.Parser.Basic
import PineScript.Tree.Stmt

/-!
# Recovery

After a fault reading goes on at the next line of code that is indented no deeper than the statement
that failed. All lines up to there become one malformed statement.
-/

namespace PineScript.Parser

def skipLine (ts : List Token) : List Token := ts.dropWhile (·.kind != .newline)

/-- The indentation of the line a token opens; within a line it is that of the statement. -/
def indentOf (fallback : Int) (t : Token) : Int := t.indent.getD fallback

theorem length_dropWhile_le (p : α → Bool) (l : List α) : (l.dropWhile p).length ≤ l.length :=
  (List.dropWhile_sublist p).length_le

/-- Leaves the end of the last line that belongs to the failed statement. -/
def resync (indent : Int) (ts : List Token) : List Token :=
  match h : (skipLine ts).dropWhile Token.isLayout with
  | [] => skipLine ts
  | t :: more =>
    have : more.length < ts.length := by
      have first := length_dropWhile_le Token.isLayout (skipLine ts)
      have second := length_dropWhile_le (·.kind != .newline) ts
      rw [h, List.length_cons] at first
      exact Nat.lt_of_lt_of_le first second
    if indentOf indent t ≤ indent then skipLine ts else resync indent more
termination_by ts.length

/-- The tokens in front of what is left. -/
def consumed (start rest : List Token) : List Token := start.take (start.length - rest.length)

/-- The range of the code among some tokens, the first of which is code. -/
def codeRange (first : Token) (ts : List Token) : Range :=
  first.range.span (((ts.filter (!·.isLayout)).getLast?.getD first).range)

/-- A malformed statement in place of the lines from `start` on, and what is left behind it. -/
def recover (indent : Int) (fault : Fault) (first : Token) (start rest : List Token) :
    Stmt × List Token :=
  let resumed := resync indent rest
  (.malformed (codeRange first (consumed start resumed)) fault.cause, resumed)

end PineScript.Parser
