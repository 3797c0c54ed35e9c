/-!
# Lines

Text is split into lines at a line feed, a carriage return, or the two in this order. A text with
`n` breaks has `n + 1` lines, the last of which may be empty.
-/

namespace PineScript.Text

def lines : List Char → List (List Char)
  | [] => [[]]
  | '\r' :: '\n' :: rest => [] :: lines rest
  | c :: rest =>
    if c = '\r' ∨ c = '\n' then [] :: lines rest
    else match lines rest with
      | [] => [[c]]
      | line :: more => (c :: line) :: more

end PineScript.Text
