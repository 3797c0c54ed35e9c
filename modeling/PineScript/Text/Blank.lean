import PineScript.Text.CharTable

/-!
# Blanks

White space of every kind: the ASCII blanks, the four separators U+001C to U+001F, the next-line
character and the spaces and line separators outside ASCII.
-/

namespace PineScript.Text

def blankTable : CharTable :=
  [(9, 5), (14, 5), (100, 1), (26, 1), (5599, 1), (2431, 11), (29, 2), (5, 1), (47, 1), (4000, 1)]

def isBlank (c : Char) : Bool := blankTable.has c

/-- Drops the blanks at both ends. -/
def trim (cs : List Char) : List Char :=
  (cs.dropWhile isBlank).reverse.dropWhile isBlank |>.reverse

end PineScript.Text
