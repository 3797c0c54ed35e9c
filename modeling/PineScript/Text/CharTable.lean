/-!
# Character tables

A class of characters, given as its runs of code points in their order. Each run stands with the
number of code points that are left out between the run before and itself, and with its length.
-/

namespace PineScript

abbrev CharTable := List (Nat × Nat)

namespace CharTable

/-- Whether a run holds the code point that is so far behind the runs before the table. -/
def holds : CharTable → Nat → Bool
  | [], _ => false
  | (gap, length) :: more, code =>
    if code < gap + length then gap ≤ code else holds more (code - (gap + length))

def has (table : CharTable) (c : Char) : Bool := table.holds c.toNat

end CharTable

end PineScript
