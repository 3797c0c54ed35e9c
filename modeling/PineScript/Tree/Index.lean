import PineScript.Tree.Walk

/-!
# Looking up in a tree

The nodes of a script under their numbers, which say the order of visits, and the ways from a node
to those above it.
-/

namespace PineScript

/-- The nodes of a script, each at its number. -/
def Program.index (p : Program) : Array Node.Entry := p.node.outline.toArray

namespace Node

/-- Scripts and blocks hold statements of their own. -/
def isBody : Node → Bool
  | program _ | block _ => true
  | _ => false

variable (index : Array Entry)

def nodeAt? (n : Nat) : Option Node := index[n]?.map (·.node)

/-- The number of the parent, which is visited first. -/
def parentAt? (n : Nat) : Option Nat := index[n]?.bind fun e => e.parent.filter (· < n)

theorem parentAt?_lt {index : Array Entry} {n p : Nat} (h : parentAt? index n = some p) : p < n := by
  obtain ⟨e, -, hp⟩ := Option.bind_eq_some_iff.1 h
  simpa using (Option.filter_eq_some_iff.1 hp).2

def isBodyAt (n : Nat) : Bool := (nodeAt? index n).any isBody

/-- The nearest body above a node. -/
def bodyAbove? (n : Nat) : Option Nat :=
  match h : parentAt? index n with
  | none => none
  | some p =>
    have : p < n := parentAt?_lt h
    if isBodyAt index p then some p else bodyAbove? p
termination_by n

theorem bodyAbove?_lt {index : Array Entry} {n b : Nat} (h : bodyAbove? index n = some b) :
    b < n := by
  fun_induction bodyAbove? index n with
  | case1 => cases h
  | case2 n p hparent hlt _ =>
    cases h
    exact hlt
  | case3 n p hparent hlt _ ih => exact Nat.lt_trans (ih h) hlt

end Node

end PineScript
