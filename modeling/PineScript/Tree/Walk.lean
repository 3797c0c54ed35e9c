import PineScript.Tree.Node

/-!
# Traversal

`Node.walk` visits a subtree with a stack of nodes still to be visited; `Node.outline` does so and
also records where each node hangs. `Program.statements` lists the statements of a script.
-/

namespace PineScript

namespace Node

/-- Visits the subtrees of a stack from its top. -/
def walkFrom : List Node → List Node
  | [] => []
  | n :: stack => n :: walkFrom (n.children ++ stack)
termination_by stack => sizes stack
decreasing_by
  have := sizes_children_lt n
  simp only [sizes_append, sizes_cons]
  omega

/-- The node and all nodes below it, each before its children. -/
def walk (n : Node) : List Node := walkFrom [n]

/-! ## Outlines -/

/-- A node with its depth and the number of its parent in the order of visits. -/
structure Entry where
  node : Node
  depth : Nat
  parent : Option Nat

/-- Visits the subtrees of a stack; `next` is the number of the node on its top. -/
def outlineFrom (next : Nat) : List Entry → List Entry
  | [] => []
  | e :: stack =>
    e :: outlineFrom (next + 1)
      (e.node.children.map (fun child => ⟨child, e.depth + 1, some next⟩) ++ stack)
termination_by stack => sizes (stack.map (·.node))
decreasing_by
  have := sizes_children_lt e.node
  simp only [List.map_append, List.map_map, List.map_cons, sizes_append, sizes_cons]
  have same : List.map ((fun x : Entry => x.node) ∘
      fun child => ⟨child, e.depth + 1, some next⟩) e.node.children = e.node.children := by
    simp [Function.comp_def]
  rw [same]
  omega

def outline (n : Node) : List Entry := outlineFrom 0 [⟨n, 0, none⟩]

/-- The statements that hang directly on a node: those of a body, or the `if` behind an `else`. -/
def ownStatements : Node → List Stmt
  | program p => p.body
  | block b => b.statements
  | stmt (.conditional b) =>
    match b.otherwise with
    | .elseIf next => [.conditional next]
    | _ => []
  | _ => []

/-- Their numbers, if the node has some number: they are its last children, and a child is visited
behind all that is below the ones before it. -/
def ownNumbers (n : Node) (number : Nat) : List Nat :=
  ((List.range n.children.length).drop (n.children.length - n.ownStatements.length)).map
    fun i => number + 1 + sizes (n.children.take i)

end Node

namespace Program

def node (p : Program) : Node := .program p

def walk (p : Program) : List Node := p.node.walk

/-- Every statement of the script, an `if` behind an `else` being one of its own. The statements of
a body come together, before those below them. -/
def statements (p : Program) : List Stmt := p.walk.flatMap Node.ownStatements

/-- The numbers, in the order of visits, of the nodes that `statements` lists. -/
def statementNumbers (p : Program) : List Nat :=
  p.walk.zipIdx.flatMap fun (n, number) => n.ownNumbers number

end Program

end PineScript
