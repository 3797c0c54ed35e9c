import Mathlib.Data.List.Nodup
import PineScript.Proofs.Tree.Index
import PineScript.Proofs.Tree.Preorder

/-!
# Exact traversal

Main statement: visits, the index of parents and the list of statements are those of the
occurrences of nodes in the tree (`Program.traversal_exact`).
-/

namespace PineScript

namespace Node

variable {n c : Node} {i j k : Nat}

/-! ## Children -/

/-- The node `c`, with the number `k`, is a child of the node `m`, with the number `q`. -/
def ChildAt (n : Node) (q k : Nat) (m c : Node) : Prop :=
  ∃ i a, n.at? a = some m ∧ n.number a = q ∧ m.children[i]? = some c ∧ n.number (i :: a) = k

/-- The node `c` is the `if` behind the `else` of `n`. -/
def ElseIf (n c : Node) : Prop :=
  ∃ b next, n = .stmt (.conditional b) ∧ b.otherwise = .elseIf next ∧ c = .stmt (.conditional next)

theorem drop_children (n : Node) :
    n.children.drop (n.children.length - n.ownStatements.length) = n.ownStatements.map Stmt.node := by
  cases n with
  | program | block => simp [children, ownStatements]
  | stmt s =>
    cases s with
    | conditional b =>
      cases h : b.otherwise <;>
        simp [children, Stmt.children, ownStatements, h, Otherwise.nodes, Stmt.node]
    | _ => simp [ownStatements]
  | _ => simp [ownStatements]

theorem le_iff_isBody_or_elseIf (h : n.children[i]? = some c) :
    n.children.length - n.ownStatements.length ≤ i ↔ n.isBody = true ∨ n.ElseIf c := by
  have hlt := (List.getElem?_eq_some_iff.1 h).1
  cases n with
  | program | block => simp [children, ownStatements, isBody]
  | stmt s =>
    cases s with
    | conditional b =>
      cases hb : b.otherwise with
      | elseIf next =>
        have hchildren : (stmt (.conditional b)).children =
            [.expr b.condition, .block b.body, .stmt (.conditional next)] := by
          simp [children, Stmt.children, hb, Otherwise.nodes]
        rw [hchildren] at h ⊢
        rcases i with _ | _ | _ | i <;> cases h <;> simp [ownStatements, isBody, ElseIf, hb]
      | _ => simp [ownStatements, isBody, ElseIf, hb, hlt]
    | _ => simp [ownStatements, isBody, ElseIf, hlt]
  | _ => simp [ownStatements, isBody, ElseIf, hlt]

theorem mem_ownNumbers : k ∈ n.ownNumbers j ↔ ∃ i c, n.children[i]? = some c ∧
    (n.isBody = true ∨ n.ElseIf c) ∧ j + 1 + sizes (n.children.take i) = k := by
  rw [ownNumbers, List.range_eq_range', List.drop_range', List.mem_map]
  constructor
  · rintro ⟨i, hi, rfl⟩
    rw [List.mem_range'_1] at hi
    have hc := List.getElem?_eq_getElem (l := n.children) (i := i) (by omega)
    exact ⟨i, _, hc, (le_iff_isBody_or_elseIf hc).1 (by omega), rfl⟩
  · rintro ⟨i, c, hc, hkind, rfl⟩
    have hle := (le_iff_isBody_or_elseIf hc).2 hkind
    have hlt := (List.getElem?_eq_some_iff.1 hc).1
    exact ⟨i, List.mem_range'_1.2 (by omega), rfl⟩

/-- Climbing from a node to the root: the numbers of the nodes that it comes to. -/
inductive Climb (index : Array Entry) : Nat → List Nat → Prop
  | root {n : Nat} (h : parentAt? index n = none) : Climb index n [n]
  | up {n p : Nat} {ns : List Nat} (h : parentAt? index n = some p) (hclimb : Climb index p ns) :
      Climb index n (n :: ns)

end Node

namespace Program

open Node

variable {p : Program} {m c : Node} {a : List Nat} {i k q : Nat}

theorem parentAt?_number (h : p.node.at? (i :: a) = some c) :
    parentAt? p.index (p.node.number (i :: a)) = some (p.node.number a) := by
  obtain ⟨_, hget⟩ := getElem?_number h
  rw [parentAt?_index, index, hget]
  rfl

theorem parentAt?_eq_some_iff :
    parentAt? p.index k = some q ↔ ∃ m c, p.node.ChildAt q k m c := by
  constructor
  · intro h
    obtain ⟨e, hget, -⟩ := Option.bind_eq_some_iff.1 h
    have hnode : nodeAt? p.index k = some e.node := by
      rw [nodeAt?, hget]
      rfl
    rw [index, nodeAt?_outline] at hnode
    obtain ⟨a, hat, rfl⟩ := getElem?_walk.1 hnode
    cases a with
    | nil => exact absurd (parentAt?_lt h) (Nat.not_lt_zero q)
    | cons i a =>
      rw [parentAt?_number hat, Option.some_inj] at h
      obtain ⟨m, hm, hc⟩ := Option.bind_eq_some_iff.1 hat
      exact ⟨m, e.node, i, a, hm, h, hc, rfl⟩
  · rintro ⟨m, c, i, a, hm, rfl, hc, rfl⟩
    exact parentAt?_number ((at?_cons hm).trans hc)

theorem climb_number (h : p.node.at? a = some m) :
    Climb p.index (p.node.number a) (a.tails.map p.node.number) := by
  induction a generalizing m with
  | nil =>
    refine .root ?_
    rw [number, parentAt?_index, p.index_zero]
    rfl
  | cons i a ih =>
    obtain ⟨m', hm, -⟩ := Option.bind_eq_some_iff.1 h
    exact .up (parentAt?_number h) (ih hm)

/-! ## Statements -/

theorem mem_zipIdx_walk : (m, k) ∈ p.walk.zipIdx ↔
    ∃ a, p.node.at? a = some m ∧ p.node.number a = k :=
  List.mk_mem_zipIdx_iff_getElem?.trans getElem?_walk

theorem childAt_of_mem (hmem : (m, q) ∈ p.walk.zipIdx) (hk : k ∈ m.ownNumbers q) :
    ∃ c, p.node.ChildAt q k m c ∧ (m.isBody = true ∨ m.ElseIf c) := by
  obtain ⟨a, hat, rfl⟩ := mem_zipIdx_walk.1 hmem
  obtain ⟨i, c, hc, hkind, rfl⟩ := mem_ownNumbers.1 hk
  exact ⟨c, ⟨i, a, hat, rfl, hc, number_cons hat⟩, hkind⟩

theorem mem_statementNumbers : k ∈ p.statementNumbers ↔
    ∃ q m c, p.node.ChildAt q k m c ∧ (m.isBody = true ∨ m.ElseIf c) := by
  rw [statementNumbers, List.mem_flatMap]
  constructor
  · rintro ⟨⟨m, q⟩, hmem, hk⟩
    exact ⟨q, m, childAt_of_mem hmem hk⟩
  · rintro ⟨q, m, c, ⟨i, a, hat, hq, hc, rfl⟩, hkind⟩
    refine ⟨(m, q), mem_zipIdx_walk.2 ⟨a, hat, hq⟩, mem_ownNumbers.2 ⟨i, c, hc, hkind, ?_⟩⟩
    rw [number_cons hat, hq]

theorem nodup_statementNumbers (p : Program) : p.statementNumbers.Nodup := by
  have horder : p.walk.zipIdx.Pairwise (·.2 < ·.2) := by
    rw [← List.pairwise_map (f := Prod.snd) (R := (· < ·)), List.zipIdx_map_snd]
    exact List.pairwise_lt_range'
  refine List.nodup_flatMap.2 ⟨fun x _ => ?_, horder.imp_of_mem fun {x y} hx hy hlt k hkx hky => ?_⟩
  · refine List.pairwise_map.2 ((List.pairwise_lt_range.sublist (List.drop_sublist _ _)).imp_of_mem
      fun {i j} hi _ hlt => ?_)
    have hlength := List.mem_range.1 (List.mem_of_mem_drop hi)
    have := sizes_take_lt (List.getElem?_eq_getElem hlength) hlt
    omega
  · -- A node hangs on one other only.
    obtain ⟨c, hc, -⟩ := childAt_of_mem hx hkx
    obtain ⟨d, hd, -⟩ := childAt_of_mem hy hky
    have hparent := parentAt?_eq_some_iff.2 ⟨_, c, hc⟩
    rw [parentAt?_eq_some_iff.2 ⟨_, d, hd⟩, Option.some_inj] at hparent
    omega

/-- The numbers are those of the statements. -/
theorem map_nodeAt?_statementNumbers (p : Program) :
    p.statementNumbers.map (nodeAt? p.index) = p.statements.map fun s => some s.node := by
  have hwalk : p.walk.zipIdx.map Prod.fst = p.walk := List.zipIdx_map_fst 0 _
  rw [statements, ← hwalk, List.flatMap_map, statementNumbers, List.map_flatMap, List.map_flatMap]
  refine List.flatMap_congr fun x hmem => ?_
  obtain ⟨m, q⟩ := x
  obtain ⟨a, hat, rfl⟩ := mem_zipIdx_walk.1 hmem
  have hchildren : (List.range m.children.length).map (fun i => nodeAt? p.index
      (p.node.number a + 1 + sizes (m.children.take i))) = m.children.map some := by
    refine List.ext_getElem (by simp) fun i _ hi => ?_
    rw [List.length_map] at hi
    simp only [List.getElem_map, List.getElem_range, index, nodeAt?_outline, ← number_cons hat]
    exact getElem?_walk.2 ⟨i :: a, (at?_cons hat).trans (List.getElem?_eq_getElem hi), rfl⟩
  simp only [ownNumbers, List.map_map, Function.comp_def, List.map_drop, hchildren]
  rw [← List.map_drop, drop_children, List.map_map]
  rfl

/-- Every subtree is visited in pre-order, each occurrence of a node once. The index of a script
leads from each occurrence but the script to the one that has it as a child, and so through all
nodes above it, whose addresses are the ends of its own. The statements are the children of scripts
and blocks and the branches behind an `else`, each once. -/
theorem traversal_exact (n : Node) (p : Program) :
    (n.walk = n.preorder ∧
      (∀ k m, n.walk[k]? = some m ↔ ∃ a, n.at? a = some m ∧ n.number a = k) ∧
      ∀ a b, (n.at? a).isSome → (n.at? b).isSome → n.number a = n.number b → a = b) ∧
    ((∀ k, nodeAt? p.index k = p.walk[k]?) ∧
      (∀ k q, parentAt? p.index k = some q ↔ ∃ m c, p.node.ChildAt q k m c) ∧
      ∀ a, (p.node.at? a).isSome →
        Climb p.index (p.node.number a) (a.tails.map p.node.number)) ∧
    p.statementNumbers.Nodup ∧
      p.statementNumbers.map (nodeAt? p.index) = p.statements.map (fun s => some s.node) ∧
      ∀ k, k ∈ p.statementNumbers ↔
        ∃ q m c, p.node.ChildAt q k m c ∧ (m.isBody = true ∨ m.ElseIf c) := by
  refine ⟨⟨?_, fun k m => getElem?_walk, fun a b ha hb => ?_⟩,
    ⟨nodeAt?_outline p.node, fun k q => parentAt?_eq_some_iff, fun a ha => ?_⟩,
    p.nodup_statementNumbers, p.map_nodeAt?_statementNumbers, fun k => mem_statementNumbers⟩
  · rw [Node.walk, walkFrom_eq, List.flatMap_singleton]
  · exact number_inj (Option.some_get ha).symm (Option.some_get hb).symm
  · exact climb_number (Option.some_get ha).symm

end Program

end PineScript
