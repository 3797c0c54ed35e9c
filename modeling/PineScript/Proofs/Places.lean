import PineScript.Diagnostic
import PineScript.Proofs.Lexer.Order
import PineScript.Proofs.Parser.PlacedScript

/-!
# Places in a script

What can be relied on in the tree and the diagnostics of any script, whether or not all of it could
be read. Each diagnostic belongs to one malformed statement, in the order in which these are
visited; both lists are in source order. The ranges of the tree nest, and those beside each other
follow one another.
-/

namespace PineScript.Program

open PineScript.Parser (startOf InOrder Mends)
open Node (Placed)

/-- The statements of a script are placed in it, with the faults that were mended. -/
theorem parse_mends {ts : List Token} (h : InOrder (finishOf ts) ts) :
    (parse ts).1.range = ⟨.origin, finishOf ts⟩ ∧
      Mends (finishOf ts) ts [] ((parse ts).1.body.map Stmt.node) (parse ts).2 :=
  Parser.parse_of_wp (Q := fun body faults => Mends (finishOf ts) ts [] (body.map Stmt.node) faults)
    (@Parser.script_mends ts ⟨finishOf ts, false, none⟩ h (fun _ _ => False))

theorem inOrder_tokenize (source : String) :
    .origin ≤ startOf (finishOf (tokenize source)) (tokenize source) ∧
      InOrder (finishOf (tokenize source)) (tokenize source) :=
  Parser.chain_iff_inOrder.1 (chain_tokenize source)

/-! ## Diagnostics -/

/-- Diagnostics and malformed statements correspond one to one, whatever the tokens: the diagnostic
is a syntax error with the message of its statement. In a document they come in source order, and
none starts before its statement. -/
theorem diagnostics_of_malformed :
    (∀ ts : List Token,
      List.Forall₂ (fun statement diagnostic =>
          diagnostic.code = "SYNTAX_ERROR" ∧ diagnostic.severity = .error ∧
            diagnostic.message = statement.2.message)
        (parse ts).1.malformed ((parse ts).2.map Fault.diagnostic)) ∧
      ∀ source : String,
        (((parse (tokenize source)).2.map Fault.diagnostic).map (·.range.start)).Pairwise (· ≤ ·) ∧
          List.Forall₂ (fun statement diagnostic => statement.1.start ≤ diagnostic.range.start)
            (parse (tokenize source)).1.malformed
            ((parse (tokenize source)).2.map Fault.diagnostic) := by
  constructor
  · intro ts
    refine List.forall₂_map_right_iff.2 ((Parser.parse_explains ts).imp ?_)
    exact fun statement fault hcause => ⟨rfl, rfl, congrArg Fault.Cause.message hcause.symm⟩
  · intro source
    obtain ⟨-, hmends⟩ := parse_mends (inOrder_tokenize source).2
    constructor
    · have hsorted := List.pairwise_map.1 hmends.sorted.pairwise
      exact List.pairwise_map.2 (List.pairwise_map.2 hsorted)
    · rw [malformed_eq]
      exact List.forall₂_map_right_iff.2 hmends.matched

/-- A diagnostic may stand on a later line than its statement. -/
example :
    (parse (tokenize "x = (\nif y\n  else\n")).1.malformed.map (·.1.start) = [⟨0, 0⟩, ⟨2, 2⟩] ∧
      (parse (tokenize "x = (\nif y\n  else\n")).2.map (·.range.start) = [⟨1, 0⟩, ⟨2, 2⟩] := by
  decide +kernel

/-! ## Ranges -/

/-- In the tree of any document every range is proper and holds those of the children, which follow
one another; so the visits start in source order. -/
theorem ranges_nested (source : String) :
    (∀ n ∈ (parse (tokenize source)).1.walk,
      n.range.start ≤ n.range.stop ∧ (∀ c ∈ n.children, n.range.contains c.range = true) ∧
        n.children.Pairwise fun a b => a.range.stop ≤ b.range.start) ∧
      ((parse (tokenize source)).1.walk.map (·.range.start)).Pairwise (· ≤ ·) := by
  obtain ⟨horigin, horder⟩ := inOrder_tokenize source
  obtain ⟨hrange, hmends⟩ := parse_mends horder
  have hplaced : Placed .origin (finishOf (tokenize source)) [(parse (tokenize source)).1.node] := by
    refine hmends.placed.around ?_ ?_ ?_ ?_ <;> simp only [node, Node.range, hrange]
    · exact Position.le_refl _
    · exact horigin
    · exact Position.le_refl _
    · exact Position.le_refl _
  refine ⟨fun n hn => ?_, hplaced.walk_start.2⟩
  have hchain := hplaced.2 n hn
  refine ⟨hchain.le, fun c hc => ?_, List.pairwise_map.1 hchain.pairwise⟩
  obtain ⟨hstart, -, hstop⟩ := hchain.of_mem (List.mem_map_of_mem hc)
  simp [Range.contains, hstart, hstop]

end PineScript.Program
