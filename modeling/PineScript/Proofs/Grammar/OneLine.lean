import PineScript.Proofs.Grammar.Heads
import PineScript.Proofs.Grammar.Script

/-!
# Statements on one line

A simple statement may go over several lines, with comments among them. Main statement: a script is
the same, with all ranges and faults, if the line breaks and comments within any one of its simple
statements are left out (`Program.parse_of_joined`).
-/

namespace PineScript

open Token (codeOf)

/-- The code of a script falls into its lines, and with it the tokens of a simple statement, from its
first to its last code. It makes no difference to the script if those among them that are no code are
left out. -/
theorem Program.parse_of_joined (source : String) :
    ∃ lines : List (Head × List Token),
      lines.map Prod.fst = (Program.parse (tokenize source)).1.heads ∧
      (∀ s ∈ (Program.parse (tokenize source)).1.statements, s.isSimple = true →
        .statement s ∈ (Program.parse (tokenize source)).1.heads) ∧
      (∀ line ∈ lines, line.1.Spelled (codeOf line.2)) ∧
      ∀ before s span after, lines = before ++ (.statement s, span) :: after → s.isSimple = true →
        ∃ front back, tokenize source = front ++ (span ++ back) ∧
          codeOf front = before.flatMap (fun line => codeOf line.2) ∧
          codeOf back = after.flatMap (fun line => codeOf line.2) ∧
          (∃ first last, span.head? = some first ∧ first.isLayout = false ∧
            span.getLast? = some last ∧ last.isLayout = false) ∧
          Program.parse (front ++ (codeOf span ++ back)) = Program.parse (tokenize source) := by
  obtain ⟨ps, hheads, hruns, hreplays⟩ := Program.parse_lines source
  refine ⟨ps.map fun p => (p.head, p.span), ?_, fun s => Program.mem_heads_of_isSimple, ?_, ?_⟩
  · rw [List.map_map]
    exact hheads
  · intro line hline
    obtain ⟨p, hp, rfl⟩ := List.mem_map.1 hline
    exact hruns.spelled p hp
  · intro before s span after hlines hsimple
    obtain ⟨front, behind, rfl, rfl, hbehind⟩ := List.map_eq_append_iff.1 hlines
    obtain ⟨p, behind, rfl, hp, rfl⟩ := List.map_eq_cons_iff.1 hbehind
    obtain ⟨hhead, rfl⟩ := Prod.mk.inj hp
    have hmem : p ∈ front ++ p :: behind := by simp
    have hsimple' : p.head.isSimple = true := by rw [hhead]; exact hsimple
    obtain ⟨tokens, hsplit, hbefore, -, hbehind⟩ := hruns.at_piece rfl
    obtain ⟨first, more, hspan, hfirst⟩ := (hruns.solid p hmem hsimple').opens
    obtain ⟨last, hlast, hcode⟩ := hruns.last p hmem
    refine ⟨tokens, p.stop, hsplit, ?_, ?_, ⟨first, last, by simp [hspan], hfirst, hlast, hcode⟩,
      hreplays p hmem hsimple' tokens hsplit⟩
    · rw [hbefore, List.flatMap_map]
    · rw [hbehind.codeOf_eq, List.flatMap_map, Token.codeOf_nil, List.append_nil]

end PineScript
