import PineScript.Parser.Program
import PineScript.Proofs.Lexer.Tokens
import PineScript.Proofs.Tree.Placed

/-!
# The order of tokens

The tokens of a document form a chain: within a line each lexeme starts where the one before it has
ended or behind it, the line break stands behind all of them, and the next line comes later.
-/

namespace PineScript

open Range (Chain)

namespace Lexer

theorem le_of_column {line : Int} {a b : Nat} (h : a ≤ b) :
    (⟨line, a⟩ : Position) ≤ ⟨line, b⟩ :=
  Position.le_def.2 (.inr ⟨rfl, Int.ofNat_le.2 h⟩)

theorem chain_scan (line rounds column : Nat) (cs : List Char) :
    Chain ⟨line, column⟩ ⟨line, (column + cs.length : Nat)⟩
      ((scan rounds column cs).map fun x => (place line x.1 x.2.1 x.2.2).range) := by
  fun_induction scan rounds column cs with
  | case1 column cs => exact le_of_column (Nat.le_add_right column cs.length)
  | case2 rounds column => exact le_of_column (Nat.le_add_right column 0)
  | case3 rounds column c rest hspace ih =>
    have hlen := congrArg List.length (Cut.run_append_eq isSpace rest)
    rw [List.length_append] at hlen
    refine ih.mono (le_of_column (by omega)) (le_of_column ?_)
    rw [List.length_cons]
    omega
  | case4 rounds column c rest hspace kind cut hlex ih =>
    have hcut : cut.lexeme ++ cut.rest = c :: rest := by
      have hsplits := (lexeme_splits c rest).append_eq
      rwa [hlex] at hsplits
    have hlen := congrArg List.length hcut
    rw [List.length_append] at hlen
    refine ⟨Position.le_refl _, le_of_column (Nat.le_add_right _ _), ?_⟩
    exact ih.mono (Position.le_refl _) (le_of_column (by omega))

theorem chain_lineTokens (number : Nat) (line : List Char) :
    Chain ⟨number, 0⟩ ⟨number, line.length⟩ ((lineTokens number line).map Token.range) := by
  have hscan := chain_scan number line.length 0 line
  rw [Nat.zero_add] at hscan
  rw [lineTokens, List.map_map]
  exact hscan

theorem map_range_markFirst (indent : Nat) (ts : List Token) :
    (markFirst indent ts).map Token.range = ts.map Token.range := by
  cases ts <;> rfl

theorem chain_markedLine (number : Nat) (line : List Char) (closed : Bool) :
    Chain ⟨number, 0⟩ ⟨(number + 1 : Nat), 0⟩ ((markedLine number line closed).map Token.range) := by
  have hnext (column : Nat) : (⟨number, column⟩ : Position) ≤ ⟨(number + 1 : Nat), 0⟩ :=
    Position.le_def.2 (.inl (Int.ofNat_lt.2 (Nat.lt_succ_self number)))
  rw [markedLine, map_range_markFirst, List.map_append]
  refine (chain_lineTokens number line).append ?_
  cases closed with
  | false => exact hnext _
  | true => exact ⟨Position.le_refl _, le_of_column (Nat.le_add_right _ _), hnext _⟩

theorem chain_documentTokens (number : Nat) (lines : List (List Char)) :
    ∃ hi, Chain ⟨number, 0⟩ hi ((documentTokens number lines).map Token.range) := by
  induction lines generalizing number with
  | nil => exact ⟨_, Position.le_refl _⟩
  | cons line more ih =>
    obtain ⟨hi, hrest⟩ := ih (number + 1)
    rw [documentTokens_eq_markedLine_append, List.map_append]
    exact ⟨hi, (chain_markedLine number line _).append hrest⟩

end Lexer

/-- The tokens of a document stand one behind the other up to its end. -/
theorem chain_tokenize (source : String) :
    Chain .origin (finishOf (tokenize source)) ((tokenize source).map Token.range) := by
  obtain ⟨hi, hchain⟩ := Lexer.chain_documentTokens 0 (Text.lines source.toList)
  change Chain .origin hi ((tokenize source).map Token.range) at hchain
  rcases List.eq_nil_or_concat (tokenize source) with hnil | ⟨front, last, hlast⟩
  · rw [hnil]
    exact Position.le_refl _
  · rw [hlast, List.concat_eq_append, List.map_append] at hchain ⊢
    have hfinish : finishOf (front ++ [last]) = last.range.stop := by simp [finishOf]
    rw [hfinish]
    exact hchain.fit.1

end PineScript
