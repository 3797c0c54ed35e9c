import Mathlib.Data.List.Find
import PineScript.Proofs.Lexer.Order
import PineScript.Proofs.Sorted
import PineScript.Proofs.Tree.Walk
import PineScript.Rule

/-!
# What rules read of the tokens

Two rules look at the tokens beside the tree. What they need of them is the code, and for every line
of code and every line that starts a statement the first token. Main statement: tokens that agree in
this are reported alike (`Rule.check_of_sameCode`).
-/

namespace PineScript

/-- No token starts before the one in front of it. -/
def Token.InTurn (tokens : List Token) : Prop :=
  tokens.Pairwise fun s t => s.range.start ≤ t.range.start

theorem Token.inTurn_of_chain {lo hi : Position} {tokens : List Token}
    (h : Range.Chain lo hi (tokens.map Token.range)) : Token.InTurn tokens := by
  refine (List.pairwise_map.1 h.pairwise).imp_of_mem fun ha _ hab => ?_
  exact Position.le_trans (h.of_mem (List.mem_map_of_mem ha)).2.1 hab

theorem Token.inTurn_tokenize (source : String) : Token.InTurn (tokenize source) :=
  Token.inTurn_of_chain (chain_tokenize source)

theorem Position.lt_of_le_of_lt {p q r : Position} (h : p ≤ q) (h' : q < r) : p < r := by
  rw [Position.le_def] at h
  rw [Position.lt_def] at h' ⊢
  omega

namespace Program

theorem walk_eq (p : Program) : p.walk = p.node :: Node.walkFrom (p.body.map Stmt.node) := by
  rw [walk, Node.walk, Node.walkFrom_cons, Node.walkFrom_nil, List.append_nil]
  rfl

theorem statements_eq (p : Program) :
    p.statements = p.body ++ (Node.walkFrom (p.body.map Stmt.node)).flatMap Node.ownStatements := by
  rw [statements, walk_eq, List.flatMap_cons]
  rfl

end Program

namespace Rule

/-! ## The first code behind a position -/

namespace Unreachable

/-- The bisection parts what stands before a position from what does not. -/
theorem lowerBound_spec {starts : Array Position} {p : Position} {low high : Nat}
    (hsorted : ∀ i j, i ≤ j → j < high → starts.getD i .origin ≤ starts.getD j .origin) :
    (∀ i, low ≤ i → i < lowerBound starts p low high → starts.getD i .origin < p) ∧
      ∀ i, lowerBound starts p low high ≤ i → i < high → p ≤ starts.getD i .origin := by
  fun_induction lowerBound starts p low high with
  | case1 low high hlt middle hbefore ih =>
    obtain ⟨hfront, hbehind⟩ := ih hsorted
    refine ⟨fun i hi hlow => ?_, hbehind⟩
    rcases Nat.lt_or_ge middle i with hi' | hi'
    · exact hfront i hi' hlow
    · exact Position.lt_of_le_of_lt (hsorted i middle hi' (by omega)) hbefore
  | case2 low high hlt middle hbehind ih =>
    obtain ⟨hfront, hrest⟩ := ih fun i j hij hj => hsorted i j hij (by omega)
    refine ⟨hfront, fun i hi hlow => ?_⟩
    rcases Nat.lt_or_ge i middle with hi' | hi'
    · exact hrest i hi hi'
    · exact Position.le_trans (Position.not_lt.1 hbehind) (hsorted middle i hi' hlow)
  | case3 low high hge => exact ⟨by omega, by omega⟩

theorem getD_starts {tokens : List Token} {i : Nat} (hi : i < tokens.length) :
    (tokens.map (·.range.start)).toArray.getD i .origin = tokens[i].range.start := by
  rw [Array.getD_eq_getD_getElem?, List.getElem?_toArray, List.getElem?_map,
    List.getElem?_eq_getElem hi]
  rfl

/-- Where tokens follow in turn, the bisection finds what a search from the start finds. -/
theorem codeFrom_eq {tokens : List Token} (h : Token.InTurn tokens) (p : Position) :
    codeFrom tokens p = (tokens.filter (!·.isLayout)).find? (p ≤ ·.range.start) := by
  let starts := (tokens.map (·.range.start)).toArray
  have hsize : starts.size = tokens.length := by simp [starts]
  have hsorted : ∀ i j, i ≤ j → j < starts.size →
      starts.getD i .origin ≤ starts.getD j .origin := by
    intro i j hij hj
    rw [getD_starts (by omega), getD_starts (by omega)]
    rcases Nat.lt_or_eq_of_le hij with hlt | rfl
    · exact List.pairwise_iff_getElem.1 h i j (by omega) (by omega) hlt
    · exact Position.le_refl _
  obtain ⟨hfront, hbehind⟩ := @lowerBound_spec _ p 0 _ hsorted
  change (tokens.drop (lowerBound starts p 0 starts.size)).find? (!·.isLayout) = _
  generalize lowerBound starts p 0 starts.size = n at hfront hbehind ⊢
  have hnone : (tokens.take n).find?
      (fun t => decide ((!t.isLayout) = true ∧ decide (p ≤ t.range.start) = true)) = none := by
    refine List.find?_eq_none.2 fun t ht => ?_
    obtain ⟨i, hi, rfl⟩ := List.mem_take_iff_getElem.1 ht
    have hlt := hfront i (Nat.zero_le _) (by omega)
    rw [getD_starts (by omega)] at hlt
    simp [← Position.not_lt, hlt]
  -- In front of the found place nothing qualifies, and behind it only code is asked for.
  rw [List.find?_filter]
  nth_rewrite 2 [← List.take_append_drop n tokens]
  rw [List.find?_append, hnone, Option.none_or]
  refine List.find?_congr fun t ht => ?_
  obtain ⟨i, hi, rfl⟩ := List.mem_drop_iff_getElem.1 ht
  have hle := hbehind (n + i) (by omega) (by omega)
  rw [getD_starts (by omega)] at hle
  simp [hle]

end Unreachable

/-! ## The first tokens of lines -/

/-- The same code, and on every line of code the same first token. -/
structure SameCode (ts ts' : List Token) : Prop where
  code : ts'.filter (!·.isLayout) = ts.filter (!·.isLayout)
  first : ∀ n, (Continuation.onLine ts n).filter (!·.isLayout) ≠ [] →
    (Continuation.onLine ts' n).head? = (Continuation.onLine ts n).head?

namespace Continuation

variable {ts ts' : List Token}

theorem SameCode.onLine (h : SameCode ts ts') (n : Int) :
    (onLine ts' n).filter (!·.isLayout) = (onLine ts n).filter (!·.isLayout) := by
  rw [Continuation.onLine, Continuation.onLine, List.filter_comm, h.code, List.filter_comm]

/-- A line without code is not judged. -/
theorem judgeLine_of_no_code {required : Int} {line : List Token}
    (h : line.filter (!·.isLayout) = []) : judgeLine required line = none := by
  unfold judgeLine
  rw [h]
  cases line.head? <;> rfl

theorem judgeLine_of_sameCode (h : SameCode ts ts') (required n : Int) :
    judgeLine required (onLine ts' n) = judgeLine required (onLine ts n) := by
  by_cases hcode : (onLine ts n).filter (!·.isLayout) = []
  · rw [judgeLine_of_no_code hcode, judgeLine_of_no_code ((SameCode.onLine h n).trans hcode)]
  · unfold judgeLine
    rw [SameCode.onLine h n, h.first n hcode]

theorem mem_furtherLines {extent : Range} {n : Int} :
    n ∈ furtherLines ts extent ↔
      onLine ts n ≠ [] ∧ extent.start.line < n ∧ n ≤ extent.stop.line := by
  rw [furtherLines, mem_dropRepeats_stableSort, List.mem_filter, List.mem_map, onLine, Ne,
    List.filter_eq_nil_iff]
  simp

theorem pairwise_furtherLines (ts : List Token) (extent : Range) :
    (furtherLines ts extent).Pairwise (· < ·) :=
  pairwise_dropRepeats_stableSort _

/-- The further lines that hold code. -/
def codeLines (ts : List Token) (extent : Range) : List Int :=
  (furtherLines ts extent).filter fun n => (onLine ts n).any (!·.isLayout)

theorem mem_codeLines {extent : Range} {n : Int} :
    n ∈ codeLines ts extent ↔
      (onLine ts n).filter (!·.isLayout) ≠ [] ∧ extent.start.line < n ∧
        n ≤ extent.stop.line := by
  rw [codeLines, List.mem_filter, mem_furtherLines, List.any_eq_true, Ne, Ne,
    List.filter_eq_nil_iff]
  grind

theorem codeLines_of_sameCode (h : SameCode ts ts') (extent : Range) :
    codeLines ts' extent = codeLines ts extent := by
  -- Both are strictly sorted, so that their members decide.
  refine List.Pairwise.eq_of_mem_iff ((pairwise_furtherLines ts' extent).filter _)
    ((pairwise_furtherLines ts extent).filter _) fun n => ?_
  rw [mem_codeLines, mem_codeLines, SameCode.onLine h]

/-- Only lines of code are judged. -/
theorem filterMap_furtherLines (required : Int) (ts : List Token) (extent : Range) :
    ((furtherLines ts extent).filterMap fun n => judgeLine required (onLine ts n)) =
      (codeLines ts extent).filterMap fun n => judgeLine required (onLine ts n) := by
  rw [codeLines, List.filterMap_filter]
  refine List.filterMap_congr fun n _ => ?_
  split
  · rfl
  · next hcode => exact judgeLine_of_no_code (by simpa using hcode)

theorem filterMap_furtherLines_of_sameCode (h : SameCode ts ts') (required : Int)
    (extent : Range) :
    ((furtherLines ts' extent).filterMap fun n => judgeLine required (onLine ts' n)) =
      (furtherLines ts extent).filterMap fun n => judgeLine required (onLine ts n) := by
  rw [filterMap_furtherLines, filterMap_furtherLines, codeLines_of_sameCode h]
  exact List.filterMap_congr fun n _ => judgeLine_of_sameCode h required n

theorem judge_of_sameCode (h : SameCode ts ts') {s : Stmt}
    (hstart : (onLine ts' s.header.start.line).head? = (onLine ts s.header.start.line).head?)
    (minIndent : Int) : judge minIndent ts' s = judge minIndent ts s := by
  unfold judge
  simp only [hstart, filterMap_furtherLines_of_sameCode h]

end Continuation

theorem Unreachable.judge_of_sameCode {ts ts' : List Token} (h : SameCode ts ts')
    (hts : Token.InTurn ts) (hts' : Token.InTurn ts') (terminators : List String) :
    judge terminators ts' = judge terminators ts := by
  funext body
  unfold judge
  simp only [codeFrom_eq hts, codeFrom_eq hts', h.code]

/-- A rule reads of a script only its body. -/
theorem check_of_body {program program' : Program} (rule : Rule)
    (hbody : program'.body = program.body) (tokens : List Token) :
    rule.check program' tokens = rule.check program tokens := by
  cases rule with
  | continuation minIndent =>
    simp only [check, Continuation.check, Program.statements_eq, hbody]
  | shadowing => simp only [check, Shadowing.check, hbody]
  | constantCondition =>
    simp only [check, ConstantCondition.check, Program.walk_eq, hbody, Program.node,
      List.filterMap_cons, ConstantCondition.judge, ConstantCondition.condition?]
  | unreachable terminators =>
    simp only [check, Unreachable.check, Program.walk_eq, hbody, Program.node,
      List.filterMap_cons, Unreachable.body?]
  | nesting maxDepth => simp only [check, Nesting.check, hbody]

/-- A rule reads of the tokens only their code, and the first token of a line of code and of a line
on which a statement starts. -/
theorem check_of_sameCode {ts ts' : List Token} {program : Program} (rule : Rule)
    (h : SameCode ts ts') (hts : Token.InTurn ts) (hts' : Token.InTurn ts')
    (hstart : ∀ s ∈ program.statements, (Continuation.onLine ts' s.header.start.line).head? =
      (Continuation.onLine ts s.header.start.line).head?) :
    rule.check program ts' = rule.check program ts := by
  cases rule with
  | continuation minIndent =>
    exact List.flatMap_congr fun s hs => Continuation.judge_of_sameCode h (hstart s hs) minIndent
  | unreachable terminators =>
    simp only [check, Unreachable.check, Unreachable.judge_of_sameCode h hts hts']
  | shadowing | constantCondition | nesting maxDepth => rfl

end Rule

end PineScript
