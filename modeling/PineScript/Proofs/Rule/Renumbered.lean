import Mathlib.Data.List.Basic
import PineScript.Proofs.Parser.Joined
import PineScript.Proofs.Rule.Code
import PineScript.Proofs.Rule.Layout
import PineScript.Proofs.Tree.MovedWalk

/-!
# Rules on renumbered lines

Where lines are renumbered and stay in order, a rule reports the same with the new numbers
(`Rule.check_renumber`). The line that a shadowing names in its message is renumbered, too.
-/

namespace PineScript

/-- Lines are renumbered and stay in order. -/
def Ascending (φ : Int → Int) : Prop := ∀ ⦃m n : Int⦄, m < n → φ m < φ n

namespace Ascending

variable {φ : Int → Int} (h : Ascending φ) {m n : Int}
include h

theorem le_iff : φ m ≤ φ n ↔ m ≤ n := by
  refine ⟨fun hle => ?_, fun hle => ?_⟩
  · by_contra hlt
    have := h (Int.not_le.1 hlt)
    omega
  · rcases Int.lt_or_eq_of_le hle with hlt | rfl
    · exact Int.le_of_lt (h hlt)
    · exact Int.le_refl _

theorem lt_iff : φ m < φ n ↔ m < n := by
  rw [← Int.not_le, ← Int.not_le, h.le_iff]

theorem eq_iff : φ m = φ n ↔ m = n := by
  have := h.le_iff (m := m) (n := n)
  have := h.le_iff (m := n) (n := m)
  omega

end Ascending

/-- The same column on the line of the new number. -/
def Position.renumber (φ : Int → Int) (p : Position) : Position := ⟨φ p.line, p.character⟩

/-- The same diagnostic with the new numbers. -/
structure Diagnostic.Renumbered (φ : Int → Int) (d d' : Diagnostic) : Prop where
  code : d'.code = d.code
  severity : d'.severity = d.severity
  source : d'.source = d.source
  range : d'.range = d.range.move (.renumber φ)
  message : d.code ≠ Rule.Shadowing.id → d'.message = d.message
  outer : d.code = Rule.Shadowing.id → ∃ name line,
    d.message = Rule.Shadowing.message name line ∧
      d'.message = Rule.Shadowing.message name (φ line)

theorem Diagnostic.renumbered_move {φ : Int → Int} {d : Diagnostic}
    (h : d.code ≠ Rule.Shadowing.id) : Renumbered φ d (d.move (.renumber φ)) :=
  ⟨rfl, rfl, rfl, rfl, fun _ => rfl, fun hcode => absurd hcode h⟩

variable {φ : Int → Int}

/-! ## Positions -/

section

variable (hφ : Ascending φ)
include hφ

theorem Position.renumber_le_iff {p q : Position} : p.renumber φ ≤ q.renumber φ ↔ p ≤ q := by
  rw [le_def, le_def, renumber, renumber, hφ.lt_iff, hφ.eq_iff]

theorem Position.renumber_inj {p q : Position} : p.renumber φ = q.renumber φ ↔ p = q := by
  cases p
  cases q
  simp only [renumber, Position.mk.injEq, hφ.eq_iff]

theorem Range.renumber_inj {r s : Range} :
    r.move (.renumber φ) = s.move (.renumber φ) ↔ r = s := by
  cases r
  cases s
  simp only [move, Range.mk.injEq, Position.renumber_inj hφ]

theorem Range.isMultiline_renumber (r : Range) :
    (r.move (.renumber φ)).isMultiline = r.isMultiline := by
  simp only [isMultiline, move, Position.renumber, hφ.lt_iff]

theorem Token.InTurn.renumber {ts : List Token} (h : Token.InTurn ts) :
    Token.InTurn (ts.map (Token.move (.renumber φ))) :=
  List.pairwise_map.2 (h.imp (Position.renumber_le_iff hφ).2)

end

namespace Rule

/-! ## Continuation lines -/

namespace Continuation

section

variable (hφ : Ascending φ)
include hφ

theorem onLine_renumber (ts : List Token) (n : Int) :
    onLine (ts.map (Token.move (.renumber φ))) (φ n) =
      (onLine ts n).map (Token.move (.renumber φ)) := by
  rw [onLine, List.filter_map, onLine]
  congr 1
  refine List.filter_congr fun t _ => ?_
  simp [Position.renumber, hφ.eq_iff]

theorem furtherLines_renumber (ts : List Token) (extent : Range) :
    furtherLines (ts.map (Token.move (.renumber φ))) (extent.move (.renumber φ)) =
      (furtherLines ts extent).map φ := by
  -- Both are strictly sorted, so that their members decide.
  refine List.Pairwise.eq_of_mem_iff (pairwise_furtherLines _ _)
    (List.pairwise_map.2 ((pairwise_furtherLines ts extent).imp (hφ ·))) fun m => ?_
  rw [mem_furtherLines, List.mem_map]
  constructor
  · rintro ⟨hne, hlo, hhi⟩
    obtain ⟨t', ht'⟩ := List.exists_mem_of_ne_nil _ hne
    obtain ⟨hmem, hline⟩ := List.mem_filter.1 ht'
    obtain ⟨t, -, rfl⟩ := List.mem_map.1 hmem
    obtain rfl : φ t.range.start.line = m := beq_iff_eq.1 hline
    rw [onLine_renumber hφ] at hne
    refine ⟨t.range.start.line, mem_furtherLines.2 ⟨?_, hφ.lt_iff.1 hlo, hφ.le_iff.1 hhi⟩, rfl⟩
    exact fun hnil => hne (by rw [hnil, List.map_nil])
  · rintro ⟨n, hn, rfl⟩
    obtain ⟨hne, hlo, hhi⟩ := mem_furtherLines.1 hn
    rw [onLine_renumber hφ]
    exact ⟨fun hnil => hne (List.map_eq_nil_iff.1 hnil), hφ hlo, hφ.le_iff.2 hhi⟩

end

theorem judgeLine_move (f : Position → Position) (required : Int) (line : List Token) :
    judgeLine required (line.map (Token.move f)) =
      (judgeLine required line).map (Diagnostic.move f) := by
  have hcode : (line.map (Token.move f)).filter (!·.isLayout) =
      (line.filter (!·.isLayout)).map (Token.move f) := List.filter_map
  unfold judgeLine
  rw [hcode, List.head?_map, List.getLast?_map]
  cases line.head? with
  | none => rfl
  | some first =>
    cases (line.filter (!·.isLayout)).getLast? with
    | none => rfl
    | some last =>
      have hlayout : (first.move f).isLayout = first.isLayout := rfl
      simp only [Option.map_some, Option.bind_eq_bind, Option.bind_some, hlayout,
        Token.move_indent]
      rw [apply_ite (Option.map (Diagnostic.move f))]
      rfl

theorem isJudged_move (f : Position → Position) (s : Stmt) :
    isJudged (s.move f) = isJudged s := by
  cases s <;> rw [Stmt.move] <;> rfl

theorem judge_renumber (hφ : Ascending φ) (minIndent : Int) (ts : List Token) (s : Stmt) :
    judge minIndent (ts.map (Token.move (.renumber φ))) (s.move (.renumber φ)) =
      (judge minIndent ts s).map (Diagnostic.move (.renumber φ)) := by
  have hline : (s.header.move (.renumber φ)).start.line = φ s.header.start.line := rfl
  unfold judge
  simp only [Stmt.header_move, isJudged_move, Range.isMultiline_renumber hφ, hline,
    onLine_renumber hφ, List.head?_map, furtherLines_renumber hφ]
  split
  · obtain _ | ⟨kind, text, range, _ | indent⟩ := (onLine ts s.header.start.line).head?
    · rfl
    · rfl
    · simp only [Option.map_some, Token.move, List.filterMap_map, List.map_filterMap]
      refine List.filterMap_congr fun n _ => ?_
      rw [Function.comp_apply, onLine_renumber hφ, judgeLine_move]
  · rfl

theorem check_renumber (hφ : Ascending φ) (minIndent : Int) (p : Program) (ts : List Token) :
    check minIndent (p.move (.renumber φ)) (ts.map (Token.move (.renumber φ))) =
      (check minIndent p ts).map (Diagnostic.move (.renumber φ)) := by
  rw [check, check, Program.statements_move, List.flatMap_map, List.map_flatMap]
  simp only [judge_renumber hφ]

end Continuation

/-! ## Unreachable code -/

namespace Unreachable

theorem codeFrom_renumber (hφ : Ascending φ) {ts : List Token} (h : Token.InTurn ts)
    (p : Position) :
    codeFrom (ts.map (Token.move (.renumber φ))) (p.renumber φ) =
      (codeFrom ts p).map (Token.move (.renumber φ)) := by
  rw [codeFrom_eq (h.renumber hφ), codeFrom_eq h, List.filter_map, List.find?_map]
  congr 1
  refine List.find?_congr fun t _ => ?_
  simp [Position.renumber_le_iff hφ]

theorem splitAtJump_move (f : Position → Position) (terminators : List String)
    (ss : List Stmt) :
    splitAtJump terminators (ss.map (Stmt.move f)) =
      (splitAtJump terminators ss).map fun (r, kind, dead) =>
        (r.move f, kind, dead.map (Stmt.move f)) := by
  fun_induction splitAtJump terminators ss with
  | case1 => rfl
  | case2 r kind value more hkind =>
    rw [List.map_cons, Stmt.move, splitAtJump, if_pos hkind]
    rfl
  | case3 r kind value more hkind ih =>
    rw [List.map_cons, Stmt.move, splitAtJump, if_neg hkind, ih]
  | case4 s more hs ih =>
    rw [List.map_cons, splitAtJump, ih]
    intro r kind value hmoved
    cases s with
    | jump r kind value => exact hs r kind value rfl
    | _ => rw [Stmt.move] at hmoved; cases hmoved

theorem judge_renumber (hφ : Ascending φ) (terminators : List String) {ts : List Token}
    (h : Token.InTurn ts) (body : List Stmt) :
    judge terminators (ts.map (Token.move (.renumber φ))) (body.map (Stmt.move (.renumber φ))) =
      (judge terminators ts body).map (Diagnostic.move (.renumber φ)) := by
  have hcomments : (body.map (Stmt.move (.renumber φ))).filter (!·.isComment) =
      (body.filter (!·.isComment)).map (Stmt.move (.renumber φ)) := by
    rw [List.filter_map]
    congr 2
    funext s
    rw [Function.comp_apply, Stmt.isComment_move]
  unfold judge
  rw [hcomments, splitAtJump_move]
  cases splitAtJump terminators (body.filter (!·.isComment)) with
  | none => rfl
  | some x =>
    obtain ⟨jump, kind, dead⟩ := x
    simp only [Option.map_some, Option.bind_eq_bind, Option.bind_some, List.head?_map,
      List.getLast?_map]
    cases dead.head? with
    | none => rfl
    | some first =>
      cases dead.getLast? with
      | none => rfl
      | some last =>
        have hfrom := codeFrom_renumber hφ h jump.stop
        simp only [Option.map_some, Option.bind_some, Range.move_stop, hfrom]
        cases codeFrom ts jump.stop <;>
          simp [Diagnostic.move, Range.move]

theorem body?_move (f : Position → Position) (n : Node) :
    body? (n.move f) = (body? n).map (List.map (Stmt.move f)) := by
  cases n with
  | block b => exact congrArg some (Block.statements_move f b)
  | _ => rfl

theorem check_renumber (hφ : Ascending φ) (terminators : List String) (p : Program)
    {ts : List Token} (h : Token.InTurn ts) :
    check terminators (p.move (.renumber φ)) (ts.map (Token.move (.renumber φ))) =
      (check terminators p ts).map (Diagnostic.move (.renumber φ)) := by
  rw [check, check, Program.walk_move, List.filterMap_map, List.map_filterMap]
  have hbodies : body? ∘ Node.move (.renumber φ) = fun n =>
      (body? n).map (List.map (Stmt.move (.renumber φ))) := funext (body?_move _)
  rw [hbodies, ← List.map_filterMap, List.filterMap_map]
  refine List.filterMap_congr fun body _ => ?_
  exact judge_renumber hφ terminators h body

end Unreachable

/-! ## Constant conditions -/

namespace ConstantCondition

theorem condition?_move (f : Position → Position) (n : Node) :
    condition? (n.move f) = (condition? n).map (Expr.move f) := by
  cases n with
  | stmt s =>
    cases s with
    | conditional b =>
      simp only [Node.move, Stmt.move, condition?, Branch.condition_move]
      rfl
    | _ =>
      simp only [Node.move, Stmt.move, condition?]
      rfl
  | expr e => cases e <;> simp only [Node.move, Expr.move, condition?] <;> rfl
  | _ => rfl

theorem judge_move (f : Position → Position) (n : Node) :
    judge (n.move f) = (judge n).map (Diagnostic.move f) := by
  unfold judge
  rw [condition?_move]
  cases condition? n with
  | none => rfl
  | some e =>
    cases e with
    | literal r v => cases v <;> simp only [Option.map_some, Expr.move] <;> rfl
    | _ =>
      simp only [Option.map_some, Expr.move]
      rfl

theorem check_move (f : Position → Position) (p : Program) :
    check (p.move f) = (check p).map (Diagnostic.move f) := by
  rw [check, check, Program.walk_move, List.filterMap_map, List.map_filterMap]
  exact List.filterMap_congr fun n _ => judge_move f n

end ConstantCondition

/-! ## Nesting depth -/

namespace Nesting

variable (f : Position → Position) (limit : Int)

theorem judge_move (depth : Int) (header : Range) :
    judge limit depth (header.move f) = (judge limit depth header).map (Diagnostic.move f) := by
  unfold judge
  split <;> rfl

mutual

theorem inStmt_move (depth : Int) (s : Stmt) :
    inStmt limit depth (s.move f) = (inStmt limit depth s).map (Diagnostic.move f) := by
  cases s with
  | conditional b =>
    rw [Stmt.move, inStmt, inStmt, Branch.header_move, judge_move, inBranch_move, List.map_append]
  | countingLoop r counter first last step body =>
    have hheader := Stmt.header_move f (.countingLoop r counter first last step body)
    rw [Stmt.move] at hheader ⊢
    rw [inStmt, inStmt, hheader, judge_move, inBlock_move, List.map_append]
  | iteratingLoop r element collection body =>
    have hheader := Stmt.header_move f (.iteratingLoop r element collection body)
    rw [Stmt.move] at hheader ⊢
    rw [inStmt, inStmt, hheader, judge_move, inBlock_move, List.map_append]
  | whileLoop r condition body =>
    have hheader := Stmt.header_move f (.whileLoop r condition body)
    rw [Stmt.move] at hheader ⊢
    rw [inStmt, inStmt, hheader, judge_move, inBlock_move, List.map_append]
  | blockFunction r name parameters body =>
    rw [Stmt.move, inStmt, inStmt, inBlock_move]
  | _ => simp only [Stmt.move, inStmt, List.map_nil]

theorem inBranch_move (depth : Int) (b : Branch) :
    inBranch limit depth (b.move f) = (inBranch limit depth b).map (Diagnostic.move f) := by
  cases b with
  | mk r condition body otherwise =>
    rw [Branch.move, inBranch, inBranch, inBlock_move, inOtherwise_move, List.map_append]

theorem inOtherwise_move (depth : Int) (o : Otherwise) :
    inOtherwise limit depth (o.move f) = (inOtherwise limit depth o).map (Diagnostic.move f) := by
  cases o with
  | nothing => rw [Otherwise.move, inOtherwise, List.map_nil]
  | block body => rw [Otherwise.move, inOtherwise, inOtherwise, inBlock_move]
  | elseIf b => rw [Otherwise.move, inOtherwise, inOtherwise, inBranch_move]

theorem inBlock_move (depth : Int) (b : Block) :
    inBlock limit depth (b.move f) = (inBlock limit depth b).map (Diagnostic.move f) := by
  cases b with
  | mk r statements =>
    rw [Block.move, inBlock, inBlock, Stmt.moveAll_eq_map, inBody_move]

theorem inBody_move (depth : Int) (ss : List Stmt) :
    inBody limit depth (ss.map (Stmt.move f)) =
      (inBody limit depth ss).map (Diagnostic.move f) := by
  cases ss with
  | nil => rw [List.map_nil, inBody, List.map_nil]
  | cons s more => rw [List.map_cons, inBody, inBody, inStmt_move, inBody_move, List.map_append]

end

end Nesting

/-! ## Shadowing -/

namespace Shadowing

def Frame.renumber (φ : Int → Int) (frame : Frame) : Frame :=
  frame.map fun (name, line) => (name, φ line)

theorem Frame.lookup_renumber (frame : Frame) (name : String) :
    (frame.renumber φ).lookup name = (frame.lookup name).map φ := by
  induction frame with
  | nil => rfl
  | cons x frame ih =>
    obtain ⟨key, line⟩ := x
    rw [renumber, List.map_cons, List.lookup_cons, List.lookup_cons]
    split
    · rfl
    · exact ih

theorem Frame.bind_renumber (frame : Frame) (name : String) (line : Int) :
    (frame.renumber φ).bind name (φ line) = (frame.bind name line).renumber φ := by
  rw [bind, bind, lookup_renumber]
  cases frame.lookup name with
  | none => simp [renumber]
  | some found => rfl

theorem lookup_renumber (scopes : List Frame) (name : String) :
    lookup (scopes.map (Frame.renumber φ)) name = (lookup scopes name).map φ := by
  rw [lookup, lookup, List.findSome?_map]
  induction scopes with
  | nil => rfl
  | cons frame scopes ih =>
    rw [List.findSome?_cons, List.findSome?_cons, Function.comp_apply, Frame.lookup_renumber, ih]
    cases frame.lookup name <;> rfl

theorem ofParameters_renumber (parameters : List Parameter) :
    ofParameters (parameters.map (Parameter.move (.renumber φ))) =
      (ofParameters parameters).renumber φ := by
  have hbind : ∀ (ps : List Parameter) (frame : Frame),
      ps.foldl (fun frame p => frame.bind p.name.text (φ p.range.start.line)) (frame.renumber φ) =
        (ps.foldl (fun frame p => frame.bind p.name.text p.range.start.line) frame).renumber φ := by
    intro ps
    induction ps with
    | nil => exact fun _ => rfl
    | cons p ps ih =>
      intro frame
      rw [List.foldl_cons, List.foldl_cons, Frame.bind_renumber, ih]
  -- The induction is on the parameters from the last one on, over any scope begun with.
  rw [ofParameters, ofParameters, ← List.map_reverse, List.foldl_map]
  exact hbind parameters.reverse []

theorem declared_renumber (frame : Frame) (s : Stmt) :
    declared (frame.renumber φ) (s.move (.renumber φ)) = (declared frame s).renumber φ := by
  cases s with
  | declaration r modifier typeName name value =>
    rw [Stmt.move, declared, declared]
    exact frame.bind_renumber name.text r.start.line
  | _ => simp only [Stmt.move, declared]

theorem judge_renumber (frame : Frame) (outer : List Frame) (r : Range) (name : String) :
    List.Forall₂ (Diagnostic.Renumbered φ) (judge frame outer r name)
      (judge (frame.renumber φ) (outer.map (Frame.renumber φ)) (r.move (.renumber φ)) name) := by
  unfold judge
  rw [Frame.lookup_renumber, lookup_renumber]
  cases frame.lookup name with
  | some own => exact .nil
  | none =>
    cases lookup outer name with
    | none => exact .nil
    | some line =>
      exact .cons ⟨rfl, rfl, rfl, rfl, fun h => absurd rfl h, fun _ => ⟨name, line, rfl, rfl⟩⟩ .nil

mutual

theorem inStmt_renumber (frame : Frame) (outer : List Frame) (s : Stmt) :
    List.Forall₂ (Diagnostic.Renumbered φ) (inStmt frame outer s)
      (inStmt (frame.renumber φ) (outer.map (Frame.renumber φ)) (s.move (.renumber φ))) := by
  cases s with
  | declaration r modifier typeName name value =>
    rw [Stmt.move, inStmt, inStmt]
    exact judge_renumber frame outer r name.text
  | conditional b =>
    rw [Stmt.move, inStmt, inStmt]
    exact inBranch_renumber (frame :: outer) b
  | countingLoop r counter first last step body =>
    rw [Stmt.move, inStmt, inStmt]
    exact inBlock_renumber (frame :: outer) (ofLoop counter) body
  | iteratingLoop r element collection body =>
    rw [Stmt.move, inStmt, inStmt]
    exact inBlock_renumber (frame :: outer) (ofLoop element) body
  | whileLoop r condition body =>
    rw [Stmt.move, inStmt, inStmt]
    exact inBlock_renumber (frame :: outer) [] body
  | blockFunction r name parameters body =>
    rw [Stmt.move, inStmt, inStmt, ofParameters_renumber]
    exact inBlock_renumber (frame :: outer) (ofParameters parameters) body
  | _ =>
    simp only [Stmt.move, inStmt]
    exact .nil

theorem inBranch_renumber (outer : List Frame) (b : Branch) :
    List.Forall₂ (Diagnostic.Renumbered φ) (inBranch outer b)
      (inBranch (outer.map (Frame.renumber φ)) (b.move (.renumber φ))) := by
  cases b with
  | mk r condition body otherwise =>
    rw [Branch.move, inBranch, inBranch]
    exact List.rel_append (inBlock_renumber outer [] body) (inOtherwise_renumber outer otherwise)

theorem inOtherwise_renumber (outer : List Frame) (o : Otherwise) :
    List.Forall₂ (Diagnostic.Renumbered φ) (inOtherwise outer o)
      (inOtherwise (outer.map (Frame.renumber φ)) (o.move (.renumber φ))) := by
  cases o with
  | nothing =>
    rw [Otherwise.move, inOtherwise, inOtherwise]
    exact .nil
  | block body =>
    rw [Otherwise.move, inOtherwise, inOtherwise]
    exact inBlock_renumber outer [] body
  | elseIf b =>
    rw [Otherwise.move, inOtherwise, inOtherwise]
    exact inBranch_renumber outer b

theorem inBlock_renumber (outer : List Frame) (frame : Frame) (b : Block) :
    List.Forall₂ (Diagnostic.Renumbered φ) (inBlock outer frame b)
      (inBlock (outer.map (Frame.renumber φ)) (frame.renumber φ) (b.move (.renumber φ))) := by
  cases b with
  | mk r statements =>
    rw [Block.move, inBlock, inBlock, Stmt.moveAll_eq_map]
    exact inBody_renumber frame outer statements

theorem inBody_renumber (frame : Frame) (outer : List Frame) (ss : List Stmt) :
    List.Forall₂ (Diagnostic.Renumbered φ) (inBody frame outer ss)
      (inBody (frame.renumber φ) (outer.map (Frame.renumber φ))
        (ss.map (Stmt.move (.renumber φ)))) := by
  cases ss with
  | nil =>
    rw [List.map_nil, inBody, inBody]
    exact .nil
  | cons s more =>
    rw [List.map_cons, inBody, inBody, declared_renumber]
    exact List.rel_append (inStmt_renumber frame outer s)
      (inBody_renumber (declared frame s) outer more)

end

theorem check_renumber (p : Program) :
    List.Forall₂ (Diagnostic.Renumbered φ) (check p) (check (p.move (.renumber φ))) :=
  inBody_renumber [] [] p.body

end Shadowing

/-- Where lines are renumbered in order, a rule reports the same with the new numbers. -/
theorem check_renumber (hφ : Ascending φ) (rule : Rule) (p : Program) {ts : List Token}
    (h : Token.InTurn ts) :
    List.Forall₂ (Diagnostic.Renumbered φ) (rule.check p ts)
      (rule.check (p.move (.renumber φ)) (ts.map (Token.move (.renumber φ)))) := by
  -- All rules but shadowing keep their messages, and report just the moved diagnostics.
  have hmoved : rule.id ≠ Shadowing.id →
      rule.check (p.move (.renumber φ)) (ts.map (Token.move (.renumber φ))) =
        (rule.check p ts).map (Diagnostic.move (.renumber φ)) →
      List.Forall₂ (Diagnostic.Renumbered φ) (rule.check p ts)
        (rule.check (p.move (.renumber φ)) (ts.map (Token.move (.renumber φ)))) := by
    intro hid hcheck
    rw [hcheck]
    refine List.forall₂_map_right_iff.2 (List.forall₂_same.2 fun d hd => ?_)
    exact Diagnostic.renumbered_move (by rwa [code_of_mem_check hd])
  cases rule with
  | continuation minIndent =>
    exact hmoved (of_decide_eq_true rfl) (Continuation.check_renumber hφ minIndent p ts)
  | shadowing => exact Shadowing.check_renumber p
  | constantCondition => exact hmoved (of_decide_eq_true rfl) (ConstantCondition.check_move _ p)
  | unreachable terminators =>
    exact hmoved (of_decide_eq_true rfl) (Unreachable.check_renumber hφ terminators p h)
  | nesting maxDepth =>
    exact hmoved (of_decide_eq_true rfl) (Nesting.inBody_move _ maxDepth 0 p.body)

end Rule

end PineScript
