import Mathlib.Data.List.Basic
import PineScript.Proofs.Rule.Message
import PineScript.Proofs.Rule.Scopes
import PineScript.Rule.Lookup

/-!
# Lookups that do not fail

Main statement: no lookup of a rule fails, whatever the script and the tokens. What is found is what
the rule reports, and the one thing that may keep it from that is a number in a message that is too
long to be printed (`Rule.yields_attempt`).
-/

namespace PineScript.Rule

@[simp] theorem ok_bind {α β : Type} (a : α) (f : α → Except Failure β) :
    (Except.ok a >>= f) = f a := rfl

/-- All numbers in the message of a diagnostic can be printed. -/
def Printable (digits : DigitLimit) (rule : Rule) (d : Diagnostic) : Prop :=
  ∀ n, Cites rule d.message n → digits.allows n = true

/-- What comes of an attempt to report some diagnostics: these, or a failure if the message of one
cannot be printed. -/
inductive Yields (digits : DigitLimit) (rule : Rule) (found : List Diagnostic) :
    Except Failure (List Diagnostic) → Prop
  | reported (h : ∀ d ∈ found, Printable digits rule d) : Yields digits rule found (.ok found)
  | failed {d : Diagnostic} (hd : d ∈ found) (h : ¬ Printable digits rule d) :
      Yields digits rule found (.error digits.exceeded)

namespace Yields

variable {digits : DigitLimit} {rule : Rule}

theorem nil : Yields digits rule [] (.ok []) := .reported fun _ h => absurd h List.not_mem_nil

theorem append {own rest : List Diagnostic} {r r' : Except Failure (List Diagnostic)}
    (h : Yields digits rule own r) (h' : Yields digits rule rest r') :
    Yields digits rule (own ++ rest) (do return (← r) ++ (← r')) := by
  cases h with
  | failed hd h => exact .failed (List.mem_append_left rest hd) h
  | reported h =>
    cases h' with
    | failed hd h' => exact .failed (List.mem_append_right own hd) h'
    | reported h' => exact .reported fun d hd => (List.mem_append.1 hd).elim (h d) (h' d)

theorem gather {α : Type} {f : α → Except Failure (List Diagnostic)} {g : α → List Diagnostic}
    {l : List α} (h : ∀ a ∈ l, Yields digits rule (g a) (f a)) :
    Yields digits rule (l.flatMap g) (gather f l) := by
  induction l with
  | nil => exact nil
  | cons a more ih =>
    have hmore := ih fun b hb => h b (List.mem_cons_of_mem a hb)
    exact (h a List.mem_cons_self).append hmore

/-- The one step that may fail. -/
theorem print {d : Diagnostic} {numbers : List Int}
    (hcites : ∀ n, Cites rule d.message n ↔ n ∈ numbers)
    {report : String → Except Failure (List Diagnostic)} (hreport : report d.message = .ok [d]) :
    Yields digits rule [d] (digits.print numbers d.message >>= report) := by
  rw [DigitLimit.print]
  split
  · rename_i hall
    rw [ok_bind, hreport]
    refine .reported fun d' hd' n hn => ?_
    rw [List.mem_singleton.1 hd', hcites] at hn
    exact List.all_eq_true.1 hall n hn
  · rename_i hsome
    refine .failed List.mem_cons_self fun h => hsome (List.all_eq_true.2 fun n hn => ?_)
    exact h n ((hcites n).2 hn)

end Yields

@[simp] theorem firstOf_cons {α : Type} (a : α) (l : List α) : firstOf (a :: l) = .ok a := rfl

@[simp] theorem lastOf_append {α : Type} (l : List α) (a : α) : lastOf (l ++ [a]) = .ok a := by
  rw [lastOf, List.getLast?_concat]

/-- The header of a loop has a last part, and that of a function with parameters a last one. -/
theorem headerOf_eq (s : Stmt) : headerOf s = .ok s.header := by
  cases s with
  | countingLoop range counter first last step body =>
    have hparts : (Stmt.countingLoop range counter first last step body).children.dropLast =
        counter.node :: .expr first :: .expr last :: Node.ofExpr? step :=
      List.dropLast_concat
    rw [headerOf, hparts]
    cases step <;> rfl
  | iteratingLoop => rfl
  | blockFunction range name parameters body =>
    rw [headerOf, Stmt.header]
    rcases List.eq_nil_or_concat parameters with rfl | ⟨front, last, rfl⟩
    · rfl
    · rw [List.concat_eq_append, lastOf_append, List.getLast?_concat]
      simp [pure, Except.pure]
  | _ => rfl

/-! ## Rules that look at lines and bodies -/

namespace Continuation

variable (digits : DigitLimit)

/-- The first token of a line that begins with code is its first code. -/
theorem yields_attemptLine (minIndent required : Int) (line : List Token) :
    Yields digits (.continuation minIndent) (judgeLine required line).toList
      (attemptLine digits required line) := by
  cases line with
  | nil => exact .nil
  | cons opening more =>
    unfold attemptLine judgeLine
    rcases List.eq_nil_or_concat ((opening :: more).filter (!·.isLayout)) with
      hcode | ⟨front, last, hcode⟩
    · rw [hcode]
      exact .nil
    · rw [List.concat_eq_append] at hcode
      have hsome : (front ++ [last]).isEmpty = false := by simp
      simp only [hcode, List.getLast?_concat, lastOf_append, firstOf_cons, hsome, List.head?_cons,
        ok_bind]
      cases hlayout : opening.isLayout with
      -- A line that begins with layout is passed over, though code may follow.
      | true => simpa [hlayout, pure, Except.pure] using Yields.nil
      | false =>
        have hfirst : firstOf (front ++ [last]) = .ok opening := by
          rw [← hcode, List.filter_cons_of_pos (by simp [hlayout]), firstOf_cons]
        by_cases hindent : required ≤ opening.indent.getD 0
        · simpa [hlayout, hindent, pure, Except.pure] using Yields.nil
        · simp only [hfirst, ok_bind, hlayout, hindent, decide_false, Bool.or_self,
            Bool.false_eq_true, ↓reduceIte, Option.bind_eq_bind, Option.bind_some]
          exact .print (fun n => cites_continuation) rfl

theorem yields_attemptStmt (minIndent : Int) (tokens : List Token) (s : Stmt) :
    Yields digits (.continuation minIndent) (judge minIndent tokens s)
      (attemptStmt digits minIndent tokens s) := by
  unfold attemptStmt judge
  rw [headerOf_eq, ok_bind]
  cases isJudged s with
  | false => exact .nil
  | true =>
    dsimp only
    cases s.header.isMultiline with
    | false => exact .nil
    | true =>
      cases onLine tokens s.header.start.line with
      | nil => exact .nil
      | cons opening more =>
        obtain ⟨kind, text, range, indent⟩ := opening
        cases indent with
        | none => exact .nil
        | some indent =>
          have hlines := Yields.gather fun n (_ : n ∈ furtherLines tokens s.header) =>
            yields_attemptLine digits minIndent (indent + minIndent) (onLine tokens n)
          rw [← List.filterMap_eq_flatMap_toList] at hlines
          exact hlines

end Continuation

namespace Unreachable

theorem attemptBody_eq (terminators : List String) (tokens : List Token) (body : List Stmt) :
    attemptBody terminators tokens body = .ok (judge terminators tokens body).toList := by
  unfold attemptBody judge
  cases splitAtJump terminators (body.filter (!·.isComment)) with
  | none => rfl
  | some split =>
    obtain ⟨jump, kind, dead⟩ := split
    cases dead with
    | nil => rfl
    | cons first more =>
      obtain ⟨front, last, hdead⟩ : ∃ front last, first :: more = front ++ [last] :=
        ⟨_, _, (List.dropLast_concat_getLast (List.cons_ne_nil first more)).symm⟩
      have hlast : lastOf (first :: more) = .ok last := by rw [hdead, lastOf_append]
      have hlast' : (first :: more).getLast? = some last := by rw [hdead, List.getLast?_concat]
      dsimp only
      cases hcode : codeFrom tokens jump.stop <;> simp [hcode, hlast, hlast', pure, Except.pure]

theorem yields_attempt (digits : DigitLimit) (terminators : List String) (program : Program)
    (tokens : List Token) :
    Yields digits (.unreachable terminators) (check terminators program tokens)
      (attempt terminators program tokens) := by
  have hbody (body : List Stmt) : Yields digits (.unreachable terminators)
      (judge terminators tokens body).toList (attemptBody terminators tokens body) := by
    rw [attemptBody_eq]
    exact .reported fun d _ n hn => by cases hn
  have hbodies := Yields.gather fun body (_ : body ∈ program.walk.filterMap body?) => hbody body
  rw [← List.filterMap_eq_flatMap_toList] at hbodies
  exact hbodies

end Unreachable

namespace Nesting

variable (digits : DigitLimit) (maxDepth : Int)

theorem yields_attemptJudge (limit depth : Int) (s : Stmt) :
    Yields digits (.nesting maxDepth) (judge limit depth s.header)
      (attemptJudge digits limit depth s) := by
  unfold attemptJudge judge
  rw [headerOf_eq]
  split
  · exact .print (fun n => cites_nesting) rfl
  · exact .nil

mutual

theorem yields_attemptStmt (limit depth : Int) : (s : Stmt) →
    Yields digits (.nesting maxDepth) (inStmt limit depth s) (attemptStmt digits limit depth s)
  | .conditional b => by
    rw [attemptStmt]
    exact (yields_attemptJudge digits maxDepth limit depth (.conditional b)).append
      (yields_attemptBranch limit depth b)
  | .countingLoop r counter first last step body => by
    rw [attemptStmt]
    exact (yields_attemptJudge digits maxDepth limit depth _).append
      (yields_attemptBlock limit (depth + 1) body)
  | .iteratingLoop r element collection body => by
    rw [attemptStmt]
    exact (yields_attemptJudge digits maxDepth limit depth _).append
      (yields_attemptBlock limit (depth + 1) body)
  | .whileLoop r condition body => by
    rw [attemptStmt]
    exact (yields_attemptJudge digits maxDepth limit depth _).append
      (yields_attemptBlock limit (depth + 1) body)
  | .blockFunction _ _ _ body => yields_attemptBlock limit 0 body
  | .comment .. | .malformed .. | .expression .. | .declaration .. | .assignment .. | .jump ..
  | .lineFunction .. => .nil

theorem yields_attemptBranch (limit depth : Int) : (b : Branch) →
    Yields digits (.nesting maxDepth) (inBranch limit depth b) (attemptBranch digits limit depth b)
  | .mk _ _ body otherwise =>
    (yields_attemptBlock limit (depth + 1) body).append
      (yields_attemptOtherwise limit depth otherwise)

theorem yields_attemptOtherwise (limit depth : Int) : (o : Otherwise) →
    Yields digits (.nesting maxDepth) (inOtherwise limit depth o)
      (attemptOtherwise digits limit depth o)
  | .nothing => .nil
  | .block body => yields_attemptBlock limit (depth + 1) body
  | .elseIf b => yields_attemptBranch limit depth b

theorem yields_attemptBlock (limit depth : Int) : (b : Block) →
    Yields digits (.nesting maxDepth) (inBlock limit depth b) (attemptBlock digits limit depth b)
  | .mk _ statements => yields_attemptStmts limit depth statements

theorem yields_attemptStmts (limit depth : Int) : (body : List Stmt) →
    Yields digits (.nesting maxDepth) (inBody limit depth body)
      (attemptStmts digits limit depth body)
  | [] => .nil
  | s :: more => (yields_attemptStmt limit depth s).append (yields_attemptStmts limit depth more)

end

end Nesting

/-! ## Scopes that are opened on the way -/

namespace Shadowing

open Node (nodeAt? bodyAbove? bodyAbove?_lt)

variable {program : Program} {index : Array Node.Entry} {scopes : Scopes} {body k : Nat}

/-- What is bound in a body and the body around it, when a node is visited. -/
def scopeAt (index : Array Node.Entry) (body k : Nat) : Scope :=
  ⟨frameAt index body k, bodyAbove? index body⟩

/-- The scopes that are open when a node is visited. With a body, those around it are open, and in
one that is not open nothing was declared. -/
structure Tracks (index : Array Node.Entry) (k : Nat) (scopes : Scopes) : Prop where
  scope : ∀ {body scope}, scopes.lookup body = some scope → scope = scopeAt index body k
  around : ∀ {body scope around}, scopes.lookup body = some scope →
    bodyAbove? index body = some around → (scopes.lookup around).isSome
  unopened : ∀ {body}, scopes.lookup body = none → frameAt index body k = implicitFrame index body

theorem tracks_nil : Tracks index 0 [] where
  scope h := by cases h
  around h := by cases h
  unopened _ := rfl

theorem lookup_cons_scope {scope : Scope} (b : Nat) :
    List.lookup b ((body, scope) :: scopes) = if b = body then some scope else scopes.lookup b := by
  rw [List.lookup_cons]
  by_cases h : b = body
  · simp [h]
  · simp [h, beq_false_of_ne h]

theorem Tracks.lookup (h : Tracks index k scopes) (hopen : (scopes.lookup body).isSome) :
    scopes.lookup body = some (scopeAt index body k) := by
  obtain ⟨scope, hscope⟩ := Option.isSome_iff_exists.1 hopen
  rw [hscope, h.scope hscope]

/-- A scope is put in front. It may replace one, and may change what is bound in its body only. -/
theorem Tracks.cons {j : Nat} (h : Tracks index k scopes)
    (hsame : ∀ b, b ≠ body → frameAt index b j = frameAt index b k)
    (haround : ∀ around, bodyAbove? index body = some around → (scopes.lookup around).isSome) :
    Tracks index j ((body, scopeAt index body j) :: scopes) where
  scope {b scope} hb := by
    rw [lookup_cons_scope] at hb
    split at hb
    · rename_i heq
      cases hb
      rw [heq]
    · rename_i hne
      rw [h.scope hb, scopeAt, scopeAt, hsame b hne]
  around {b scope around} hb habove := by
    rw [lookup_cons_scope] at hb ⊢
    split
    · rfl
    · split at hb
      · rename_i heq
        exact haround around (heq ▸ habove)
      · exact h.around hb habove
  unopened {b} hb := by
    rw [lookup_cons_scope] at hb
    split at hb
    · cases hb
    · rename_i hne
      rw [hsame b hne, h.unopened hb]

theorem Tracks.mono {j : Nat} (h : Tracks index k scopes)
    (hsame : ∀ b, frameAt index b j = frameAt index b k) : Tracks index j scopes where
  scope hb := by rw [h.scope hb, scopeAt, scopeAt, hsame]
  around := h.around
  unopened hb := by rw [hsame, h.unopened hb]

/-- From an open scope outwards, what is bound in the bodies is found. -/
theorem Tracks.lookupFrom (h : Tracks index k scopes) (hopen : (scopes.lookup body).isSome)
    (name : String) : lookupFrom scopes body name =
      Shadowing.lookup (frameAt index body k :: framesAround index body k) name := by
  induction body using Nat.strongRecOn with
  | ind body ih =>
    rw [Shadowing.lookupFrom, h.lookup hopen, Shadowing.lookup, List.findSome?_cons]
    dsimp only [scopeAt]
    cases (frameAt index body k).lookup name with
    | some line => rfl
    | none =>
      cases habove : bodyAbove? index body with
      | none => rw [framesAround_eq_nil habove]; rfl
      | some around =>
        have hlt : around < body := bodyAbove?_lt habove
        rw [framesAround_eq habove]
        simp only [hlt, ↓reduceIte]
        exact ih around hlt (h.around (h.lookup hopen) habove)

theorem openScope_zero (hnone : scopes.lookup 0 = none) :
    openScope program.index 0 scopes =
      .ok (⟨implicitFrame program.index 0, none⟩,
        (0, ⟨implicitFrame program.index 0, none⟩) :: scopes) := by
  have hnode : nodeAt? program.index 0 = some (.program program) := by
    rw [nodeAt?, program.index_zero]
    rfl
  rw [openScope, hnone, hnode]

theorem openScope_of_above {around : Nat} {outer : Scope} {scopes' : Scopes}
    (hnone : scopes.lookup body = none) (habove : bodyAbove? program.index body = some around)
    (houter : openScope program.index around scopes = .ok (outer, scopes')) :
    openScope program.index body scopes =
      .ok (⟨implicitFrame program.index body, some around⟩,
        (body, ⟨implicitFrame program.index body, some around⟩) :: scopes') := by
  rw [openScope, hnone]
  split
  · rename_i h
    cases h
  -- Nothing stands above a script.
  · rename_i hnode
    rw [Program.eq_zero_of_program hnode] at habove
    cases bodyAbove?_lt habove
  · split
    · rename_i hroot
      rw [habove] at hroot
      cases hroot
    · rename_i hsome
      rw [habove, Option.some_inj] at hsome
      subst hsome
      rw [houter]

/-- The scope of a body is there, or is opened. -/
theorem Tracks.openScope (h : Tracks program.index k scopes) (hlt : body < program.index.size) :
    ∃ scopes', openScope program.index body scopes = .ok (scopeAt program.index body k, scopes') ∧
      Tracks program.index k scopes' ∧ (scopes'.lookup body).isSome := by
  induction body using Nat.strongRecOn with
  | ind body ih =>
    cases hscope : scopes.lookup body with
    | some scope =>
      refine ⟨scopes, ?_, h, hscope ▸ rfl⟩
      rw [Shadowing.openScope, hscope, h.scope hscope]
    | none =>
      have hopened (scopes' : Scopes) :
          (List.lookup body ((body, scopeAt program.index body k) :: scopes')).isSome := by
        rw [lookup_cons_scope, if_pos rfl]
        rfl
      rcases Nat.eq_zero_or_pos body with rfl | hpos
      · have habove : bodyAbove? program.index 0 = none :=
          Option.eq_none_iff_forall_ne_some.2 fun b hb => by cases bodyAbove?_lt hb
        refine ⟨_, ?_, h.cons (fun _ _ => rfl) fun around haround => ?_, hopened scopes⟩
        · rw [openScope_zero hscope, scopeAt, habove, h.unopened hscope]
        · rw [habove] at haround
          cases haround
      · obtain ⟨around, habove⟩ := program.exists_bodyAbove? hpos hlt
        have hbefore : around < body := bodyAbove?_lt habove
        obtain ⟨scopes', houter, htracks, haround⟩ :=
          ih around hbefore (Nat.lt_trans hbefore hlt)
        -- In a body that is not open nothing was declared, so it is opened with what its header binds.
        refine ⟨_, ?_, htracks.cons (fun _ _ => rfl) fun b hb => ?_, hopened scopes'⟩
        · rw [openScope_of_above hscope habove houter, scopeAt, habove, h.unopened hscope]
        · rw [habove] at hb
          cases hb
          exact haround

variable (digits : DigitLimit)

theorem yields_attemptJudge (inner : Frame) (outer : List Frame) (range : Range) (name : String) :
    Yields digits .shadowing (judge inner outer range name)
      (attemptJudge digits (inner.lookup name) (Shadowing.lookup outer name) range name) := by
  unfold judge attemptJudge
  cases inner.lookup name with
  | some line => exact .nil
  | none =>
    cases Shadowing.lookup outer name with
    | none => exact .nil
    | some line => exact .print (fun n => cites_shadowing) rfl

/-- A declaration is judged by what is bound, and then binds its name. -/
theorem Tracks.attemptNode_declaration (h : Tracks program.index k scopes) {range : Range}
    {modifier : Option Modifier} {typeName : Option String} {name : Name} {value : Expr}
    (hnode : nodeAt? program.index k =
      some (.stmt (.declaration range modifier typeName name value)))
    (hlt : k < program.index.size) :
    ∃ scopes' r, attemptNode digits program.index scopes k = (·, scopes') <$> r ∧
      Yields digits .shadowing (judgeAt program.index k) r ∧
      Tracks program.index (k + 1) scopes' := by
  have hpos : 0 < k := by
    refine Nat.pos_of_ne_zero fun hzero => ?_
    rw [hzero, nodeAt?, program.index_zero] at hnode
    cases hnode
  obtain ⟨body, habove⟩ := program.exists_bodyAbove? hpos hlt
  obtain ⟨scopes', hopen, htracks, hbody⟩ :=
    h.openScope (Nat.lt_trans (bodyAbove?_lt habove) hlt)
  have hframe (b : Nat) : frameAt program.index b (k + 1) = if body = b then
      (frameAt program.index b k).bind name.text range.start.line
      else frameAt program.index b k := by
    rw [frameAt_succ, habove, declaredAt, hnode]
    simp only [Option.some_inj, declared]
  have hscope : scopeAt program.index body (k + 1) =
      ⟨(frameAt program.index body k).bind name.text range.start.line,
        bodyAbove? program.index body⟩ := by
    rw [scopeAt, hframe, if_pos rfl]
  -- With the body, those around it are open, so the search outwards meets every frame.
  have houter : ((bodyAbove? program.index body).bind fun around =>
      Shadowing.lookupFrom scopes' around name.text) =
        Shadowing.lookup (framesAround program.index body k) name.text := by
    cases haround : bodyAbove? program.index body with
    | none =>
      rw [framesAround_eq_nil haround]
      rfl
    | some around =>
      rw [framesAround_eq haround, Option.bind_some,
        htracks.lookupFrom (htracks.around (htracks.lookup hbody) haround)]
  have hjudged : judgeAt program.index k = judge (frameAt program.index body k)
      (framesAround program.index body k) range name.text := by
    rw [judgeAt, hnode, habove]
  refine ⟨(body, scopeAt program.index body (k + 1)) :: scopes', _, ?_,
    hjudged ▸ yields_attemptJudge digits .., htracks.cons (fun b hb => ?_) fun around haround => ?_⟩
  · rw [Shadowing.attemptNode, hnode, habove]
    dsimp only
    rw [hopen, hscope]
    dsimp only [ok_bind, scopeAt]
    rw [houter]
    rfl
  · rw [hframe, if_neg (Ne.symm hb)]
  · exact htracks.around (htracks.lookup hbody) haround

theorem Tracks.attemptNode (h : Tracks program.index k scopes) (hlt : k < program.index.size) :
    ∃ scopes' r, attemptNode digits program.index scopes k = (·, scopes') <$> r ∧
      Yields digits .shadowing (judgeAt program.index k) r ∧
      Tracks program.index (k + 1) scopes' := by
  obtain ⟨node, hnode⟩ : ∃ node, nodeAt? program.index k = some node :=
    ⟨_, by rw [nodeAt?, Array.getElem?_eq_getElem hlt]; rfl⟩
  cases hdeclares : declares node with
  | false =>
    refine ⟨scopes, .ok [], ?_, ?_, h.mono fun b => ?_⟩
    · rw [Shadowing.attemptNode, hnode]
      split
      · rename_i heq
        cases heq
        cases hdeclares
      · rfl
    · rw [judgeAt_of_not_declares hnode hdeclares]
      exact .nil
    · rw [frameAt_succ, declaredAt_of_not_declares hnode hdeclares, ite_self]
  | true =>
    cases node with
    | stmt s =>
      cases s with
      | declaration => exact h.attemptNode_declaration digits hnode hlt
      | _ => cases hdeclares
    | _ => cases hdeclares

/-- Visits of successive nodes, in scopes that are kept up to date. -/
theorem Tracks.attemptNodes {size : Nat} (h : Tracks program.index k scopes)
    (hsize : k + size = program.index.size) :
    Yields digits .shadowing ((List.range' k size).flatMap (judgeAt program.index))
      (attemptNodes digits program.index scopes (List.range' k size)) := by
  induction size generalizing k scopes with
  | zero => exact .nil
  | succ size ih =>
    obtain ⟨scopes', r, hnode, hown, htracks⟩ := h.attemptNode digits (by omega)
    rw [List.range'_succ, Shadowing.attemptNodes, hnode]
    have hall := hown.append (ih htracks (by omega))
    cases r <;> exact hall

theorem yields_attempt (program : Program) :
    Yields digits .shadowing (check program) (attempt digits program) := by
  rw [check_eq_judgeAt, attempt, List.range_eq_range']
  exact tracks_nil.attemptNodes digits (Nat.zero_add _)

end Shadowing

/-- No lookup of a rule fails, and what they find is what the rule reports. -/
theorem yields_attempt (digits : DigitLimit) (rule : Rule) (program : Program)
    (tokens : List Token) :
    Yields digits rule (rule.check program tokens) (rule.attempt digits program tokens) := by
  cases rule with
  | continuation minIndent =>
    exact .gather fun s _ => Continuation.yields_attemptStmt digits minIndent tokens s
  | shadowing => exact Shadowing.yields_attempt digits program
  | constantCondition => exact .reported fun d _ n hn => by cases hn
  | unreachable terminators => exact Unreachable.yields_attempt digits terminators program tokens
  | nesting maxDepth => exact Nesting.yields_attemptStmts digits maxDepth maxDepth 0 program.body

end PineScript.Rule
