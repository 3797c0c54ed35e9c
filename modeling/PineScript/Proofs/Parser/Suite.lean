import PineScript.Parser.Program
import PineScript.Proofs.Parser.Run

/-!
# Running suites

What the readers of suites, blocks and scripts do, in terms of the items of a suite. A suite never
stops at a fault: whatever its statements stop at is mended.
-/

namespace PineScript.Parser

variable {read : Int → Parser (Mended Stmt)} {indent : Int} {ctx : Context} {ts rest : List Token}

/-- The reader of the statements of a script. -/
abbrev topStatement : Int → Parser (Mended Stmt) :=
  statement (expression nestingLimit) (block nestingLimit)

theorem ownComments_cons (t : Token) (layout : List Token) :
    ownComments (t :: layout) =
      if t.kind == .comment && t.isLineLeading then .comment t.range t.text :: ownComments layout
      else ownComments layout := by
  rw [ownComments, List.filterMap_cons]
  split <;> simp_all [ownComments]

/-- There is no item in front of a lower line. -/
theorem suiteItem_of_lower
    (h : ∀ first more, ts.dropWhile Token.isLayout = first :: more → indentOf indent first < indent) :
    suiteItem read indent ctx ts = .ok none ts := by
  unfold suiteItem
  split
  · rfl
  · rw [if_pos (h _ _ ‹_›)]

/-- An item is what is made of its first line. -/
theorem suiteItem_of_first {first : Token} {more : List Token}
    (hdrop : ts.dropWhile Token.isLayout = first :: more) (hindent : indent ≤ indentOf indent first) :
    suiteItem read indent ctx ts =
      .ok (some ⟨ownComments (ts.takeWhile Token.isLayout) ++
          [(attempt read indent ctx first more).1.value], (attempt read indent ctx first more).1.faults⟩)
        (if (attempt read indent ctx first more).2.length ≤ more.length
          then (attempt read indent ctx first more).2 else more) := by
  unfold suiteItem
  split
  · rename_i hnil
    rw [hnil] at hdrop
    cases hdrop
  · rename_i heq
    rw [heq] at hdrop
    obtain ⟨rfl, rfl⟩ := List.cons.inj hdrop
    rw [if_neg (Int.not_lt.2 hindent)]

/-- An item is read behind layout, which may hold comments of its own. -/
theorem suiteItem_behind {first : Token} {layout more : List Token}
    (hlayout : ∀ t ∈ layout, t.isLayout = true) (hcode : first.isLayout = false)
    (hindent : indent ≤ indentOf indent first)
    (hshort : (attempt read indent ctx first more).2.length ≤ more.length) :
    suiteItem read indent ctx (layout ++ first :: more) =
      .ok (some ⟨ownComments layout ++ [(attempt read indent ctx first more).1.value],
          (attempt read indent ctx first more).1.faults⟩)
        (attempt read indent ctx first more).2 := by
  have hdrop : (layout ++ first :: more).dropWhile Token.isLayout = first :: more := by
    rw [List.dropWhile_append_of_pos hlayout, List.dropWhile_cons_of_neg (by simp [hcode])]
  have htake : (layout ++ first :: more).takeWhile Token.isLayout = layout := by
    rw [List.takeWhile_append_of_pos hlayout, List.takeWhile_cons_of_neg (by simp [hcode]),
      List.append_nil]
  rw [suiteItem_of_first hdrop hindent, htake, if_pos hshort]

/-- A statement of the suite's indentation behind line breaks is the next item. -/
theorem suiteItem_of_statement {layout more : List Token} {first : Token} {s : Mended Stmt}
    (hlayout : ∀ t ∈ layout, t.kind = .newline) (hcode : first.isLayout = false)
    (hindent : first.indent = some indent)
    (hread : read indent ⟨ctx.finish, false, none⟩ (first :: more) = .ok s rest)
    (hlen : rest.length ≤ more.length) :
    suiteItem read indent ctx (layout ++ first :: more) =
      .ok (some ⟨[s.value], s.faults⟩) rest := by
  have hall : ∀ t ∈ layout, t.isLayout = true := fun t ht => by
    simp [Token.isLayout, hlayout t ht, TokenKind.isLayout]
  have hown : ownComments layout = [] := by
    simp only [ownComments, List.filterMap_eq_nil_iff]
    intro t ht
    simp [hlayout t ht]
  have hat : indentOf indent first = indent := by simp [indentOf, hindent]
  have hattempt : attempt read indent ctx first more = (s, rest) := by simp [attempt, hat, hread]
  rw [suiteItem_behind hall hcode (Int.le_of_eq hat.symm) (by rwa [hattempt]), hattempt, hown]
  rfl

theorem exists_first_of_item {item : Mended (List Stmt)}
    (h : suiteItem read indent ctx ts = .ok (some item) rest) :
    ∃ first more, ts.dropWhile Token.isLayout = first :: more ∧ indent ≤ indentOf indent first := by
  unfold suiteItem at h
  split at h
  · cases h
  · split at h
    · cases h
    · exact ⟨_, _, ‹_›, Int.not_lt.1 ‹_›⟩

theorem suiteItem_length {item : Mended (List Stmt)}
    (h : suiteItem read indent ctx ts = .ok (some item) rest) : rest.length < ts.length := by
  obtain ⟨first, more, hdrop, hindent⟩ := exists_first_of_item h
  have hle : (first :: more).length ≤ ts.length := hdrop ▸ length_dropWhile_le _ ts
  rw [List.length_cons] at hle
  rw [suiteItem_of_first hdrop hindent] at h
  injection h with _ hrest
  rw [← hrest]
  split <;> omega

/-- A line break in front of an item makes no difference. -/
theorem suiteItem_of_break {b : Token} {item : Mended (List Stmt)} (hb : b.kind = .newline)
    (h : suiteItem read indent ctx (b :: ts) = .ok (some item) rest) :
    suiteItem read indent ctx ts = .ok (some item) rest := by
  have hlayout : b.isLayout = true := by simp [Token.isLayout, hb, TokenKind.isLayout]
  have hown : ∀ layout, ownComments (b :: layout) = ownComments layout := by
    intro layout
    simp [ownComments_cons, hb]
  obtain ⟨first, more, hdrop, hindent⟩ := exists_first_of_item h
  rw [suiteItem_of_first hdrop hindent, List.takeWhile_cons_of_pos hlayout, hown] at h
  rw [List.dropWhile_cons_of_pos hlayout] at hdrop
  rw [suiteItem_of_first hdrop hindent, h]

theorem suite_of_items {items : List (Mended (List Stmt))}
    (h : Items (suiteItem read indent) ctx ts items rest) :
    suite read indent ctx ts =
      .ok ⟨items.flatMap (·.value), items.flatMap (·.faults)⟩ rest := by
  simp [suite, h.collect_eq]

/-- The lines below a header are read with the indentation of the first of them. -/
theorem indented_of_first {header : Int} {body : Int → Token → Parser (Mended Block)} {first : Token}
    {more : List Token} (hend : endOfLine ctx ts = .ok () ts)
    (hdrop : ts.dropWhile Token.isLayout = first :: more) (hindent : first.indent = some indent)
    (hlt : header < indent) : indented header body ctx ts = body indent first ctx ts := by
  refine (bind_apply _ _ ctx ts).trans ?_
  simp [hend, hdrop, indentOf, hindent, Int.not_le.2 hlt]

theorem block_of_suite {n : Nat} {header : Int} {first : Token} {more : List Token}
    {body : Mended (List Stmt)} (hend : endOfLine ctx ts = .ok () ts)
    (hdrop : ts.dropWhile Token.isLayout = first :: more) (hindent : first.indent = some indent)
    (hlt : header < indent)
    (hsuite : suite (statement (expression n) (block n)) indent ctx ts = .ok body rest) :
    block (n + 1) header ctx ts = .ok ⟨blockOf ctx.finish body.value, body.faults⟩ rest := by
  rw [block, indented_of_first hend hdrop hindent hlt]
  refine (bind_apply _ _ ctx ts).trans ?_
  rw [hsuite]

theorem script_of_suite {body : Mended (List Stmt)}
    (h : suite topStatement 0 ctx ts = .ok body rest) :
    script ctx ts =
      .ok ⟨body.value ++ if rest.all Token.isLayout then ownComments rest else [], body.faults⟩
        (if rest.all Token.isLayout then [] else rest) := by
  refine (bind_apply _ _ ctx ts).trans ?_
  rw [h]

theorem parse_of_script {body : Mended (List Stmt)}
    (h : script ⟨finishOf ts, false, none⟩ ts = .ok body rest) :
    Program.parse ts = (⟨⟨.origin, finishOf ts⟩, body.value⟩, body.faults) := by
  simp [Program.parse, h]

/-! ## On any tokens -/

variable {E : Fault → List Token → Prop}

theorem wp_otherwise {nested : Parser Expr} {block : Int → Parser (Mended Block)}
    {Q : Mended Otherwise → List Token → Prop} (indent : Int) :
    wp (otherwise nested block indent) ctx ts Q E ↔
      wp (otherwiseFor nested block indent (ctx.endToken :: ts)) ctx ts Q E := by
  rw [wp, wp, otherwise]

@[simp] theorem blockOf_statements (finish : Position) (statements : List Stmt) :
    (blockOf finish statements).statements = statements := by
  unfold blockOf
  split <;> rfl

theorem wp_suiteItem {Q : Option (Mended (List Stmt)) → List Token → Prop} (hnone : Q none ts)
    (hsome : ∀ first more, ts.dropWhile Token.isLayout = first :: more →
      indent ≤ indentOf indent first →
      Q (some ⟨ownComments (ts.takeWhile Token.isLayout) ++
          [(attempt read indent ctx first more).1.value], (attempt read indent ctx first more).1.faults⟩)
        (if (attempt read indent ctx first more).2.length ≤ more.length
          then (attempt read indent ctx first more).2 else more)) :
    wp (suiteItem read indent) ctx ts Q E := by
  rcases hdrop : ts.dropWhile Token.isLayout with _ | ⟨first, more⟩
  · exact (wp_of_ok (by simp [suiteItem, hdrop])).2 hnone
  · by_cases hindent : indent ≤ indentOf indent first
    · exact (wp_of_ok (suiteItem_of_first hdrop hindent)).2 (hsome first more hdrop hindent)
    · exact (wp_of_ok (by simp [suiteItem, hdrop, Int.not_le.1 hindent])).2 hnone

/-- A line that is indented deeper and a statement that stops at a fault become malformed. -/
theorem attempt_cases {P : Mended Stmt → List Token → Prop} {first : Token} {more : List Token}
    (hdeeper : P ⟨.malformed (codeRange first (consumed (first :: more) (resync indent (first :: more))))
      .indentation, [⟨.indentation, first.range⟩]⟩ (resync indent (first :: more)))
    (hread : wp (read indent) { ctx with bracketed := false, margin := none } (first :: more) P
      fun fault stopped =>
        P ⟨.malformed (codeRange first (consumed (first :: more) (resync indent stopped))) fault.cause,
          [fault]⟩ (resync indent stopped)) :
    P (attempt read indent ctx first more).1 (attempt read indent ctx first more).2 := by
  by_cases hdeep : indent < indentOf indent first
  · simpa [attempt, hdeep, recover] using hdeeper
  · cases hrun : read indent { ctx with bracketed := false, margin := none } (first :: more) with
    | ok s rest => simpa [attempt, hdeep, hrun] using (wp_of_ok hrun).1 hread
    | fault fault stopped =>
      simpa [attempt, hdeep, hrun, recover] using (wp_of_fault hrun).1 hread

theorem wp_endOfLine {Q : Unit → List Token → Prop} (hend : Q () ts)
    (hfault : ∀ cause, E ⟨cause, (ctx.lookahead 0 ts).range⟩ ts) : wp endOfLine ctx ts Q E := by
  unfold endOfLine atLineEnd
  simp only [wp_bind, wp_peek, wp_pure, wp_ite, wp_unexpected]
  split
  · exact hfault _
  · exact hend

theorem wp_indented {Q : Mended Block → List Token → Prop} {header : Int}
    {body : Int → Token → Parser (Mended Block)}
    (hfault : ∀ cause, E ⟨cause, (ctx.lookahead 0 ts).range⟩ ts)
    (hbody : ∀ first more, ts.dropWhile Token.isLayout = first :: more →
      header < indentOf header first → wp (body (indentOf header first) first) ctx ts Q E) :
    wp (indented header body) ctx ts Q E := by
  refine (wp_bind _ _).2 (wp_endOfLine ?_ hfault)
  rcases hdrop : ts.dropWhile Token.isLayout with _ | ⟨first, more⟩
  · unfold wp
    simp only [hdrop]
    exact hfault _
  · have hfirst := hbody first more hdrop
    unfold wp at hfirst ⊢
    simp only [hdrop]
    by_cases hle : indentOf header first ≤ header
    · rw [if_pos hle]
      exact hfault _
    · rw [if_neg hle]
      exact hfirst (Int.not_le.1 hle)

/-- What holds of the statements of a script and of its faults holds of what `parse` gives. -/
theorem parse_of_wp {Q : List Stmt → List Fault → Prop}
    (h : wp script ⟨finishOf ts, false, none⟩ ts (fun body _ => Q body.value body.faults)
      (fun _ _ => False)) :
    (Program.parse ts).1.range = ⟨.origin, finishOf ts⟩ ∧
      Q (Program.parse ts).1.body (Program.parse ts).2 := by
  unfold wp at h
  split at h
  · rename_i heq
    rw [parse_of_script heq]
    exact ⟨rfl, h⟩
  · exact h.elim

end PineScript.Parser
