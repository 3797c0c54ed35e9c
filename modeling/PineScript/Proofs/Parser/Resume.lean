import Mathlib.Data.List.TakeWhile
import Mathlib.Logic.ExistsUnique
import PineScript.Proofs.Places

/-!
# Resuming at a statement

Main statement: reading a script from any of its statements on gives the same statements and faults
from there on as reading the whole script, whatever was mended before, and no code stands outside
the statements (`parse_resumes`).
-/

namespace PineScript

namespace Lexer

/-! ## Indentations -/

theorem indent_of_mem_markFirst {indent : Nat} {ts : List Token} (hts : ∀ t ∈ ts, t.indent = none)
    {t : Token} (h : t ∈ markFirst indent ts) :
    t.indent = none ∨ ∃ n : Nat, t.indent = some (n : Int) := by
  cases ts with
  | nil => cases h
  | cons u ts =>
    rcases List.mem_cons.1 h with rfl | h
    · exact .inr ⟨indent, rfl⟩
    · exact .inl (hts t (List.mem_cons_of_mem u h))

theorem indent_of_mem_documentTokens {number : Nat} {lines : List (List Char)} {t : Token}
    (h : t ∈ documentTokens number lines) :
    t.indent = none ∨ ∃ n : Nat, t.indent = some (n : Int) := by
  obtain ⟨i, line, closed, -, ht⟩ := exists_line_of_mem_documentTokens h
  exact indent_of_mem_markFirst (fun _ => indent_of_closed) ht

end Lexer

/-- No line is indented less than the statements of a script. -/
theorem indentOf_nonneg_of_mem_tokenize {source : String} {t : Token} (h : t ∈ tokenize source) :
    0 ≤ Parser.indentOf 0 t := by
  unfold Parser.indentOf
  rcases Lexer.indent_of_mem_documentTokens h with hnone | ⟨n, hsome⟩
  · rw [hnone]
    exact Int.le_refl 0
  · rw [hsome]
    exact Int.natCast_nonneg n

namespace Parser

/-! ## Statements are no comments -/

section

variable (nested : Parser Expr) (block : Int → Parser (Mended Block))

theorem statement_isComment (indent : Int) :
    Yields (statement nested block indent) fun m => m.value.isComment = false := by
  refine .after fun t => .ite ?_ (.ite ?_ (.ite ?_ (.ite (fun _ _ => trivial) (.after fun _ =>
    .ite ?_ ?_))))
  · exact .after fun _ => .after fun _ => .pure rfl
  · refine .after fun _ => .after fun _ => .after fun _ => .ite ?_ (.ite ?_ (.fault _))
    · refine .after fun _ => .after fun _ => .after fun _ => .after fun _ => .after fun _ => ?_
      refine .ite ?_ ?_
      all_goals exact .after fun _ => .after fun _ => .pure rfl
    · exact .after fun _ => .after fun _ => .after fun _ => .pure rfl
  · exact .after fun _ => .after fun _ => .after fun _ => .pure rfl
  · refine .after fun _ => .after fun _ => .after fun _ => .after fun _ => .after fun _ => ?_
    refine .ite ?_ ?_
    · exact .after fun _ => .pure rfl
    · exact .after fun _ => .after fun _ => .pure rfl
  · exact .bind (simple_yields (.any nested) indent) fun _ hs => .pure hs.isComment

theorem attempt_isComment (indent : Int) (ctx : Context) (first : Token) (more : List Token) :
    (attempt (statement nested block) indent ctx first more).1.value.isComment = false := by
  refine attempt_cases (P := fun m _ => m.value.isComment = false) rfl ?_
  exact wp_mono (statement_isComment nested block indent _ _) (fun _ _ => id) fun _ _ _ => rfl

end

/-- The number of statements, not counting comments. -/
def statementCount (ss : List Stmt) : Nat := (ss.filter (!·.isComment)).length

theorem statementCount_append (front behind : List Stmt) :
    statementCount (front ++ behind) = statementCount front + statementCount behind := by
  simp [statementCount]

theorem statementCount_ownComments (layout : List Token) :
    statementCount (ownComments layout) = 0 := by
  induction layout with
  | nil => rfl
  | cons t layout ih =>
    rw [ownComments_cons]
    split
    · exact ih
    · exact ih

/-! ## The loop of a script -/

variable {ctx : Context} {ts rest : List Token}

/-- The tokens that are left at the start of each statement of a script. -/
def startsFrom (ctx : Context) (ts : List Token) : List (List Token) :=
  match h : suiteItem topStatement 0 ctx ts with
  | .ok (some _) rest =>
    have : rest.length < ts.length := suiteItem_length h
    ts.dropWhile Token.isLayout :: startsFrom ctx rest
  | _ => []
termination_by ts.length

theorem startsFrom_of_item {item : Mended (List Stmt)}
    (h : suiteItem topStatement 0 ctx ts = .ok (some item) rest) :
    startsFrom ctx ts = ts.dropWhile Token.isLayout :: startsFrom ctx rest := by
  rw [startsFrom]
  split
  · rename_i heq
    rw [h] at heq
    cases heq
    rfl
  · rename_i hno
    exact absurd h (hno item rest)

theorem startsFrom_of_end (h : suiteItem topStatement 0 ctx ts = .ok none rest) :
    startsFrom ctx ts = [] := by
  rw [startsFrom]
  split
  · rename_i heq
    rw [h] at heq
    cases heq
  · rfl

/-- What a script reads. -/
def bodyOf (ctx : Context) (ts : List Token) : Mended (List Stmt) :=
  match script ctx ts with
  | .ok body _ => body
  | .fault fault _ => ⟨[], [fault]⟩

theorem parse_eq (ts : List Token) :
    Program.parse ts = (⟨⟨.origin, finishOf ts⟩, (bodyOf ⟨finishOf ts, false, none⟩ ts).value⟩,
      (bodyOf ⟨finishOf ts, false, none⟩ ts).faults) := by
  unfold Program.parse bodyOf
  split <;> simp_all

theorem suiteItem_cases (read : Int → Parser (Mended Stmt)) (indent : Int) (ctx : Context)
    (ts : List Token) : suiteItem read indent ctx ts = .ok none ts ∨
      ∃ item rest, suiteItem read indent ctx ts = .ok (some item) rest := by
  unfold suiteItem
  split
  · exact .inl rfl
  · split
    · exact .inl rfl
    · exact .inr ⟨_, _, rfl⟩

/-- Every round of the loop takes a token, so what each round keeps holds at any place. -/
theorem suite_induction (read : Int → Parser (Mended Stmt)) (indent : Int) (ctx : Context)
    {motive : List Token → Prop}
    (hend : ∀ ts, suiteItem read indent ctx ts = .ok none ts → motive ts)
    (hitem : ∀ ts item rest, suiteItem read indent ctx ts = .ok (some item) rest → motive rest →
      motive ts) (ts : List Token) : motive ts := by
  induction hlen : ts.length using Nat.strongRecOn generalizing ts with
  | ind n ih =>
    rcases suiteItem_cases read indent ctx ts with hnone | ⟨item, rest, hsome⟩
    · exact hend ts hnone
    · exact hitem ts item rest hsome (ih rest.length (hlen ▸ suiteItem_length hsome) rest rfl)

/-- The loop comes to an end, without a fault. -/
theorem exists_items (read : Int → Parser (Mended Stmt)) (indent : Int) (ctx : Context)
    (ts : List Token) : ∃ items rest, Items (suiteItem read indent) ctx ts items rest := by
  induction ts using suite_induction read indent ctx with
  | hend ts hnone => exact ⟨[], ts, .stop hnone⟩
  | hitem ts item rest hsome ih =>
    obtain ⟨items, left, hitems⟩ := ih
    exact ⟨item :: items, left, .item hsome (suiteItem_length hsome) hitems⟩

theorem bodyOf_of_item {item : Mended (List Stmt)}
    (h : suiteItem topStatement 0 ctx ts = .ok (some item) rest) :
    bodyOf ctx ts =
      ⟨item.value ++ (bodyOf ctx rest).value, item.faults ++ (bodyOf ctx rest).faults⟩ := by
  obtain ⟨items, left, hitems⟩ := exists_items topStatement 0 ctx rest
  have hall := Items.item h (suiteItem_length h) hitems
  simp only [bodyOf, script_of_suite (suite_of_items hitems), script_of_suite (suite_of_items hall),
    List.flatMap_cons, List.append_assoc]

theorem bodyOf_of_end (h : suiteItem topStatement 0 ctx ts = .ok none ts) :
    bodyOf ctx ts = ⟨if ts.all Token.isLayout then ownComments ts else [], []⟩ := by
  simp only [bodyOf, script_of_suite (suite_of_items (Items.stop h)), List.flatMap_nil,
    List.nil_append]

/-- The first statement, with the comments above it and without them. -/
theorem exists_statement_of_item {item : Mended (List Stmt)}
    (h : suiteItem topStatement 0 ctx ts = .ok (some item) rest) :
    ∃ s : Stmt, s.isComment = false ∧
      item.value = ownComments (ts.takeWhile Token.isLayout) ++ [s] ∧
      suiteItem topStatement 0 ctx (ts.dropWhile Token.isLayout) =
        .ok (some ⟨[s], item.faults⟩) rest := by
  obtain ⟨first, more, hdrop, hindent⟩ := exists_first_of_item h
  have hcode : first.isLayout = false := Token.isLayout_of_dropWhile hdrop
  have hself : (first :: more).dropWhile Token.isLayout = first :: more :=
    List.dropWhile_cons_of_neg (by simp [hcode])
  have hnone : (first :: more).takeWhile Token.isLayout = [] :=
    List.takeWhile_cons_of_neg (by simp [hcode])
  have hitem : suiteItem topStatement 0 ctx ts = _ := suiteItem_of_first hdrop hindent
  rw [h] at hitem
  injection hitem with hitem hrest
  cases hitem
  refine ⟨_, attempt_isComment _ _ 0 ctx first more, rfl, ?_⟩
  rw [hdrop, suiteItem_of_first hself hindent, hnone, ← hrest]
  rfl

theorem length_startsFrom {start : List Token} (h : start ∈ startsFrom ctx ts) :
    start.length ≤ ts.length := by
  induction ts using suite_induction topStatement 0 ctx with
  | hend ts hend =>
    rw [startsFrom_of_end hend] at h
    cases h
  | hitem ts item rest hitem ih =>
    rw [startsFrom_of_item hitem] at h
    rcases List.mem_cons.1 h with rfl | h
    · exact length_dropWhile_le _ ts
    · exact Nat.le_of_lt (Nat.lt_of_le_of_lt (ih h) (suiteItem_length hitem))

theorem pairwise_startsFrom (ctx : Context) (ts : List Token) :
    (startsFrom ctx ts).Pairwise fun a b => b.length < a.length := by
  induction ts using suite_induction topStatement 0 ctx with
  | hend ts hend =>
    rw [startsFrom_of_end hend]
    exact .nil
  | hitem ts item rest hitem ih =>
    obtain ⟨s, -, -, hstart⟩ := exists_statement_of_item hitem
    rw [startsFrom_of_item hitem]
    refine List.pairwise_cons.2 ⟨fun start h => ?_, ih⟩
    exact Nat.lt_of_le_of_lt (length_startsFrom h) (suiteItem_length hstart)

theorem suffix_of_mem_startsFrom {front start : List Token} (hts : Ahead ctx.finish front ts)
    (h : start ∈ startsFrom ctx ts) : start <:+ ts ∧ start ≠ [] := by
  induction ts using suite_induction topStatement 0 ctx generalizing front with
  | hend ts hend =>
    rw [startsFrom_of_end hend] at h
    cases h
  | hitem ts item rest hitem ih =>
    rw [startsFrom_of_item hitem] at h
    rcases List.mem_cons.1 h with rfl | h
    · obtain ⟨first, more, hdrop, -⟩ := exists_first_of_item hitem
      exact ⟨List.dropWhile_suffix _, by simp [hdrop]⟩
    · have hstatement :=
        statement_mending (expression_places nestingLimit) (block_mending nestingLimit)
      have hmends := (wp_of_ok hitem).1 (suiteItem_mends hstatement hts fun _ _ => True)
      obtain ⟨hsuffix, hne⟩ := ih hmends.ahead h
      exact ⟨hsuffix.trans hmends.ahead.suffix, hne⟩

theorem statementCount_bodyOf (ctx : Context) (ts : List Token) :
    statementCount (bodyOf ctx ts).value = (startsFrom ctx ts).length := by
  induction ts using suite_induction topStatement 0 ctx with
  | hend ts hend =>
    rw [startsFrom_of_end hend, bodyOf_of_end hend]
    split
    · exact statementCount_ownComments ts
    · rfl
  | hitem ts item rest hitem ih =>
    obtain ⟨s, hs, hvalue, -⟩ := exists_statement_of_item hitem
    have hone : statementCount [s] = 1 := by simp [statementCount, hs]
    rw [startsFrom_of_item hitem, bodyOf_of_item hitem, hvalue, statementCount_append,
      statementCount_append, statementCount_ownComments, hone, ih, List.length_cons]
    omega

/-- From the start of a statement on, the same is read as in the whole script. -/
theorem bodyOf_resumes {k : Nat} {start : List Token} (h : (startsFrom ctx ts)[k]? = some start) :
    ∃ front faults first behind,
      (bodyOf ctx ts).value = front ++ first :: behind ∧
      (bodyOf ctx start).value = first :: behind ∧
      first.isComment = false ∧ statementCount front = k ∧
      (bodyOf ctx ts).faults = faults ++ (bodyOf ctx start).faults ∧
      Explains faults (front.map Stmt.node) := by
  induction ts using suite_induction topStatement 0 ctx generalizing k with
  | hend ts hend =>
    rw [startsFrom_of_end hend] at h
    cases h
  | hitem ts item rest hitem ih =>
    obtain ⟨s, hs, hvalue, hstart⟩ := exists_statement_of_item hitem
    rw [startsFrom_of_item hitem] at h
    rw [bodyOf_of_item hitem]
    cases k with
    | zero =>
      obtain rfl : _ = start := Option.some.inj h
      rw [bodyOf_of_item hstart, hvalue]
      refine ⟨_, [], s, (bodyOf ctx rest).value, List.append_assoc .., rfl, hs, ?_, rfl, ?_⟩
      · exact statementCount_ownComments _
      · exact .nil (malformed_ownComments _)
    | succ k =>
      obtain ⟨front, faults, first, behind, hbody, hrest, hfirst, hcount, hfaults, hexplains⟩ :=
        ih h
      have hown := (wp_of_ok hitem).1 (suiteItem_explains (statement_accounts
        (block_accounts nestingLimit)) 0 ctx ts fun _ _ => True)
      refine ⟨item.value ++ front, item.faults ++ faults, first, behind, ?_, hrest, hfirst, ?_,
        ?_, ?_⟩
      · rw [hbody, List.append_assoc]
      · have hone : statementCount [s] = 1 := by simp [statementCount, hs]
        rw [hvalue, statementCount_append, statementCount_append, statementCount_ownComments, hone,
          hcount]
        omega
      · rw [hfaults, List.append_assoc]
      · rw [List.map_append]
        exact Explains.append (by simpa using hown) hexplains

/-! ## Positions of statements -/

/-- The indices of the tokens at which the statements of a script start. -/
def statementStarts (ts : List Token) : List Nat :=
  (startsFrom ⟨finishOf ts, false, none⟩ ts).map fun start => ts.length - start.length

/-- The slice that begins at the `k`-th start reaches to the next one, and the last to the end. -/
def InSlice (starts : List Nat) (i k : Nat) : Prop :=
  ∃ p, starts[k]? = some p ∧ p ≤ i ∧ ∀ next, starts[k + 1]? = some next → i < next

theorem existsUnique_inSlice {starts : List Nat} {i : Nat} (hsorted : starts.Pairwise (· < ·))
    (hfirst : ∃ p, starts.head? = some p ∧ p ≤ i) : ∃! k, InSlice starts i k := by
  induction starts with
  | nil =>
    obtain ⟨p, hp, -⟩ := hfirst
    cases hp
  | cons p more ih =>
    obtain ⟨_, rfl, hle⟩ : ∃ q, q = p ∧ q ≤ i := by simpa [eq_comm] using hfirst
    rw [List.pairwise_cons] at hsorted
    by_cases hnext : ∃ q, more.head? = some q ∧ q ≤ i
    · -- The place is behind the next start, so the first slice ends before it.
      obtain ⟨k, hk, hunique⟩ := ih hsorted.2 hnext
      refine ⟨k + 1, hk, fun j hj => ?_⟩
      cases j with
      | zero =>
        obtain ⟨q, hq, hqi⟩ := hnext
        obtain ⟨_, _, _, hbefore⟩ := hj
        have := hbefore q (by simpa [List.head?_eq_getElem?] using hq)
        omega
      | succ j => exact congrArg (· + 1) (hunique j hj)
    · refine ⟨0, ⟨_, rfl, hle, fun q hq => ?_⟩, fun j hj => ?_⟩
      · by_contra hge
        exact hnext ⟨q, by simpa [List.head?_eq_getElem?] using hq, Nat.le_of_not_lt hge⟩
      · cases j with
        | zero => rfl
        | succ j =>
          obtain ⟨r, hr, hri, -⟩ := hj
          cases more with
          | nil => cases hr
          | cons q more =>
            have hmem : r ∈ q :: more := List.mem_of_getElem? (i := j) hr
            refine absurd ⟨q, rfl, ?_⟩ hnext
            rcases List.mem_cons.1 hmem with rfl | hmem
            · exact hri
            · have hlt := (List.pairwise_cons.1 hsorted.2).1 r hmem
              exact Nat.le_of_lt (Nat.lt_of_lt_of_le hlt hri)

theorem finishOf_of_suffix {start : List Token} (h : start <:+ ts) (hne : start ≠ []) :
    finishOf start = finishOf ts := by
  obtain ⟨front, rfl⟩ := h
  simp only [finishOf, List.getLast?_append_of_ne_nil front hne]

theorem pairwise_statementStarts (ts : List Token) : (statementStarts ts).Pairwise (· < ·) := by
  rw [statementStarts, List.pairwise_map]
  refine (pairwise_startsFrom ⟨finishOf ts, false, none⟩ ts).imp_of_mem ?_
  intro a b ha _ hlt
  have := length_startsFrom ha
  omega

/-- The first statement of a script starts with its first code. -/
theorem head?_statementStarts {source : String} {i : Nat} {t : Token}
    (hi : (tokenize source)[i]? = some t) (hcode : t.isLayout = false) :
    ∃ p, (statementStarts (tokenize source)).head? = some p ∧ p ≤ i := by
  have hmem : t ∈ tokenize source := List.mem_of_getElem? hi
  have hne : (tokenize source).dropWhile Token.isLayout ≠ [] := by
    intro hnil
    rw [List.dropWhile_eq_nil_iff] at hnil
    rw [hnil t hmem] at hcode
    cases hcode
  obtain ⟨first, more, hdrop⟩ := List.exists_cons_of_ne_nil hne
  have hfirst : first ∈ tokenize source :=
    (List.dropWhile_suffix Token.isLayout).subset (hdrop ▸ List.mem_cons_self)
  have hitem : suiteItem topStatement 0 ⟨finishOf (tokenize source), false, none⟩
      (tokenize source) = _ :=
    suiteItem_of_first hdrop (indentOf_nonneg_of_mem_tokenize hfirst)
  refine ⟨((tokenize source).takeWhile Token.isLayout).length, ?_, ?_⟩
  · have hsplit := congrArg List.length
      (List.takeWhile_append_dropWhile (p := Token.isLayout) (l := tokenize source))
    rw [List.length_append] at hsplit
    rw [statementStarts, startsFrom_of_item hitem, List.map_cons, List.head?_cons]
    congr 1
    omega
  · by_contra hlt
    have htake : t ∈ (tokenize source).takeWhile Token.isLayout := by
      rw [← List.takeWhile_append_dropWhile (p := Token.isLayout) (l := tokenize source),
        List.getElem?_append_left (Nat.lt_of_not_le hlt)] at hi
      exact List.mem_of_getElem? hi
    rw [List.mem_takeWhile_imp htake] at hcode
    cases hcode

end Parser

/-- Reading a script from the start of any of its statements on gives that statement and all that
follow in the whole script, with the faults among them, and every code token belongs to exactly
one statement: the tokens from its start to the start of the next. -/
theorem Program.parse_resumes (source : String) :
    (Parser.statementStarts (tokenize source)).Pairwise (· < ·) ∧
    (∀ i t, (tokenize source)[i]? = some t → t.isLayout = false →
      ∃! k, Parser.InSlice (Parser.statementStarts (tokenize source)) i k) ∧
    Parser.statementCount (Program.parse (tokenize source)).1.body =
      (Parser.statementStarts (tokenize source)).length ∧
    ∀ k p, (Parser.statementStarts (tokenize source))[k]? = some p →
      ∃ front faults first behind,
        (Program.parse (tokenize source)).1.body = front ++ first :: behind ∧
        (Program.parse ((tokenize source).drop p)).1.body = first :: behind ∧
        first.isComment = false ∧ Parser.statementCount front = k ∧
        (Program.parse (tokenize source)).2 =
          faults ++ (Program.parse ((tokenize source).drop p)).2 ∧
        Parser.Explains faults (front.map Stmt.node) ∧
        Parser.Explains (Program.parse ((tokenize source).drop p)).2
          ((first :: behind).map Stmt.node) := by
  have hsorted := Parser.pairwise_statementStarts (tokenize source)
  refine ⟨hsorted, fun i t hi hcode => ?_, ?_, fun k p hp => ?_⟩
  · exact Parser.existsUnique_inSlice hsorted (Parser.head?_statementStarts hi hcode)
  · rw [Parser.parse_eq, Parser.statementCount_bodyOf]
    exact (List.length_map _).symm
  · have hahead : Parser.Ahead (finishOf (tokenize source)) (tokenize source) (tokenize source) :=
      ⟨(inOrder_tokenize source).2, List.suffix_refl _⟩
    generalize tokenize source = ts at hp hahead ⊢
    obtain ⟨start, hstart, rfl⟩ : ∃ start,
        (Parser.startsFrom ⟨finishOf ts, false, none⟩ ts)[k]? = some start ∧
          ts.length - start.length = p := by
      simpa [Parser.statementStarts] using hp
    obtain ⟨hsuffix, hne⟩ := Parser.suffix_of_mem_startsFrom hahead (List.mem_of_getElem? hstart)
    obtain ⟨front, faults, first, behind, hbody, hrest, hfirst, hcount, hfaults, hfront⟩ :=
      Parser.bodyOf_resumes hstart
    -- Both readings know of the same end, and that is all they share with what stands before.
    have hresumed : Program.parse start = (⟨⟨.origin, finishOf ts⟩, first :: behind⟩,
        (Parser.bodyOf ⟨finishOf ts, false, none⟩ start).faults) := by
      rw [Parser.parse_eq start, Parser.finishOf_of_suffix hsuffix hne, hrest]
    have hexplains := Parser.parse_explains start
    rw [Program.malformed_eq, hresumed] at hexplains
    rw [← List.suffix_iff_eq_drop.1 hsuffix, hresumed, Parser.parse_eq ts]
    exact ⟨front, faults, first, behind, hbody, rfl, hfirst, hcount, hfaults, hfront, hexplains⟩

end PineScript
