import PineScript.Proofs.Parser.Joined
import PineScript.Proofs.Parser.Limited

/-!
# Reading comes to an end

Suites and scripts as plain recursion under a limit, as in `Limited.expression`. Main statement: on
any tokens whatever, a script is read within a limit that depends on their number only, and read to
the last of them (`Program.parse_halts`). There is one exception. A script ends before a line that
is indented less than its statements, and so before one whose indentation is negative; scanning
gives no such line.
-/

namespace PineScript

namespace Parser

namespace Limited

variable {limit : Nat}

/-! ## Suites and scripts -/

def resync (indent : Int) : Nat → List Token → Option (List Token)
  | 0, _ => none
  | limit + 1, ts =>
    match (skipLine ts).dropWhile Token.isLayout with
    | [] => some (skipLine ts)
    | t :: more =>
      if indentOf indent t ≤ indent then some (skipLine ts) else resync indent limit more

def recover (limit : Nat) (indent : Int) (fault : Fault) (first : Token)
    (start stopped : List Token) : Option (Mended Stmt × List Token) := do
  let resumed ← resync indent limit stopped
  return (⟨.malformed (codeRange first (consumed start resumed)) fault.cause, [fault]⟩, resumed)

def attempt (read : Int → Limited limit (Mended Stmt)) (indent : Int) (ctx : Context)
    (first : Token) (more : List Token) : Option (Mended Stmt × List Token) :=
  let start := first :: more
  if indent < indentOf indent first then
    recover limit indent ⟨.indentation, first.range⟩ first start start
  else match read indent { ctx with bracketed := false, margin := none } start with
    | some (.ok s rest) => some (s, rest)
    | some (.fault fault stopped) => recover limit indent fault first start stopped
    | none => none

/-- The next statement of a suite. If nothing was taken for it, its first token is passed over. -/
def suiteItem (read : Int → Limited limit (Mended Stmt)) (indent : Int) :
    Limited limit (Option (Mended (List Stmt))) := fun ctx ts =>
  match ts.dropWhile Token.isLayout with
  | [] => some (.ok none ts)
  | first :: more =>
    if indentOf indent first < indent then some (.ok none ts)
    else do
      let (s, rest) ← attempt read indent ctx first more
      let item := ⟨ownComments (ts.takeWhile Token.isLayout) ++ [s.value], s.faults⟩
      return .ok (some item) (if rest.length = more.length + 1 then more else rest)

def suite (read : Int → Limited limit (Mended Stmt)) (indent : Int) :
    Limited limit (Mended (List Stmt)) := do
  let items ← Reading.collect (suiteItem read indent)
  return ⟨items.flatMap (·.value), items.flatMap (·.faults)⟩

def indented (header : Int) (body : Int → Token → Limited limit (Mended Block)) :
    Limited limit (Mended Block) := do
  endOfLine
  fun ctx ts =>
    match ts.dropWhile Token.isLayout with
    | [] => some (failHere .missingBlock ctx ts)
    | first :: _ =>
      let indent := indentOf header first
      if indent ≤ header then some (failHere .missingBlock ctx ts) else body indent first ctx ts

/-- Reads a block below so many expressions and blocks, within so many calls. -/
def block : Nat → Nat → Int → Limited limit (Mended Block)
  | 0, _, _ => giveUp
  | calls + 1, depth, header => indented header fun indent first =>
    if nestingLimit ≤ depth then Limited.lift (fail .deepBlocks first.range)
    else do
      let below := depth + 1
      let body ← suite (Reading.statement (expression calls below) (block calls below)) indent
      fun ctx ts => some (.ok ⟨blockOf ctx.finish body.value, body.faults⟩ ts)

/-- Reads a script with so many calls, and as many rounds of each loop. -/
def script (limit : Nat) : Limited limit (Mended (List Stmt)) := do
  let body ← suite (Reading.statement (expression limit 0) (block limit 0)) 0
  fun _ ts =>
    let trailing := if ts.all Token.isLayout then ownComments ts else []
    some (.ok ⟨body.value ++ trailing, body.faults⟩ (if ts.all Token.isLayout then [] else ts))

/-! ## Statements that are read within a limit -/

variable {size : Nat}

section

variable {nested : Limited limit Expr} {nested' : Parser Expr}
  {block : Int → Limited limit (Mended Block)} {block' : Int → Parser (Mended Block)}
  (hnested : Settles size _ nested nested')
  (hblock : ∀ header, Settles size _ (block header) (block' header))
include hnested hblock

/-- Every further branch of a chain is behind an `else` that is taken. -/
theorem otherwiseFor_settles (indent : Int) (bound bound' : List Token)
    (hbound : size < bound.length) (hbound' : size < bound'.length) :
    Settles size _ (Reading.otherwiseFor nested block indent bound)
      (Reading.otherwiseFor nested' block' indent bound') := by
  induction bound generalizing size bound' with
  | nil => exact absurd hbound (Nat.not_lt_zero _)
  | cons _ bound ih =>
    obtain ⟨t, bound', rfl⟩ := List.exists_cons_of_length_pos (Nat.zero_lt_of_lt hbound')
    rw [List.length_cons] at hbound hbound'
    refine .bindRest ((simulation limit size).around.lift (.takeElse indent)) ?_
    intro ctx ts took rest hts hrest hrun
    cases took with
    | false => exact .pure _
    | true =>
      -- Behind the `else` there are fewer tokens, so the rest of the chain needs less.
      have hlt := takeElse_length hrun
      have hsmall : rest.length ≤ size := by omega
      have hexpr := hnested.mono hsmall
      have hbody := fun header => (hblock header).mono hsmall
      exact (simulation limit rest.length).behindElse hexpr hbody indent
        (ih hexpr hbody bound' (by omega) (by omega))

theorem otherwise_settles (indent : Int) (hlimit : size < limit) :
    Settles size _ (Reading.bounded (Reading.otherwiseFor nested block indent))
      (Reading.bounded (Reading.otherwiseFor nested' block' indent)) :=
  .bounded hlimit fun bound bound' hsmall => otherwiseFor_settles (hnested.mono hsmall)
    (fun header => (hblock header).mono hsmall) indent bound bound'

theorem statement_settles (htakes : Takes nested') (hlimit : size < limit) (indent : Int) :
    Settles size _ (Reading.statement nested block indent)
      (Parser.statement nested' block' indent) := by
  have hword := (simulation limit size).within.lift .parameterWord
  have hwords := Settles.collect hword (fun _ _ _ _ h => parameterWord_takes.short h) hlimit
  have hparameter := (simulation limit size).parameter hnested hwords
  rw [Reading.parameter_eq] at hparameter
  rw [← Reading.statement_eq]
  refine (simulation limit size).statement hnested hblock ?_ indent
    (otherwise_settles hnested hblock indent hlimit)
  rw [Reading.parameter_eq]
  exact listItems_settles hlimit hparameter (parameter_takes htakes)

end

/-! ## Suites and scripts that are read within a limit -/

/-- The next line that is passed over begins behind the ones before it. -/
theorem resync_eq_some (indent : Int) {ts : List Token} (hlimit : ts.length < limit) :
    resync indent limit ts = some (Parser.resync indent ts) := by
  induction limit generalizing ts with
  | zero => exact absurd hlimit (Nat.not_lt_zero _)
  | succ limit ih =>
    rw [resync, Parser.resync_eq]
    cases hdrop : (skipLine ts).dropWhile Token.isLayout with
    | nil => rfl
    | cons t more =>
      have hline := length_dropWhile_le (·.kind != .newline) ts
      have hcode := length_dropWhile_le Token.isLayout (skipLine ts)
      rw [hdrop, List.length_cons] at hcode
      have hmore : more.length < limit := by
        unfold skipLine at hcode
        omega
      simp only
      split
      · rfl
      · exact ih hmore

theorem resync_onward (indent : Int) (ts : List Token) : Parser.resync indent ts <:+ ts :=
  (resync_suffix indent ts).trans (List.dropWhile_suffix _)

theorem recover_eq_some (indent : Int) (fault : Fault) (first : Token) (start : List Token)
    {stopped : List Token} (hlimit : stopped.length < limit) :
    recover limit indent fault first start stopped =
      some (⟨(Parser.recover indent fault first start stopped).1, [fault]⟩,
        (Parser.recover indent fault first start stopped).2) := by
  simp only [recover, resync_eq_some indent hlimit]
  rfl

section

variable {read : Int → Limited limit (Mended Stmt)} {read' : Int → Parser (Mended Stmt)}
  (hread : ∀ indent, Settles size _ (read indent) (read' indent)) (hlimit : size < limit)
include hread hlimit

theorem attempt_eq_some (indent : Int) (ctx : Context) (first : Token) {more : List Token}
    (hsize : more.length < size) :
    attempt read indent ctx first more = some (Parser.attempt read' indent ctx first more) ∧
      (Parser.attempt read' indent ctx first more).2 <:+ first :: more := by
  unfold attempt Parser.attempt
  split
  · have hstart : (first :: more).length < limit := Nat.lt_of_le_of_lt hsize hlimit
    simp only [recover_eq_some _ _ _ _ hstart, true_and]
    exact resync_onward indent (first :: more)
  · obtain ⟨hrun, hrest⟩ :=
      hread indent { ctx with bracketed := false, margin := none } (first :: more) hsize
    simp only [hrun]
    cases hreply : read' indent { ctx with bracketed := false, margin := none } (first :: more) with
    | ok s rest =>
      rw [hreply] at hrest
      exact ⟨rfl, hrest⟩
    | fault fault stopped =>
      rw [hreply] at hrest
      have hstopped : stopped.length < limit :=
        Nat.lt_of_le_of_lt (Nat.le_trans hrest.length_le hsize) hlimit
      simp only [recover_eq_some indent fault first (first :: more) hstopped, true_and]
      exact (resync_onward indent stopped).trans hrest

/-- A statement either takes a token or leaves as many as there were. -/
theorem suiteItem_settles (indent : Int) :
    Settles size _ (suiteItem read indent) (Parser.suiteItem read' indent) := by
  intro ctx ts hsize
  unfold suiteItem Parser.suiteItem
  have hcode : ts.dropWhile Token.isLayout <:+ ts := List.dropWhile_suffix _
  cases hdrop : ts.dropWhile Token.isLayout with
  | nil => exact ⟨rfl, List.suffix_refl ts⟩
  | cons first more =>
    rw [hdrop] at hcode
    simp only
    split
    · exact ⟨rfl, List.suffix_refl ts⟩
    · obtain ⟨hrun, hrest⟩ := attempt_eq_some hread hlimit indent ctx first
        (Nat.lt_of_lt_of_le hcode.length_le hsize)
      rw [hrun]
      cases hattempt : Parser.attempt read' indent ctx first more with
      | mk s rest =>
        rw [hattempt] at hrest
        have hle : rest.length ≤ more.length + 1 := hrest.length_le
        have hguard : (if rest.length = more.length + 1 then more else rest) =
            if rest.length ≤ more.length then rest else more := by
          grind
        refine ⟨?_, ?_⟩
        · rw [← hguard]
          rfl
        · change (if rest.length ≤ more.length then rest else more) <:+ ts
          split
          · exact hrest.trans hcode
          · exact (List.suffix_cons first more).trans hcode

theorem suite_settles (indent : Int) :
    Settles size _ (suite read indent) (Parser.suite read' indent) := by
  unfold suite Parser.suite
  rw [← Reading.collect_eq]
  refine .bind (.collect (suiteItem_settles hread hlimit indent) ?_ hlimit) fun items => .pure _
  exact fun _ _ _ _ h => suiteItem_length h

end

theorem indented_settles (header : Int) {body : Int → Token → Limited limit (Mended Block)}
    {body' : Int → Token → Parser (Mended Block)}
    (hbody : ∀ indent first, Settles size _ (body indent first) (body' indent first)) :
    Settles size _ (indented header body) (Parser.indented header body') := by
  refine (simulation limit size).around.then_ .endOfLine fun _ ctx ts hsize => ?_
  cases ts.dropWhile Token.isLayout with
  | nil => exact ⟨rfl, Onward.failHere _ ctx ts⟩
  | cons first more =>
    simp only
    split
    · exact ⟨rfl, Onward.failHere _ ctx ts⟩
    · exact hbody _ first ctx ts hsize

/-- A block is read within a limit above the number of tokens, and calls above the levels that are
left. -/
theorem block_settles (n : Nat) {depth calls : Nat} (hdepth : depth + n = nestingLimit)
    (hlimit : size < limit) (hcalls : n < calls) (header : Int) :
    Settles size _ (block calls depth header : Limited limit (Mended Block))
      (Parser.block n header) := by
  induction n generalizing calls depth header with
  | zero =>
    obtain ⟨calls, rfl⟩ : ∃ k, calls = k + 1 := ⟨calls - 1, by omega⟩
    rw [block, Parser.block]
    refine indented_settles header fun indent first => ?_
    rw [if_pos (by omega)]
    exact (simulation limit size).around.lift (.fail _ _)
  | succ n ih =>
    obtain ⟨calls, rfl⟩ : ∃ k, calls = k + 1 := ⟨calls - 1, by omega⟩
    have hbelow : depth + 1 + n = nestingLimit := by omega
    have hcalls : n < calls := by omega
    have hexpr := expression_settles n hbelow hlimit hcalls
    have hblock := ih hbelow hcalls
    rw [block, Parser.block]
    refine indented_settles header fun indent first => ?_
    rw [if_neg (by omega)]
    refine .bind (suite_settles (statement_settles hexpr hblock (expression_takes n) hlimit) hlimit
      indent) fun body => ?_
    exact fun ctx ts _ => ⟨rfl, List.suffix_refl ts⟩

theorem script_settles (hlimit : size + nestingLimit < limit) :
    Settles size _ (script limit) Parser.script := by
  have hsize : size < limit := Nat.lt_of_le_of_lt (Nat.le_add_right _ _) hlimit
  have hcalls : nestingLimit < limit := Nat.lt_of_le_of_lt (Nat.le_add_left _ _) hlimit
  have hexpr := expression_settles nestingLimit (Nat.zero_add _) hsize hcalls
  have hblock := block_settles nestingLimit (Nat.zero_add _) hsize hcalls
  refine .bind (suite_settles (statement_settles hexpr hblock (expression_takes nestingLimit) hsize)
    hsize 0) fun body ctx ts _ => ⟨rfl, ?_⟩
  change (if ts.all Token.isLayout then [] else ts) <:+ ts
  split
  · exact List.nil_suffix
  · exact List.suffix_refl ts

end Limited

/-! ## The end of a script -/

variable {ctx : Context} {ts : List Token}

/-- The next line of code is indented less than the statements of a script. -/
def Outdented (ts : List Token) : Prop :=
  ∃ first more indent, ts.dropWhile Token.isLayout = first :: more ∧ first.indent = some indent ∧
    indent < 0

theorem layout_or_outdented_of_end (h : suiteItem topStatement 0 ctx ts = .ok none ts) :
    ts.all Token.isLayout = true ∨ Outdented ts := by
  cases hdrop : ts.dropWhile Token.isLayout with
  | nil => exact .inl (List.all_eq_true.2 (List.dropWhile_eq_nil_iff.1 hdrop))
  | cons first more =>
    by_cases hless : indentOf 0 first < 0
    · cases hindent : first.indent with
      | none => simp [indentOf, hindent] at hless
      | some indent =>
        rw [indentOf, hindent] at hless
        exact .inr ⟨first, more, indent, hdrop, hindent, hless⟩
    · rw [suiteItem_of_first hdrop (Int.not_lt.1 hless)] at h
      cases h

/-- The statements of a script come to an end where there is no further one. -/
theorem exists_items_to_end (ctx : Context) (ts : List Token) :
    ∃ items rest, Items (suiteItem topStatement 0) ctx ts items rest ∧
      suiteItem topStatement 0 ctx rest = .ok none rest := by
  induction ts using suite_induction topStatement 0 ctx with
  | hend ts hnone => exact ⟨[], ts, .stop hnone, hnone⟩
  | hitem ts item rest hsome ih =>
    obtain ⟨items, left, hitems, hend⟩ := ih
    exact ⟨item :: items, left, .item hsome (suiteItem_length hsome) hitems, hend⟩

theorem script_ends (ctx : Context) (ts : List Token) :
    ∃ body rest, script ctx ts = .ok body rest ∧ (rest = [] ∨ Outdented rest) := by
  obtain ⟨items, rest, hitems, hend⟩ := exists_items_to_end ctx ts
  refine ⟨_, _, script_of_suite (suite_of_items hitems), ?_⟩
  split
  · exact .inl rfl
  · rename_i hcode
    exact (layout_or_outdented_of_end hend).imp (fun hlayout => absurd hlayout hcode) id

end Parser

open PineScript.Parser

/-- Whatever the tokens, a limit above their number and the levels of nesting is not reached, however
far above. What is read is the script, and it is read to its last token or to a line whose
indentation is negative. -/
theorem Program.parse_halts (ts : List Token) (extra : Nat) :
    ∃ body rest,
      Limited.script (ts.length + nestingLimit + 1 + extra) ⟨finishOf ts, false, none⟩ ts =
        some (.ok body rest) ∧
      Program.parse ts = (⟨⟨.origin, finishOf ts⟩, body.value⟩, body.faults) ∧
      rest <:+ ts ∧ (rest = [] ∨ Outdented rest) := by
  obtain ⟨body, rest, hscript, hend⟩ := script_ends ⟨finishOf ts, false, none⟩ ts
  have hlimit : ts.length + nestingLimit < ts.length + nestingLimit + 1 + extra := by omega
  obtain ⟨hrun, hrest⟩ :=
    Limited.script_settles hlimit ⟨finishOf ts, false, none⟩ ts (Nat.le_refl _)
  rw [hscript] at hrun hrest
  exact ⟨body, rest, hrun, parse_of_script hscript, hrest, hend⟩

/-- A line whose indentation is negative is left. -/
theorem Program.parse_leaves_outdented :
    (script ⟨⟨0, 1⟩, false, none⟩ [⟨.identifier, "x", ⟨⟨0, 0⟩, ⟨0, 1⟩⟩, some (-1)⟩]).rest ≠ [] := by
  decide

end PineScript
