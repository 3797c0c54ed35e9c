import PineScript.Diagnostic
import PineScript.Proofs.Parser.Discipline

/-!
# Suites that go forward by themselves

An attempt to read a statement always comes to something and takes the token that it begins with. So
a suite goes forward by itself, and the suite of a block has a statement.

Main statements: in every state, each reader follows the rules of the machine
(`Machine.readers_disciplined`). What would be needed if one did not is never needed
(`Machine.fallbacks_unreachable`).
-/

namespace PineScript.Parser.Machine

variable {α : Type} {M N : Machine α} {s : State} {b : Bool}

/-! ## Suites -/

/-- Where a statement of a suite ends: behind the token that it begins with, and ready for the next
one. -/
structure Resumes (more : List Token) (s s' : State) : Prop where
  rest : s'.rest <:+ more
  depth : s'.depth = s.depth
  nesting : s'.nesting = 0
  margin : s.margin = none → s'.margin = none

section

variable {read read' : Int → Machine (Mended Stmt)}
  (hread : ∀ indent, Agrees true _ (read indent) (read' indent))
  (hshort : ∀ indent s, Shortens (read indent) s) {indent : Int} {first : Token} {more : List Token}
include hread

/-- An attempt starts the statement where no bracket is open. -/
theorem attempt_agrees (indent : Int) (first : Token) (more : List Token) (h : s.margin = none) :
    attempt read' indent first more s = attempt read indent first more s := by
  have hsame := (hread indent).same { s with rest := first :: more, nesting := 0, failure := none }
    fun _ => ⟨rfl, h⟩
  unfold attempt
  dsimp only
  rw [hsame]

include hshort

/-- An attempt always comes to something: where the statement is given up, a fault was kept. -/
theorem attempt_returns (hcode : first.isLayout = false) (indent : Int) (s : State) :
    ∃ t s', attempt read indent first more s = (some t, s') ∧ Resumes more s s' := by
  have hrecovered {s' : State} (hrest : s'.rest <:+ first :: more) (hfailure : s'.failure ≠ none)
      (hdepth : s'.depth = s.depth) (hmargin : s.margin = none → s'.margin = none) :
      ∃ t s'', recovered indent first (first :: more) s' = (some t, s'') ∧ Resumes more s s'' := by
    obtain ⟨fault, hfault⟩ := Option.ne_none_iff_exists'.1 hfailure
    unfold recovered
    rw [hfault]
    exact ⟨_, _, rfl, resync_behind hcode hrest, hdepth, rfl, hmargin⟩
  unfold attempt
  dsimp only
  split
  -- A line that is indented too deep is a fault in itself.
  · exact hrecovered (List.suffix_refl _) (Option.some_ne_none _) rfl id
  · have hreturns := (hread indent).disciplined
      { s with rest := first :: more, nesting := 0, failure := none }
    have hless := hshort indent { s with rest := first :: more, nesting := 0, failure := none }
    unfold Shortens at hless
    generalize read indent _ = r at hreturns hless
    have hmargin (h : s.margin = none) : r.2.margin = none := (hreturns.margin fun _ => h).trans h
    obtain ⟨_ | t, s'⟩ := r
    · exact hrecovered hreturns.suffix (hreturns.failure rfl) hreturns.depth hmargin
    · refine ⟨t, s', rfl, ?_, hreturns.depth, hreturns.nesting rfl fun _ => rfl, hmargin⟩
      -- What is left is shorter than `first :: more`, so it is a part of `more`.
      refine (List.suffix_cons_iff.1 hreturns.suffix).resolve_left fun heq => ?_
      exact absurd (hless rfl) (by rw [heq]; exact Nat.lt_irrefl _)

/-- A line that is indented as the suite is, or deeper, gives it a statement. -/
theorem suiteItem_of_first (hdrop : s.rest.dropWhile Token.isLayout = first :: more)
    (hindent : indent ≤ indentOf indent first) :
    ∃ item s', suiteItem read indent s = (some (some item), s') ∧ item.value ≠ [] ∧
      Resumes more s s' := by
  obtain ⟨t, s', hattempt, hresumes⟩ :=
    @attempt_returns _ _ hread hshort first more (Token.isLayout_of_dropWhile hdrop) indent s
  unfold suiteItem
  rw [hdrop]
  dsimp only
  rw [if_neg (Int.not_lt.2 hindent), hattempt]
  dsimp only
  rw [if_pos hresumes.rest.length_le]
  exact ⟨_, _, rfl, by simp, hresumes⟩

theorem suiteItem_cases (indent : Int) (s : State) :
    suiteItem read indent s = (some none, s) ∨
      ∃ more item s', more <:+ s.rest ∧ suiteItem read indent s = (some (some item), s') ∧
        Resumes more s s' := by
  cases hdrop : s.rest.dropWhile Token.isLayout with
  | nil =>
    unfold suiteItem
    rw [hdrop]
    exact .inl rfl
  | cons first more =>
    by_cases hindent : indentOf indent first < indent
    · unfold suiteItem
      rw [hdrop]
      exact .inl (if_pos hindent)
    · obtain ⟨item, s', hitem, -, hresumes⟩ :=
        suiteItem_of_first hread hshort hdrop (Int.not_lt.1 hindent)
      have hmore : more <:+ s.rest :=
        (List.suffix_cons first more).trans (hdrop ▸ List.dropWhile_suffix _)
      exact .inr ⟨more, item, s', hmore, hitem, hresumes⟩

theorem suiteItem_agrees (indent : Int) :
    Agrees true _ (suiteItem read indent) (suiteItem read' indent) := by
  refine ⟨fun s => ?_, fun s hs => ?_⟩
  · rcases suiteItem_cases hread hshort indent s with hend | ⟨more, item, s', hmore, hitem, h⟩
    · rw [hend]
      exact ⟨List.suffix_refl _, rfl, fun _ _ => rfl, fun _ => rfl, by simp⟩
    · rw [hitem]
      exact ⟨h.rest.trans hmore, h.depth, fun _ hzero => h.nesting.trans (hzero rfl).symm,
        fun hnone => (h.margin (hnone rfl)).trans (hnone rfl).symm, by simp⟩
  · unfold suiteItem
    simp only [attempt_agrees hread _ _ _ (hs rfl).2]

theorem suite_agrees (indent : Int) : Agrees true _ (suite read indent) (suite read' indent) :=
  .bind ((Agrees.paced true).collect (Agrees.congruence true)
    (suiteItem_agrees hread hshort indent)) fun _ => .refl (.pure _)

/-- Each round of a suite comes to something, so all of them do. -/
theorem exists_collectFor (indent : Int) (bound : List Token) (s : State) :
    ∃ items s', Reading.collectFor (suiteItem read indent) bound s = (some items, s') ∧
      s'.rest <:+ s.rest := by
  induction bound generalizing s with
  | nil => exact ⟨[], s, rfl, List.suffix_refl _⟩
  | cons _ bound ih =>
    rcases suiteItem_cases hread hshort indent s with hend | ⟨more, item, s', hmore, hitem, h⟩
    · exact ⟨[], s, bind_of_some hend, List.suffix_refl _⟩
    · obtain ⟨items, s'', hitems, hrest⟩ := ih s'
      exact ⟨item :: items, s'', (bind_of_some hitem).trans (bind_of_some hitems),
        hrest.trans (h.rest.trans hmore)⟩

/-- A suite that begins with a line of its indentation has a statement. -/
theorem suite_of_first (hdrop : s.rest.dropWhile Token.isLayout = first :: more)
    (hindent : indent ≤ indentOf indent first) :
    ∃ body s', suite read indent s = (some body, s') ∧ body.value ≠ [] ∧
      s'.rest.length < s.rest.length := by
  obtain ⟨item, s', hitem, hvalue, hresumes⟩ := suiteItem_of_first hread hshort hdrop hindent
  obtain ⟨items, s'', hitems, hrest⟩ := exists_collectFor hread hshort indent s.rest s'
  have hcollect : Reading.collect (suiteItem read indent) s = (some (item :: items), s'') :=
    (bind_of_some hitem).trans (bind_of_some hitems)
  have hfirst : first :: more <:+ s.rest := hdrop ▸ List.dropWhile_suffix _
  refine ⟨_, s'', bind_of_some hcollect, by simp [hvalue], ?_⟩
  exact Nat.lt_of_le_of_lt (hrest.trans hresumes.rest).length_le hfirst.length_le

end

/-! ## Blocks -/

theorem indented_agrees {body body' : Int → Token → Machine (Mended Block)}
    (h : ∀ indent first, Agrees true _ (body indent first) (body' indent first)) (header : Int) :
    Agrees true _ (indented header body) (indented header body') := by
  refine (Agrees.congruence true).then_ .endOfLine fun _ => ⟨fun s => ?_, fun s hs => ?_⟩
  all_goals dsimp only
  all_goals split
  · exact Disciplined.lift (.failHere _) s
  · split
    · exact Disciplined.lift (.failHere _) s
    · exact (h _ _).disciplined s
  · rfl
  · split
    · rfl
    · exact (h _ _).same s hs

theorem indented_shortens {header : Int} {body : Int → Token → Machine (Mended Block)}
    (h : ∀ s first more, s.rest.dropWhile Token.isLayout = first :: more →
      header < indentOf header first → Shortens (body (indentOf header first) first) s)
    (s : State) : Shortens (indented header body) s := by
  have hmissing (s : State) :
      Shortens (Machine.lift (failHere .missingBlock : Parser (Mended Block))) s :=
    .lift fun _ _ h => by cases h
  refine .after (b := true) (.lift .endOfLine) fun _ s' => ?_
  unfold Shortens
  dsimp only
  split
  · exact hmissing s'
  · rename_i hdrop
    split
    · exact hmissing s'
    · exact h s' _ _ hdrop (Int.not_le.1 ‹_›)

/-- What blocks and statements would do if they were started where a bracket is open or a margin is
set. -/
structure Reaction where
  block : Int → Machine (Mended Block)
  statement : Int → Machine (Mended Stmt)

def started (stray M : Machine α) : Machine α := fun s =>
  if s.nesting = 0 ∧ s.margin = none then M s else stray s

theorem Agrees.started (h : Agrees true α M N) (stray : Machine α) :
    Agrees true α M (started stray N) :=
  ⟨h.disciplined, fun s hs => (if_pos (hs rfl)).trans (h.same s hs)⟩

namespace Reaction

def blocks (r : Reaction) : Nat → Int → Machine (Mended Block)
  | 0, header => started (r.block header) <|
    indented header fun _ first => Machine.lift (fail .deepBlocks first.range)
  | fuel + 1, header => started (r.block header) <| indented header fun indent first =>
    guarded (fail .deepBlocks first.range) do
      let body ← suite (fun indent => started (r.statement indent)
        (Reading.statement (expression fuel) (r.blocks fuel) indent)) indent
      fun s => (some ⟨blockOf s.finish body.value, body.faults⟩, s)

def statements (r : Reaction) (fuel : Nat) (indent : Int) : Machine (Mended Stmt) :=
  started (r.statement indent) (Reading.statement (expression fuel) (r.blocks fuel) indent)

end Reaction

theorem Agrees.guarded {tooDeep : Parser α} (hdeep : Onward tooDeep) (h : Agrees b α M N) :
    Agrees b α (guarded tooDeep M) (guarded tooDeep N) := by
  refine ⟨h.disciplined.guarded hdeep, fun s hs => ?_⟩
  have hsame := h.same { s with depth := s.depth + 1 } hs
  unfold Machine.guarded
  split
  · rfl
  · rw [descend, enclosed, hsame]
    rfl

theorem block_agrees (r : Reaction) (fuel : Nat) (header : Int) :
    Agrees true _ (block fuel header) (r.blocks fuel header) := by
  induction fuel generalizing header with
  | zero => exact (indented_agrees (fun _ _ => .refl (.lift (.fail _ _))) header).started _
  | succ fuel ih =>
    -- Statements agree as their blocks do, and they take what they begin with whatever these do.
    have hexpr := expression_disciplined fuel
    have hread (indent : Int) := (Agrees.lockstep.statement (Agrees.refl hexpr) ih indent).started
      (r.statement indent)
    have hshort := statement_shortens hexpr (fun header => (ih header).disciplined)
    refine (indented_agrees (fun indent first => ?_) header).started _
    have hsuite := suite_agrees hread (hshort · (expression_shortens fuel)) indent
    exact .guarded (.fail _ _) (hsuite.bind fun body => .refl .of_done)

theorem statement_agrees (r : Reaction) (fuel : Nat) (indent : Int) :
    Agrees true _ (statement fuel indent) (r.statements fuel indent) :=
  (Agrees.lockstep.statement (Agrees.refl (expression_disciplined fuel)) (block_agrees r fuel)
    indent).started _

/-! ## Every reader -/

/-- A reader that comes back as it has to, and takes a token where it gives something. -/
structure Proper (b : Bool) (M : Machine α) : Prop where
  disciplined : Disciplined b M
  shortens : ∀ s, Shortens M s

instance : Inhabited Reaction := ⟨⟨block 0, statement 0⟩⟩

theorem statement_proper (fuel : Nat) (indent : Int) : Proper true (statement fuel indent) := by
  have hblock (header : Int) := (block_agrees default fuel header).disciplined
  refine ⟨(statement_agrees default fuel indent).disciplined, fun s => ?_⟩
  exact statement_shortens (expression_disciplined fuel) hblock indent (expression_shortens fuel) s

theorem block_proper (fuel : Nat) (header : Int) : Proper true (block fuel header) := by
  refine ⟨(block_agrees default fuel header).disciplined, ?_⟩
  cases fuel with
  | zero => exact indented_shortens fun s _ _ _ _ => .lift fun _ _ h => by cases h
  | succ fuel =>
    -- The line that makes the block deeper than its header is the first one of the suite.
    refine indented_shortens fun s first more hdrop hdeeper => ?_
    have hread (indent : Int) := (statement_proper fuel indent).shortens
    obtain ⟨body, s', hsuite, -, hlt⟩ := @suite_of_first { s with depth := s.depth + 1 } _ _
      (statement_agrees default fuel) hread _ first more hdrop
      (Int.le_of_eq (indentOf_of_lt hdeeper).symm)
    have hshort : Shortens (suite (statement fuel) (indentOf header first))
        { s with depth := s.depth + 1 } := by
      rw [Shortens, hsuite]
      exact fun _ => hlt
    exact .guarded (fun _ _ _ _ h => by cases h) (hshort.bind (b := true) fun body => .of_done)

/-- Whatever the state, every reader comes back as it has to, and takes a token where it gives
something. Blocks and statements are started where no bracket is open and no margin is set: whatever
they would do elsewhere, a suite reads the same. -/
theorem readers_disciplined (fuel : Nat) :
    Proper false (expression fuel) ∧
    Proper false (Reading.ternary (expression fuel)) ∧
    (∀ levels, Proper false (Reading.operations (expression fuel) levels)) ∧
    Proper false (Reading.signed (expression fuel)) ∧
    Proper false (Reading.suffixed (expression fuel)) ∧
    Proper false (Reading.primary (expression fuel)) ∧
    (∀ indent, Proper true (statement fuel indent)) ∧
    (∀ header, Proper true (block fuel header)) ∧
    (∀ indent, Disciplined true (suite (statement fuel) indent)) ∧
    (∀ (r : Reaction) indent s, s.nesting = 0 → s.margin = none →
      suite (r.statements fuel) indent s = suite (statement fuel) indent s) ∧
    ∀ ts, parse ts = some (Program.parse ts) := by
  have hnested := expression_disciplined fuel
  have hexpr := Agrees.refl hnested
  have hsuite (r : Reaction) := suite_agrees (statement_agrees r fuel)
    fun indent => (statement_proper fuel indent).shortens
  refine ⟨⟨hnested, expression_shortens fuel⟩, ⟨?_, ternary_shortens hnested⟩,
    fun levels => ⟨?_, operations_shortens hnested levels⟩, ⟨?_, signed_shortens hnested⟩,
    ⟨?_, suffixed_shortens hnested⟩, ⟨?_, primary_shortens hnested⟩, statement_proper fuel,
    block_proper fuel, fun indent => (hsuite default indent).disciplined, ?_, parse_eq⟩
  · exact (Agrees.lockstep.ternary hexpr).disciplined
  · exact (Agrees.lockstep.operations hexpr levels).disciplined
  · exact (Agrees.lockstep.signed hexpr).disciplined
  · exact (Agrees.lockstep.suffixed hexpr).disciplined
  · exact (Agrees.simulation.primary hexpr).disciplined
  · exact fun r indent s hnesting hmargin => (hsuite r indent).same s fun _ => ⟨hnesting, hmargin⟩

/-! ## What there is no need to fall back on -/

/-- No message begins as the one that a fault without a cause would have. -/
theorem head?_message (cause : Fault.Cause) : cause.message.toList.head? ≠ some 'I' := by
  have happend {a : String} (b : String) (h : a.toList.head? = some 'U') :
      (a ++ b).toList.head? = some 'U' := by
    rw [String.toList_append, List.head?_append, h]
    rfl
  have hend (text : String) :
      s!"Unexpected end of input; expected {text}".toList.head? = some 'U' :=
    happend _ (by decide +kernel)
  have hline (text : String) :
      s!"Unexpected end of line; expected {text}".toList.head? = some 'U' :=
    happend _ (by decide +kernel)
  have hchar (text : String) : s!"Unexpected character `{text}`".toList.head? = some 'U' :=
    happend _ (happend _ (by decide +kernel))
  have htoken (text wanted : String) :
      s!"Unexpected `{text}`; expected {wanted}".toList.head? = some 'U' :=
    happend _ (happend _ (happend _ (by decide +kernel)))
  have hne {text : String} (h : text.toList.head? = some 'U') : text.toList.head? ≠ some 'I' := by
    rw [h]
    decide
  cases cause with
  | unexpected kind text wanted =>
    refine hne ?_
    cases kind with
    | unknown =>
      change (ite (Fault.opensQuote text = true) "Unterminated string literal" _).toList.head? = _
      split
      · decide +kernel
      · exact hchar text
    | eof => exact hend wanted.text
    | newline => exact hline wanted.text
    | _ => exact htoken text wanted.text
  | _ => decide +kernel

/-- A statement that is not read leaves a fault, so each attempt comes to something and no message
has to be made up. The token that an attempt begins with is taken without help. The suite of a block
has a statement. -/
theorem fallbacks_unreachable (fuel : Nat) (indent : Int) (s : State) :
    ((statement fuel indent s).1 = none → (statement fuel indent s).2.failure ≠ none) ∧
    (∀ first more, s.rest.dropWhile Token.isLayout = first :: more →
      (∃ t s', attempt (statement fuel) indent first more s = (some t, s') ∧ s'.rest <:+ more) ∧
      (indent < indentOf indent first → ∃ body s',
        suite (statement fuel) (indentOf indent first) s = (some body, s') ∧ body.value ≠ [])) ∧
    ∀ ts, parse ts = some (Program.parse ts) ∧
      (∀ fault ∈ (Program.parse ts).2, fault.diagnostic.message ≠ "Invalid syntax") ∧
      ∀ x ∈ (Program.parse ts).1.malformed, x.2.message ≠ "Invalid syntax" := by
  have hmessage (cause : Fault.Cause) : cause.message ≠ "Invalid syntax" := fun h =>
    head?_message cause (h ▸ by decide +kernel)
  have hread := statement_agrees default fuel
  have hshort (indent : Int) := (statement_proper fuel indent).shortens
  refine ⟨((hread indent).disciplined s).failure, fun first more hdrop => ⟨?_, fun hdeeper => ?_⟩,
    fun ts => ⟨parse_eq ts, fun fault _ => hmessage fault.cause, fun x _ => hmessage x.2⟩⟩
  · obtain ⟨t, s', hattempt, hresumes⟩ := @attempt_returns _ _ hread hshort first more
      (Token.isLayout_of_dropWhile hdrop) indent s
    exact ⟨t, s', hattempt, hresumes.rest⟩
  · obtain ⟨body, s', hsuite, hbody, -⟩ := suite_of_first hread hshort hdrop
      (Int.le_of_eq (indentOf_of_lt hdeeper).symm)
    exact ⟨body, s', hsuite, hbody⟩

end PineScript.Parser.Machine
