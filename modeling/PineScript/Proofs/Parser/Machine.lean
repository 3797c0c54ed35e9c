import PineScript.Proofs.Parser.Reading
import PineScript.Proofs.Parser.Resume

/-!
# Reading with a count of levels

`Parser` hands each reader the levels that are left to it. A machine hands nothing on: it keeps the
blocks and expressions it is in as one count, the open brackets as another, and the margin and the
first fault of a statement beside them, and changes these as it goes. Each reader then has to leave
them as it found them, also when it stops half way.

Main statements: an attempt to read a statement comes back to the count it started with, whether the
statement is read or not, and reads what `Parser` reads with the levels that the count leaves
(`Machine.attempt_eq`). So a machine and `Parser` read the same scripts (`Machine.parse_eq`).
-/

namespace PineScript.Parser

/-! ## Machines -/

structure Machine.State where
  /-- Where the input ends. -/
  finish : Position
  /-- The tokens that are left. -/
  rest : List Token
  /-- How many brackets are open. -/
  nesting : Nat
  /-- How many blocks and expressions are being read. -/
  depth : Nat
  /-- The indentation of the simple statement that is being read. -/
  margin : Option Int
  /-- The first fault of the statement that is being read. -/
  failure : Option Fault

/-- A reader that gives nothing if it stops at a fault. -/
def Machine (α : Type) : Type := Machine.State → Option α × Machine.State

namespace Machine

variable {α β : Type}

def State.context (s : State) : Context := ⟨s.finish, decide (0 < s.nesting), s.margin⟩

protected def pure (a : α) : Machine α := fun s => (some a, s)

protected def bind (M : Machine α) (f : α → Machine β) : Machine β := fun s =>
  match M s with
  | (some a, s') => f a s'
  | (none, s') => (none, s')

/-- Runs a reader that neither opens a bracket nor goes down a level. Only the first fault of a
statement is kept. -/
protected def lift (p : Parser α) : Machine α := fun s =>
  match p s.context s.rest with
  | .ok a rest => (some a, { s with rest })
  | .fault e rest => (none, { s with rest, failure := s.failure.or (some e) })

/-- A bracket that is not closed stays open. -/
protected def bracketed (M : Machine α) : Machine α := fun s =>
  match M { s with nesting := s.nesting + 1 } with
  | (some a, s') => (some a, { s' with nesting := s'.nesting - 1 })
  | (none, s') => (none, s')

/-- Changes the state for a reader, and changes it back behind it, with or without a fault. -/
def enclosed (enter leave : State → State) (M : Machine α) : Machine α := fun s =>
  match M (enter s) with
  | (o, s') => (o, leave s')

protected def withMargin (margin : Int) : Machine α → Machine α :=
  enclosed (fun s => { s with margin := some margin }) fun s => { s with margin := none }

instance : Reading Machine where
  pure := Machine.pure
  bind := Machine.bind
  monadLift := Machine.lift
  bracketed := Machine.bracketed
  withMargin := Machine.withMargin
  bounded f := fun s => f (s.context.endToken :: s.rest) s

/-- Reads one level further down. -/
def descend : Machine α → Machine α :=
  enclosed (fun s => { s with depth := s.depth + 1 }) fun s => { s with depth := s.depth - 1 }

/-- Reads one level further down if the count allows for it. -/
def guarded (tooDeep : Parser α) (M : Machine α) : Machine α := fun s =>
  if nestingLimit ≤ s.depth then Machine.lift tooDeep s else descend M s

/-- The machine's own bound on recursion is `fuel`. It is not met before the limit on the count. -/
def expression : Nat → Machine Expr
  | 0 => Machine.lift (failHere .deepExpression)
  | fuel + 1 => guarded (failHere .deepExpression) (Reading.ternary (expression fuel))

/-- Leaves the lines of a statement that was given up. There is nothing to report if no fault was
kept. -/
def recovered (indent : Int) (first : Token) (start : List Token) : Machine (Mended Stmt) := fun s =>
  match s.failure with
  | none => (none, s)
  | some fault =>
    let (t, rest) := recover indent fault first start s.rest
    (some ⟨t, [fault]⟩, { s with rest, nesting := 0, failure := none })

def attempt (statement : Int → Machine (Mended Stmt)) (indent : Int) (first : Token)
    (more : List Token) : Machine (Mended Stmt) := fun s =>
  let start := first :: more
  if indent < indentOf indent first then
    recovered indent first start
      { s with rest := start, failure := some ⟨.indentation, first.range⟩ }
  else match statement indent { s with rest := start, nesting := 0, failure := none } with
    | (some t, s') => (some t, s')
    | (none, s') => recovered indent first start s'

def suiteItem (statement : Int → Machine (Mended Stmt)) (indent : Int) :
    Machine (Option (Mended (List Stmt))) := fun s =>
  match s.rest.dropWhile Token.isLayout with
  | [] => (some none, s)
  | first :: more =>
    if indentOf indent first < indent then (some none, s)
    else match attempt statement indent first more s with
      | (none, s') => (none, s')
      | (some t, s') =>
        let item := ⟨ownComments (s.rest.takeWhile Token.isLayout) ++ [t.value], t.faults⟩
        (some (some item), { s' with
          rest := if s'.rest.length ≤ more.length then s'.rest else more })

def suite (statement : Int → Machine (Mended Stmt)) (indent : Int) :
    Machine (Mended (List Stmt)) := do
  let items ← Reading.collect (suiteItem statement indent)
  return ⟨items.flatMap (·.value), items.flatMap (·.faults)⟩

def indented (header : Int) (body : Int → Token → Machine (Mended Block)) :
    Machine (Mended Block) := do
  endOfLine
  fun s =>
    match s.rest.dropWhile Token.isLayout with
    | [] => Machine.lift (failHere .missingBlock) s
    | first :: _ =>
      let indent := indentOf header first
      if indent ≤ header then Machine.lift (failHere .missingBlock) s else body indent first s

def block : Nat → Int → Machine (Mended Block)
  | 0, header => indented header fun _ first => Machine.lift (fail .deepBlocks first.range)
  | fuel + 1, header => indented header fun indent first =>
    guarded (fail .deepBlocks first.range) do
      let body ← suite (Reading.statement (expression fuel) (block fuel)) indent
      fun s => (some ⟨blockOf s.finish body.value, body.faults⟩, s)

def statement (fuel : Nat) : Int → Machine (Mended Stmt) :=
  Reading.statement (expression fuel) (block fuel)

def script : Machine (Mended (List Stmt)) := do
  let body ← suite (statement nestingLimit) 0
  fun s =>
    let trailing := if s.rest.all Token.isLayout then ownComments s.rest else []
    (some ⟨body.value ++ trailing, body.faults⟩, { s with
      rest := if s.rest.all Token.isLayout then [] else s.rest })

def parse (ts : List Token) : Option (Program × List Fault) :=
  let finish := finishOf ts
  (script ⟨finish, ts, 0, 0, none, none⟩).1.map fun body =>
    (⟨⟨.origin, finish⟩, body.value⟩, body.faults)

/-! ## Tracking a parser -/

/-- From a state the machine does what the parser does. What it changes is what is left, and at a
fault also the fault that is kept and the brackets that are open. -/
def Tracks (M : Machine α) (p : Parser α) (s : State) : Prop :=
  match p s.context s.rest with
  | .ok a rest => M s = (some a, { s with rest })
  | .fault e rest => ∃ nesting, M s = (none, { s with rest, nesting, failure := some e })

variable {M : Machine α} {p : Parser α} {s : State} {depth : Nat}

theorem tracks_of_ok {a : α} {rest : List Token} (h : p s.context s.rest = .ok a rest) :
    Tracks M p s ↔ M s = (some a, { s with rest }) := by
  unfold Tracks
  rw [h]

theorem tracks_of_fault {e : Fault} {rest : List Token} (h : p s.context s.rest = .fault e rest) :
    Tracks M p s ↔ ∃ nesting, M s = (none, { s with rest, nesting, failure := some e }) := by
  unfold Tracks
  rw [h]

namespace Tracks

theorem congr {M' : Machine α} (h : M s = M' s) (hM : Tracks M' p s) : Tracks M p s := by
  unfold Tracks at hM ⊢
  rwa [h]

theorem bind {f : α → Machine β} {g : α → Parser β} (hp : Tracks M p s)
    (hf : ∀ a rest, Tracks (f a) (g a) { s with rest }) : Tracks (M >>= f) (p >>= g) s := by
  have hbind : (M >>= f) s = Machine.bind M f s := rfl
  cases h : p s.context s.rest with
  | ok a rest =>
    have hM := (tracks_of_ok h).1 hp
    have hnext := hf a rest
    unfold Tracks at hnext ⊢
    rw [hbind, Machine.bind, hM, bind_apply, h]
    exact hnext
  | fault e rest =>
    obtain ⟨nesting, hM⟩ := (tracks_of_fault h).1 hp
    refine (tracks_of_fault (by rw [bind_apply, h])).2 ⟨nesting, ?_⟩
    rw [hbind, Machine.bind, hM]

theorem lift (p : Parser α) (h : s.failure = none) : Tracks (Machine.lift p) p s := by
  unfold Tracks Machine.lift
  cases p s.context s.rest with
  | ok a rest => rfl
  | fault e rest => exact ⟨s.nesting, by rw [h]; rfl⟩

theorem bracketed (h : Tracks M p { s with nesting := s.nesting + 1 }) :
    Tracks (Machine.bracketed M) (Parser.bracketed p) s := by
  have hcontext : ({ s with nesting := s.nesting + 1 } : State).context =
      { s.context with bracketed := true } := by
    simp [State.context]
  unfold Tracks at h ⊢
  rw [hcontext] at h
  unfold Parser.bracketed Machine.bracketed
  cases hp : p { s.context with bracketed := true } s.rest with
  | ok a rest =>
    rw [hp] at h
    rw [h]
    rfl
  | fault e rest =>
    rw [hp] at h
    obtain ⟨nesting, hM⟩ := h
    exact ⟨nesting, by rw [hM]⟩

theorem enclosed {enter leave : State → State} {q : Parser α} (h : Tracks M p (enter s))
    (hq : p (enter s).context (enter s).rest = q s.context s.rest)
    (hok : ∀ rest, leave { enter s with rest } = { s with rest })
    (hfault : ∀ rest nesting failure,
      leave { enter s with rest, nesting, failure } = { s with rest, nesting, failure }) :
    Tracks (enclosed enter leave M) q s := by
  unfold Tracks at h ⊢
  unfold Machine.enclosed
  rw [hq] at h
  cases hreply : q s.context s.rest with
  | ok a rest =>
    rw [hreply] at h
    rw [h]
    exact congrArg _ (hok rest)
  | fault e rest =>
    rw [hreply] at h
    obtain ⟨nesting, hM⟩ := h
    rw [hM]
    exact ⟨nesting, congrArg _ (hfault rest nesting (some e))⟩

theorem withMargin {margin : Int} (h : Tracks M p { s with margin := some margin })
    (hmargin : s.margin = none) :
    Tracks (Machine.withMargin margin M) (Parser.withMargin margin p) s :=
  h.enclosed rfl (fun _ => by rw [hmargin]) fun _ _ _ => by rw [hmargin]

/-- The count comes back, with or without a fault. -/
theorem descend (h : Tracks M p { s with depth := s.depth + 1 }) : Tracks (descend M) p s :=
  h.enclosed rfl (fun _ => rfl) fun _ _ _ => rfl

end Tracks

/-- A state in which a reader is started: no fault is kept. -/
structure Ready (depth : Nat) (s : State) : Prop where
  failure : s.failure = none
  depth_eq : s.depth = depth

/-- A state in which a statement is started: no bracket is open and no simple statement is being
read. -/
structure AtStatement (depth : Nat) (s : State) : Prop extends Ready depth s where
  nesting : s.nesting = 0
  margin : s.margin = none

theorem congruence {P : State → Prop} (hfailure : ∀ s, P s → s.failure = none)
    (hrest : ∀ s rest, P s → P { s with rest }) :
    Reading.Congruence fun α (M : Machine α) (p : Parser α) => ∀ s, P s → Tracks M p s where
  pure _ _ _ := rfl
  bind hp hf s hs := (hp s hs).bind fun a rest => hf a _ (hrest s rest hs)
  map _ _ _ hp s hs := (hp s hs).bind fun _ _ => rfl
  discard hp s hs := (hp s hs).bind fun _ _ => rfl
  lift _ s hs := .lift _ (hfailure s hs)

theorem paced {P : State → Prop} :
    Reading.Paced fun α (M : Machine α) (p : Parser α) => ∀ s, P s → Tracks M p s where
  bounded hf s hs := hf _ s hs
  spent _ _ _ := rfl

/-- Machines that are in so many levels track parsers. -/
def simulation (depth : Nat) : Reading.Simulation Machine Parser where
  -- An expression is read in brackets or out of them. A statement is not, and it finds no margin:
  -- what sets one takes it back, and could not restore another.
  inner _ M p := ∀ s, Ready depth s → Tracks M p s
  outer _ M p := ∀ s, AtStatement depth s → Tracks M p s
  within := congruence (fun _ hs => hs.failure) fun _ _ hs => ⟨hs.failure, hs.depth_eq⟩
  around := congruence (fun _ hs => hs.failure) fun _ _ hs =>
    ⟨⟨hs.failure, hs.depth_eq⟩, hs.nesting, hs.margin⟩
  bracketed hp _ hs := .bracketed (hp _ ⟨hs.failure, hs.depth_eq⟩)
  withMargin _ _ _ hp _ hs := .withMargin (hp _ ⟨hs.failure, hs.depth_eq⟩) hs.margin
  weaken hp s hs := hp s hs.toReady

theorem lockstep (depth : Nat) : Reading.Lockstep (simulation depth) := ⟨paced, paced⟩

theorem Tracks.tooDeep {tooDeep : Parser α} (hs : s.failure = none) (h : nestingLimit ≤ s.depth) :
    Tracks (guarded tooDeep M) tooDeep s :=
  .congr (if_pos h) (.lift tooDeep hs)

theorem Tracks.guarded {tooDeep : Parser α} (h : s.depth < nestingLimit)
    (hM : Tracks M p { s with depth := s.depth + 1 }) : Tracks (guarded tooDeep M) p s :=
  .congr (if_neg (Nat.not_le.2 h)) (.descend hM)

/-- Where the fuel lasts to the limit, an expression has the levels that the count leaves. -/
theorem expression_tracks (fuel depth : Nat) (h : nestingLimit ≤ depth + fuel) :
    (simulation depth).inner _ (expression fuel) (Parser.expression (nestingLimit - depth)) := by
  induction fuel generalizing depth with
  | zero =>
    rw [Nat.sub_eq_zero_of_le (by omega)]
    exact fun s hs => .lift _ hs.failure
  | succ fuel ih =>
    rintro s ⟨hs, rfl⟩
    -- While the count is below the limit, both have one level less for what is nested.
    rcases Nat.lt_or_ge s.depth nestingLimit with hdepth | hdepth
    · refine .guarded hdepth ?_
      rw [← Nat.sub_add_cancel (Nat.sub_pos_of_lt hdepth), Nat.sub_sub, Parser.expression,
        ← Reading.ternary_eq]
      exact (lockstep (s.depth + 1)).ternary (ih _ (by omega)) _ ⟨hs, rfl⟩
    · rw [Nat.sub_eq_zero_of_le hdepth]
      exact .tooDeep hs hdepth

/-! ## Suites, blocks and scripts -/

section

variable {read : Int → Machine (Mended Stmt)} {read' : Int → Parser (Mended Stmt)}
  (hread : ∀ indent, (simulation depth).outer _ (read indent) (read' indent))
include hread

/-- Whatever the brackets and the fault that were left open, an attempt starts afresh, and it leaves
none. -/
theorem attempt_tracks (indent : Int) (first : Token) (more : List Token)
    (hdepth : s.depth = depth) (hmargin : s.margin = none) :
    attempt read indent first more s =
      (some (Parser.attempt read' indent s.context first more).1, { s with
        rest := (Parser.attempt read' indent s.context first more).2
        nesting := 0
        failure := none }) := by
  unfold attempt Parser.attempt
  dsimp only
  split
  · rfl
  -- The brackets and the fault of what was read before are dropped. The margin is not, so it has to
  -- be none.
  have hstatement := hread indent { s with rest := first :: more, nesting := 0, failure := none }
    ⟨⟨rfl, hdepth⟩, rfl, hmargin⟩
  have hcontext : ({ s with rest := first :: more, nesting := 0, failure := none } : State).context =
      { s.context with bracketed := false, margin := none } := by
    simp [State.context, hmargin]
  unfold Tracks at hstatement
  rw [hcontext] at hstatement
  dsimp only at hstatement
  cases hreply : read' indent { s.context with bracketed := false, margin := none }
      (first :: more) with
  | ok t rest =>
    rw [hreply] at hstatement
    rw [hstatement]
  | fault e rest =>
    rw [hreply] at hstatement
    obtain ⟨nesting, hM⟩ := hstatement
    rw [hM]
    rfl

theorem suiteItem_tracks (indent : Int) :
    (simulation depth).outer _ (suiteItem read indent) (Parser.suiteItem read' indent) := by
  intro s hs
  unfold Tracks suiteItem Parser.suiteItem
  cases s.rest.dropWhile Token.isLayout with
  | nil => rfl
  | cons first more =>
    dsimp only
    by_cases hindent : indentOf indent first < indent
    · rw [if_pos hindent, if_pos hindent]
    · rw [if_neg hindent, if_neg hindent,
        attempt_tracks hread indent first more hs.depth_eq hs.margin, ← hs.nesting, ← hs.failure]

theorem suite_tracks (indent : Int) :
    (simulation depth).outer _ (suite read indent) (Parser.suite read' indent) := by
  unfold suite Parser.suite
  rw [← Reading.collect_eq]
  have hitems := paced.collect (simulation depth).around (suiteItem_tracks hread indent)
  exact (simulation depth).around.bind hitems fun items => (simulation depth).around.pure _

end

theorem indented_tracks {body : Int → Token → Machine (Mended Block)}
    {body' : Int → Token → Parser (Mended Block)}
    (hbody : ∀ indent first, (simulation depth).outer _ (body indent first) (body' indent first))
    (header : Int) : (simulation depth).outer _ (indented header body) (Parser.indented header body') := by
  refine (simulation depth).around.then_ .endOfLine fun _ s hs => ?_
  have hmissing := Tracks.lift (failHere .missingBlock : Parser (Mended Block)) hs.failure
  unfold Tracks at hmissing ⊢
  dsimp only
  cases s.rest.dropWhile Token.isLayout with
  | nil => exact hmissing
  | cons first more =>
    dsimp only
    by_cases hindent : indentOf header first ≤ header
    · rw [if_pos hindent, if_pos hindent]
      exact hmissing
    · rw [if_neg hindent, if_neg hindent]
      exact hbody _ first s hs

/-- Where the fuel lasts to the limit, a block has the levels that the count leaves. -/
theorem block_tracks (fuel depth : Nat) (h : nestingLimit ≤ depth + fuel) (header : Int) :
    (simulation depth).outer _ (block fuel header)
      (Parser.block (nestingLimit - depth) header) := by
  induction fuel generalizing depth header with
  | zero =>
    rw [Nat.sub_eq_zero_of_le (by omega)]
    exact indented_tracks (fun _ _ => (simulation depth).around.lift (.fail _ _)) header
  | succ fuel ih =>
    rcases Nat.lt_or_ge depth nestingLimit with hdepth | hdepth
    · have hbelow : nestingLimit ≤ depth + 1 + fuel := by omega
      rw [← Nat.sub_add_cancel (Nat.sub_pos_of_lt hdepth), Nat.sub_sub]
      refine indented_tracks (fun indent first s hs => ?_) header
      obtain rfl := hs.depth_eq
      refine .guarded hdepth ?_
      -- The suite is started as the header was, but for the count.
      have hstatement := (lockstep (s.depth + 1)).statement (expression_tracks fuel _ hbelow)
        (ih _ hbelow)
      simp only [Reading.statement_eq] at hstatement
      have hs' : AtStatement (s.depth + 1) { s with depth := s.depth + 1 } :=
        ⟨⟨hs.failure, rfl⟩, hs.nesting, hs.margin⟩
      exact (suite_tracks hstatement indent _ hs').bind fun _ _ => rfl
    · rw [Nat.sub_eq_zero_of_le hdepth]
      refine indented_tracks (fun indent first s hs => ?_) header
      exact .tooDeep hs.failure (hs.depth_eq ▸ hdepth)

theorem statement_tracks (fuel depth : Nat) (h : nestingLimit ≤ depth + fuel) (indent : Int) :
    (simulation depth).outer _ (statement fuel indent)
      (Parser.statement (Parser.expression (nestingLimit - depth))
        (Parser.block (nestingLimit - depth)) indent) := by
  rw [← Reading.statement_eq]
  exact (lockstep depth).statement (expression_tracks fuel depth h) (block_tracks fuel depth h)
    indent

/-- Whatever the brackets and the fault that were left open, an attempt reads with the levels that
the count leaves, and comes back to that count. -/
theorem attempt_eq {s : State} {indent : Int} {first : Token} {more rest : List Token}
    {t : Mended Stmt} (hmargin : s.margin = none)
    (h : Parser.attempt (Parser.statement (Parser.expression (nestingLimit - s.depth))
      (Parser.block (nestingLimit - s.depth))) indent s.context first more = (t, rest)) :
    attempt (statement nestingLimit) indent first more s =
      (some t, { s with rest, nesting := 0, failure := none }) := by
  have hstatement := statement_tracks nestingLimit s.depth (Nat.le_add_left _ _)
  rw [attempt_tracks hstatement indent first more rfl hmargin, h]

/-- The machine never comes to an end without a result. -/
theorem parse_eq (ts : List Token) : parse ts = some (Program.parse ts) := by
  obtain ⟨items, rest, hitems⟩ := exists_items topStatement 0 ⟨finishOf ts, false, none⟩ ts
  have hscript := script_of_suite (suite_of_items hitems)
  have hstatement := statement_tracks nestingLimit 0 (Nat.le_add_left _ _)
  have htracks : Tracks script Parser.script ⟨finishOf ts, ts, 0, 0, none, none⟩ :=
    (suite_tracks hstatement 0 _ ⟨⟨rfl, rfl⟩, rfl, rfl⟩).bind fun _ _ => rfl
  unfold parse
  dsimp only
  rw [(tracks_of_ok hscript).1 htracks, parse_of_script hscript]
  rfl

end Machine

end PineScript.Parser
