import PineScript.Proofs.Parser.Levels
import PineScript.Proofs.Parser.Machine

/-!
# The limit on nesting

More levels change nothing but what is too deep: a reader with fewer of them does the same, or stops
and says that the nesting is too deep (`Unless`). So a statement that a script holds below some
levels is the one that more levels would give, or it is malformed for its depth.

Main statement: no path in the tree of a script comes to more levels than the limit, what would need
more of them is reported on the statement that it stands in, and reading with a count of levels
comes back to the same count after each statement (`Program.nesting_bounded`).
-/

namespace PineScript

/-- The nesting is deeper than the limit. -/
def Fault.Cause.isDeep : Fault.Cause → Bool
  | .deepBlocks | .deepExpression => true
  | _ => false

/-- The statements that a script or a block lists. -/
def Node.listed : Node → List Stmt
  | program p => p.body
  | block b => b.statements
  | _ => []

namespace Parser

/-! ## More levels -/

/-- The first reader does what the second does, unless the nesting is too deep for it. -/
def Unless (α : Type) (p q : Parser α) : Prop :=
  ∀ ctx ts, p ctx ts = q ctx ts ∨ ∃ e rest, p ctx ts = .fault e rest ∧ e.cause.isDeep = true

namespace Unless

variable {α β : Type} {p q : Parser α}

protected theorem rfl : Unless α p p := fun _ _ => .inl rfl

theorem bind {f g : α → Parser β} (hp : Unless α p q) (hf : ∀ a, Unless β (f a) (g a)) :
    Unless β (p >>= f) (q >>= g) := by
  intro ctx ts
  simp only [bind_apply]
  rcases hp ctx ts with heq | ⟨e, rest, hfault, hdeep⟩
  · rw [heq]
    cases q ctx ts with
    | ok a rest => exact hf a ctx rest
    | fault e rest => exact .inl rfl
  · rw [hfault]
    exact .inr ⟨e, rest, rfl, hdeep⟩

theorem congruence : Reading.Congruence Unless where
  pure _ := .rfl
  bind := .bind
  map _ _ _ hp := hp.bind fun _ => .rfl
  discard hp := hp.bind fun _ => .rfl
  lift _ := .rfl

theorem paced : Reading.Paced Unless where
  bounded hf ctx ts := hf _ ctx ts
  spent _ := .rfl

def simulation : Reading.Simulation Parser Parser where
  inner := Unless
  outer := Unless
  within := congruence
  around := congruence
  bracketed hp ctx ts := hp { ctx with bracketed := true } ts
  withMargin margin _ _ hp ctx ts := hp { ctx with margin := some margin } ts
  weaken := id

theorem lockstep : Reading.Lockstep simulation := ⟨paced, paced⟩

end Unless

theorem expression_unless {n room : Nat} (h : n ≤ room) :
    Unless _ (expression n) (expression room) := by
  induction n generalizing room with
  | zero => exact fun ctx ts => .inr ⟨_, _, rfl, rfl⟩
  | succ n ih =>
    obtain ⟨room, rfl⟩ := Nat.exists_eq_add_of_le' (Nat.zero_lt_of_lt h)
    rw [expression, expression, ← Reading.ternary_eq, ← Reading.ternary_eq]
    exact Unless.lockstep.ternary (ih (Nat.le_of_succ_le_succ h))

theorem block_unless (room : Nat) (header : Int) : Unless _ (block 0 header) (block room header) := by
  cases room with
  | zero => exact .rfl
  | succ room =>
    refine Unless.rfl.bind fun _ ctx ts => ?_
    dsimp only
    cases ts.dropWhile Token.isLayout with
    | nil => exact .inl rfl
    | cons first more =>
      dsimp only
      split
      · exact .inl rfl
      · exact .inr ⟨_, _, rfl, rfl⟩

/-- Reads a statement below which `n` levels are left, as if it had room for its own expressions,
and for its own block if there is no level left for that. -/
def roomier (n room : Nat) : Int → Parser (Mended Stmt) :=
  statement (expression room) (if n = 0 then block room else block n)

theorem statement_unless {n room : Nat} (h : n ≤ room) (indent : Int) :
    Unless _ (statement (expression n) (block n) indent) (roomier n room indent) := by
  unfold roomier
  rw [← Reading.statement_eq, ← Reading.statement_eq]
  -- A block that has a level of its own is the same both ways. What is too deep in it is said of a
  -- statement of the block.
  refine Unless.lockstep.statement (expression_unless h) (fun header => ?_) indent
  split
  · rename_i hn
    rw [hn]
    exact block_unless room header
  · exact .rfl

theorem attempt_unless {read read' : Int → Parser (Mended Stmt)} {indent : Int}
    (h : Unless _ (read indent) (read' indent)) (ctx : Context) (first : Token) (more : List Token) :
    attempt read indent ctx first more = attempt read' indent ctx first more ∨
      ∃ range fault, fault.cause.isDeep = true ∧
        (attempt read indent ctx first more).1 = ⟨.malformed range fault.cause, [fault]⟩ := by
  unfold attempt
  dsimp only
  split
  · exact .inl rfl
  rcases h { ctx with bracketed := false, margin := none } (first :: more) with
    heq | ⟨e, rest, hfault, hdeep⟩
  · rw [heq]
    exact .inl rfl
  · rw [hfault]
    exact .inr ⟨_, e, hdeep, rfl⟩

end Parser

/-! ## Scripts -/

namespace Program

open PineScript.Parser

variable {ts : List Token} {levels : Nat} {m : Node}

theorem levels_le (h : Path (parse ts).1.node levels m) : levels ≤ nestingLimit := by
  cases h with
  | here => exact Nat.zero_le _
  | down hedge hpath =>
    obtain ⟨top, htop, rfl⟩ := List.mem_map.1 hedge
    exact ((parse_fits ts top htop).2 _ m hpath).1

/-- What a script lists below some levels was read with the others. -/
theorem origin_of_listed (h : Path (parse ts).1.node levels m) :
    ∀ s ∈ m.listed, Origin (statement (expression (nestingLimit - levels))
      (block (nestingLimit - levels))) (finishOf ts) ts s := by
  cases h with
  | here => exact fun s hs => (parse_fits ts s hs).1
  | down hedge hpath =>
    obtain ⟨top, htop, rfl⟩ := List.mem_map.1 hedge
    cases m with
    | program p =>
      -- A script stands below nothing.
      have hchild := Node.mem_children_of_edge hedge
      rw [hpath.eq_program rfl] at hchild
      exact absurd hchild (Node.program_not_mem_children p _)
    | block b => exact (((parse_fits ts top htop).2 _ _ hpath).2 b rfl).origin
    | _ => exact List.forall_mem_nil _

theorem mem_malformed {range : Range} {cause : Fault.Cause} (h : Path (parse ts).1.node levels m)
    (hs : .malformed range cause ∈ m.listed) : (range, cause) ∈ (parse ts).1.malformed := by
  have hm : m ∈ (parse ts).1.walk :=
    h.mem_walkFrom (Node.mem_walkFrom_of_mem (List.mem_singleton_self _))
  have hchild : (Stmt.malformed range cause).node ∈ m.children := by
    cases m with
    | program p => exact List.mem_map_of_mem hs
    | block b => exact List.mem_map_of_mem hs
    | _ => cases hs
  exact List.mem_filterMap.2 ⟨_, Node.mem_walkFrom_of_child hm hchild, rfl⟩

/-- No path in the tree of a script comes to more levels than the limit.

A statement that the script lists below some of the levels was read with those that are left. It is
the statement that any more of them give, which is then no deeper than the limit; or it is malformed
for its depth, and malformed statements are reported one for one.

Read with a count of levels in place of the levels that are left, an attempt comes back to the count
it started with, whether the statement is read or given up. So the limit is the same for each. -/
theorem nesting_bounded (ts : List Token) :
    (∀ levels m, Path (parse ts).1.node levels m → levels ≤ nestingLimit) ∧
    (∀ levels m, Path (parse ts).1.node levels m → ∀ s ∈ m.listed, s.isComment = false →
      ∃ indent first more, first :: more <:+ ts ∧
        s = (attempt (statement (expression (nestingLimit - levels)) (block (nestingLimit - levels)))
          indent ⟨finishOf ts, false, none⟩ first more).1.value ∧
        ∀ room, nestingLimit - levels ≤ room →
          s = (attempt (roomier (nestingLimit - levels) room) indent ⟨finishOf ts, false, none⟩ first
            more).1.value ∨
          ∃ range cause, s = .malformed range cause ∧ cause.isDeep = true ∧
            (range, cause) ∈ (parse ts).1.malformed) ∧
    List.Forall₂ (fun x fault => x.2 = fault.cause) (parse ts).1.malformed (parse ts).2 ∧
    (∀ (s : Machine.State) indent first more, ∃ t rest,
      attempt (statement (expression (nestingLimit - s.depth)) (block (nestingLimit - s.depth)))
        indent ⟨s.finish, false, none⟩ first more = (t, rest) ∧
      Machine.attempt (Machine.statement nestingLimit) indent first more { s with margin := none } =
        (some t, { s with margin := none, rest, nesting := 0, failure := none })) ∧
    Machine.parse ts = some (parse ts) := by
  refine ⟨fun levels m hpath => levels_le hpath, ?_, parse_explains ts, ?_, Machine.parse_eq ts⟩
  · intro levels m hpath s hs hcode
    rcases origin_of_listed hpath s hs with ⟨_, -, -, -, rfl⟩ | ⟨indent, first, more, hfirst, hread⟩
    · cases hcode
    refine ⟨indent, first, more, hfirst, hread, fun room hroom => ?_⟩
    rcases attempt_unless (statement_unless hroom indent) ⟨finishOf ts, false, none⟩
      first more with heq | ⟨range, fault, hdeep, hmalformed⟩
    · exact .inl (hread.trans (congrArg (·.1.value) heq))
    · rw [hmalformed] at hread
      subst hread
      exact .inr ⟨range, fault.cause, rfl, hdeep, mem_malformed hpath hs⟩
  · intro s indent first more
    exact ⟨_, _, rfl, Machine.attempt_eq rfl rfl⟩

end Program

end PineScript
