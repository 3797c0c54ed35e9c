import Mathlib.Data.List.Forall2
import Mathlib.Data.Set.Card
import Mathlib.Logic.Relation
import PineScript.Proofs.Rule.Levels
import PineScript.Proofs.Rule.Located

/-!
# Which statements are nested too deeply

A conditional or loop encloses what stands in its blocks, as far as the body of one function goes.
The branches of a chain of `else if` enclose different nodes, so the chain counts once. Main
statement: the leading statements with exactly as many statements around them as the limit allows
are reported, in source order, and whatever is nested more deeply lies within one of them
(`Nesting.check_reports_first_excess`).
-/

namespace PineScript.Rule.Nesting

open Node (nodeAt? parentAt? parentAt?_lt isBodyAt bodyAbove? bodyAbove?_of_parentAt?)
open Shadowing (isExpression_parameters)

/-! ## Depth -/

def isFunction : Node → Bool
  | .stmt (.blockFunction ..) => true
  | _ => false

section

variable (index : Array Node.Entry)

def isFunctionAt (n : Nat) : Bool := (nodeAt? index n).any isFunction

def Above (m n : Nat) : Prop :=
  Relation.TransGen (fun parent child => parentAt? index child = some parent) m n

/-- A node lies within another one that stands above it, if no function begins between them. -/
def Within (n m : Nat) : Prop :=
  Above index m n ∧ ∀ f, isFunctionAt index f = true → Above index m f → ¬ Above index f n

/-- The statement has the node in one of its blocks, and in the same function body. -/
def Encloses (m n : Nat) : Prop :=
  isNestedAt index m = true ∧
    (∃ b, isBodyAt index b = true ∧ parentAt? index b = some m ∧ Above index b n) ∧ Within index n m

noncomputable def depth (n : Nat) : Nat := 1 + {m | Encloses index m n}.ncard

/-- A loop, or a conditional that does not stand behind an `else`. -/
def Leads (n : Nat) : Prop :=
  isNestedAt index n = true ∧ ∃ body, parentAt? index n = some body ∧ isBodyAt index body = true

/-- The diagnostic reports the header of a statement that is nested one level too deeply. -/
def Reports (limit : Int) (n : Nat) (diagnostic : Diagnostic) : Prop :=
  ∃ s, nodeAt? index n = some (.stmt s) ∧
    diagnostic =
      { code := id, message := message (limit + 1) limit, severity := .warning, range := s.header }

end

variable {index : Array Node.Entry} {limit : Int} {m n p : Nat}

/-! ## What stands above a node -/

theorem above_lt (h : Above index m n) : m < n := by
  induction h with
  | single hp => exact parentAt?_lt hp
  | tail _ hp ih => exact Nat.lt_trans ih (parentAt?_lt hp)

theorem above_iff (h : parentAt? index n = some p) : Above index m n ↔ m = p ∨ Above index m p := by
  refine (Relation.transGen_iff _ _ _).trans (or_congr ?_ ?_)
  · rw [h, Option.some_inj, eq_comm]
  · constructor
    · rintro ⟨q, habove, hq⟩
      rw [h, Option.some_inj] at hq
      exact hq ▸ habove
    · exact fun habove => ⟨p, habove, h⟩

theorem not_above_of_root (h : parentAt? index n = none) : ¬ Above index m n := by
  intro habove
  rcases (Relation.transGen_iff _ _ _).1 habove with hlink | ⟨q, -, hlink⟩
  · rw [h] at hlink
    cases hlink
  · rw [h] at hlink
    cases hlink

/-- Of two nodes above a third, one stands above the other. -/
theorem above_linear {a b : Nat} (ha : Above index a n) (hb : Above index b n) :
    a = b ∨ Above index a b ∨ Above index b a := by
  induction n using Nat.strongRecOn with
  | ind n ih =>
    cases hparent : parentAt? index n with
    | none => exact absurd ha (not_above_of_root hparent)
    | some p =>
      rcases (above_iff hparent).1 ha with rfl | ha
      · rcases (above_iff hparent).1 hb with rfl | hb
        · exact .inl rfl
        · exact .inr (.inr hb)
      · rcases (above_iff hparent).1 hb with rfl | hb
        · exact .inr (.inl ha)
        · exact ih p (parentAt?_lt hparent) ha hb

/-- Nothing begins between a node and its parent. -/
theorem within_parent (h : parentAt? index n = some p) : Within index n p := by
  refine ⟨.single h, fun f _ hout hin => ?_⟩
  rcases (above_iff h).1 hin with rfl | hin
  · exact Nat.lt_irrefl _ (above_lt hout)
  · exact Nat.lt_irrefl _ (Nat.lt_trans (above_lt hout) (above_lt hin))

theorem Within.trans {d : Nat} (h : Within index n m) (hm : isFunctionAt index m = false)
    (hd : Within index m d) : Within index n d := by
  refine ⟨Relation.TransGen.trans hd.1 h.1, fun f hf hout hin => ?_⟩
  rcases above_linear hin h.1 with rfl | habove | habove
  · rw [hm] at hf
    cases hf
  · exact hd.2 f hf hout habove
  · exact h.2 f hf habove hin

/-- What lies between a node and one that it lies within lies within that one. -/
theorem Within.of_above {d : Nat} (h : Within index n d) (hd : Above index d m)
    (hm : Above index m n) : Within index m d :=
  ⟨hd, fun f hf hout hin => h.2 f hf hout (Relation.TransGen.trans hin hm)⟩

/-! ## Kinds of nodes -/

theorem isNested_of_block {node : Node} {b : Block} (h : .block b ∈ node.children) :
    isNested node = true ∨ isFunction node = true := by
  have hstmt (ss : List Stmt) : .block b ∉ ss.map Stmt.node := by
    intro h
    obtain ⟨s, -, hs⟩ := List.mem_map.1 h
    cases s <;> cases hs
  have hexpr {ns : List Node} (hns : ∀ c ∈ ns, c.isExpression = true) : .block b ∉ ns :=
    fun h => by cases hns _ h
  cases node with
  | program | block => exact absurd h (hstmt _)
  | expr | namedArgument | parameter =>
    exact absurd h (hexpr fun c hc => Node.isExpression_child rfl hc)
  | stmt s =>
    cases s with
    | conditional | countingLoop | iteratingLoop | whileLoop => exact .inl rfl
    | blockFunction => exact .inr rfl
    | comment | malformed => cases h
    | expression e =>
      exact absurd h (hexpr fun c hc => Node.isExpression_child (n := .expr e) rfl hc)
    | declaration | assignment => simp [Node.children, Stmt.children, Name.node] at h
    | jump => exact absurd h (hexpr fun c hc => Node.isExpression_ofExpr? hc)
    | lineFunction range name parameters value =>
      exact absurd h (hexpr (List.forall_mem_append.2
        ⟨isExpression_parameters name parameters, List.forall_mem_singleton.2 rfl⟩))

/-- Only bodies and conditionals have conditionals and loops as children. -/
theorem isBody_of_nested {node child : Node} (hchild : isNested child = true)
    (h : child ∈ node.children) : node.isBody = true ∨ isNested node = true := by
  have hexpr {ns : List Node} (hns : ∀ c ∈ ns, c.isExpression = true) : child ∉ ns := fun h => by
    rw [not_nested_of_isExpression (hns _ h)] at hchild
    cases hchild
  cases node with
  | program | block => exact .inl rfl
  | expr | namedArgument | parameter =>
    exact absurd h (hexpr fun c hc => Node.isExpression_child rfl hc)
  | stmt s =>
    cases s with
    | conditional | countingLoop | iteratingLoop | whileLoop => exact .inr rfl
    | comment | malformed => cases h
    | expression e =>
      exact absurd h (hexpr fun c hc => Node.isExpression_child (n := .expr e) rfl hc)
    | declaration | assignment =>
      exact absurd h (hexpr (List.forall_mem_cons.2 ⟨rfl, List.forall_mem_singleton.2 rfl⟩))
    | jump => exact absurd h (hexpr fun c hc => Node.isExpression_ofExpr? hc)
    | lineFunction range name parameters value =>
      exact absurd h (hexpr (List.forall_mem_append.2
        ⟨isExpression_parameters name parameters, List.forall_mem_singleton.2 rfl⟩))
    | blockFunction range name parameters body =>
      rcases List.mem_append.1 h with h | h
      · exact absurd h (hexpr (isExpression_parameters name parameters))
      · rw [List.mem_singleton.1 h] at hchild
        cases hchild

theorem exists_nodeAt? {test : Node → Bool} (h : (nodeAt? index n).any test = true) :
    ∃ node, nodeAt? index n = some node ∧ test node = true := by
  simpa [Option.any_eq_true] using h

theorem isNestedAt_not_function (h : isNestedAt index n = true) : isFunctionAt index n = false := by
  obtain ⟨node, hnode, hnested⟩ := exists_nodeAt? h
  rw [isFunctionAt, hnode, Option.any_some]
  cases node with
  | stmt s => cases s <;> first | rfl | cases hnested
  | _ => rfl

theorem isBodyAt_not_nested (h : isBodyAt index n = true) : isNestedAt index n = false := by
  obtain ⟨node, hnode, hbody⟩ := exists_nodeAt? h
  rw [isNestedAt, hnode, Option.any_some]
  cases node <;> first | rfl | cases hbody

theorem isBodyAt_not_function (h : isBodyAt index n = true) : isFunctionAt index n = false := by
  obtain ⟨node, hnode, hbody⟩ := exists_nodeAt? h
  rw [isFunctionAt, hnode, Option.any_some]
  cases node <;> first | rfl | cases hbody

/-! ## Statements around a node -/

section

variable {program : Program} {q d : Nat}

theorem isNestedAt_parent_of_body (hbody : isBodyAt program.index n = true)
    (h : parentAt? program.index n = some p) :
    isNestedAt program.index p = true ∨ isFunctionAt program.index p = true := by
  obtain ⟨node, hnode, hkind⟩ := exists_nodeAt? hbody
  obtain ⟨_, hget⟩ := Program.index_of_parentAt? hnode h
  obtain ⟨parent, hparent, hchild⟩ := Program.child_of_index hget
  rw [isNestedAt, isFunctionAt, hparent]
  cases node with
  | block b => exact isNested_of_block hchild
  | program other => exact absurd hchild (Node.program_not_mem_children other parent)
  | _ => cases hkind

theorem exists_parent_of_nested (h : isNestedAt program.index n = true) :
    ∃ p, parentAt? program.index n = some p ∧
      (isBodyAt program.index p = true ∨
        isBodyAt program.index p = false ∧ isNestedAt program.index p = true) := by
  obtain ⟨node, hnode, hnested⟩ := exists_nodeAt? h
  obtain ⟨e, hget, rfl⟩ := Option.map_eq_some_iff.1 hnode
  have hpos : 0 < n := by
    rcases Nat.eq_zero_or_pos n with rfl | hpos
    · rw [program.index_zero, Option.some_inj] at hget
      rw [← hget] at hnested
      cases hnested
    · exact hpos
  obtain ⟨p, e', hparent, -, hget', hchild⟩ := program.parent_of_index hpos hget
  refine ⟨p, by rw [Program.parentAt?_index, hget]; exact hparent, ?_⟩
  rw [isBodyAt, isNestedAt, nodeAt?, hget']
  cases hbody : e'.node.isBody with
  | true => exact .inl hbody
  | false => exact .inr ⟨hbody, (isBody_of_nested hnested hchild).resolve_left (by simp [hbody])⟩

/-- Behind an `else` the same statements stand around as before it. -/
theorem encloses_iff_of_chain (h : parentAt? program.index n = some p)
    (hbody : isBodyAt program.index p = false) (hnested : isNestedAt program.index p = true) :
    Encloses program.index m n ↔ Encloses program.index m p := by
  constructor
  · rintro ⟨hm, ⟨b, hb, hparent, habove⟩, hwithin⟩
    rcases (above_iff h).1 habove with rfl | habove
    · rw [hbody] at hb
      cases hb
    · have hmp : Above program.index m p := .head hparent habove
      exact ⟨hm, ⟨b, hb, hparent, habove⟩, hwithin.of_above hmp (.single h)⟩
  · rintro ⟨hm, ⟨b, hb, hparent, habove⟩, hwithin⟩
    refine ⟨hm, ⟨b, hb, hparent, habove.tail h⟩, ?_⟩
    exact (within_parent h).trans (isNestedAt_not_function hnested) hwithin

theorem within_of_body (h : parentAt? program.index n = some p)
    (hbody : isBodyAt program.index p = true) (hq : parentAt? program.index p = some q) :
    Within program.index n q :=
  (within_parent h).trans (isBodyAt_not_function hbody) (within_parent hq)

/-- Around what stands in a body there are the statement that has the body, unless it is a function,
and those around that. -/
theorem encloses_iff_of_body (h : parentAt? program.index n = some p)
    (hbody : isBodyAt program.index p = true) (hq : parentAt? program.index p = some q) :
    Encloses program.index m n ↔
      isNestedAt program.index q = true ∧ (m = q ∨ Encloses program.index m q) := by
  have hnot := isBodyAt_not_nested hbody
  constructor
  · rintro ⟨hm, ⟨b, hb, hparent, habove⟩, hwithin⟩
    rcases (above_iff h).1 habove with rfl | habove
    · rw [hq, Option.some_inj] at hparent
      exact ⟨hparent ▸ hm, .inl hparent.symm⟩
    -- A body does not stand directly in another, so that the rest is above the holder of this one.
    · rcases (above_iff hq).1 habove with rfl | habove
      · rcases isNestedAt_parent_of_body hbody hq with hnested | hfunction
        · rw [isBodyAt_not_nested hb] at hnested
          cases hnested
        · rw [isBodyAt_not_function hb] at hfunction
          cases hfunction
      · have hmq : Above program.index m q := .head hparent habove
        have hqn : Above program.index q n := (within_of_body h hbody hq).1
        rcases isNestedAt_parent_of_body hbody hq with hnested | hfunction
        · exact ⟨hnested, .inr ⟨hm, ⟨b, hb, hparent, habove⟩, hwithin.of_above hmq hqn⟩⟩
        · exact absurd hqn (hwithin.2 q hfunction hmq)
  · rintro ⟨hnested, rfl | ⟨hm, ⟨b, hb, hparent, habove⟩, hwithin⟩⟩
    · exact ⟨hnested, ⟨p, hbody, hq, .single h⟩, within_of_body h hbody hq⟩
    · refine ⟨hm, ⟨b, hb, hparent, (habove.tail hq).tail h⟩, ?_⟩
      exact (within_of_body h hbody hq).trans (isNestedAt_not_function hnested) hwithin

theorem not_encloses_of_script (h : parentAt? program.index n = some p)
    (hroot : parentAt? program.index p = none) : ¬ Encloses program.index m n := by
  rintro ⟨-, ⟨b, -, hparent, habove⟩, -⟩
  rcases (above_iff h).1 habove with rfl | habove
  · rw [hroot] at hparent
    cases hparent
  · exact not_above_of_root hroot habove

theorem level_of_chain (h : parentAt? program.index n = some p)
    (hbody : isBodyAt program.index p = false) : level program.index n = level program.index p := by
  refine level_congr ?_
  rw [bodyAbove?_of_parentAt? h, hbody]
  rfl

theorem bodyAbove?_of_body (h : parentAt? index n = some p) (hbody : isBodyAt index p = true) :
    bodyAbove? index n = some p := by
  rw [bodyAbove?_of_parentAt? h, if_pos hbody]

/-- The level counts the statements around a node. By induction on the number of the node, since
whatever is above it has a smaller one. -/
theorem ncard_encloses (h : isNestedAt program.index n = true) :
    {m | Encloses program.index m n}.ncard = level program.index n := by
  induction n using Nat.strongRecOn with
  | ind n ih =>
    obtain ⟨p, hparent, hbody | ⟨hbody, hnested⟩⟩ := exists_parent_of_nested h
    · have habove := bodyAbove?_of_body hparent hbody
      cases hq : parentAt? program.index p with
      | none =>
        have hempty : {m | Encloses program.index m n} = ∅ :=
          Set.eq_empty_of_forall_notMem fun m => not_encloses_of_script hparent hq
        rw [hempty, Set.ncard_empty, level_of_script habove hq]
      | some q =>
        rw [level_of_body habove hq, levelBelow]
        split
        · rename_i hnested
          have hlt : q < n := Nat.lt_trans (parentAt?_lt hq) (parentAt?_lt hparent)
          have hinsert : {m | Encloses program.index m n} =
              insert q {m | Encloses program.index m q} :=
            Set.ext fun m => (encloses_iff_of_body hparent hbody hq).trans (and_iff_right hnested)
          have hfinite : {m | Encloses program.index m q}.Finite :=
            (Set.finite_lt_nat q).subset fun m hm => above_lt hm.2.2.1
          have hfresh : q ∉ {m | Encloses program.index m q} :=
            fun hself => Nat.lt_irrefl q (above_lt hself.2.2.1)
          rw [hinsert, Set.ncard_insert_of_notMem hfresh hfinite, ih q hlt hnested]
        · rename_i hnested
          have hempty : {m | Encloses program.index m n} = ∅ :=
            Set.eq_empty_of_forall_notMem fun m hm =>
              hnested ((encloses_iff_of_body hparent hbody hq).1 hm).1
          rw [hempty, Set.ncard_empty]
    -- An `if` behind an `else` has the statements around it that the chain has.
    · have hsame : {m | Encloses program.index m n} = {m | Encloses program.index m p} :=
        Set.ext fun m => encloses_iff_of_chain hparent hbody hnested
      rw [hsame, ih p (parentAt?_lt hparent) hnested, level_of_chain hparent hbody]

theorem depth_eq (h : isNestedAt program.index n = true) :
    Nesting.depth program.index n = 1 + level program.index n := by
  rw [Nesting.depth, ncard_encloses h]

/-! ## Levels along the way up -/

/-- Above a node, within one function body, levels do not rise, and from one leading statement to
the next they fall. -/
theorem level_le_of_within (hn : isNestedAt program.index n = true)
    (hm : isNestedAt program.index m = true) (h : Within program.index n m) :
    level program.index m ≤ level program.index n ∧
      (Leads program.index n → level program.index m < level program.index n) := by
  induction n using Nat.strongRecOn with
  | ind n ih =>
    obtain ⟨p, hparent, hbody | ⟨hbody, hnested⟩⟩ := exists_parent_of_nested hn
    · suffices hlt : level program.index m < level program.index n from
        ⟨Nat.le_of_lt hlt, fun _ => hlt⟩
      have habove := bodyAbove?_of_body hparent hbody
      -- The statement leads a body, and what has the body is one level above it.
      rcases (above_iff hparent).1 h.1 with rfl | hmp
      · rw [isBodyAt_not_nested hbody] at hm
        cases hm
      · cases hq : parentAt? program.index p with
        | none => exact absurd hmp (not_above_of_root hq)
        | some q =>
          have hqn : Above program.index q n := (within_of_body hparent hbody hq).1
          have hlt : q < n := above_lt hqn
          rcases isNestedAt_parent_of_body hbody hq with hnested | hfunction
          · rw [level_of_body habove hq, levelBelow, if_pos hnested]
            rcases (above_iff hq).1 hmp with rfl | hmq
            · exact Nat.lt_succ_self _
            · exact Nat.lt_succ_of_le (ih q hlt hnested (h.of_above hmq hqn)).1
          · rcases (above_iff hq).1 hmp with rfl | hmq
            · rw [isNestedAt_not_function hm] at hfunction
              cases hfunction
            · exact absurd hqn (h.2 q hfunction hmq)
    · rw [level_of_chain hparent hbody]
      constructor
      · rcases (above_iff hparent).1 h.1 with rfl | hmp
        · exact Nat.le_refl _
        · exact (ih p (parentAt?_lt hparent) hnested (h.of_above hmp (.single hparent))).1
      · rintro ⟨-, body, hbodyAt, htrue⟩
        rw [hparent, Option.some_inj] at hbodyAt
        rw [← hbodyAt, hbody] at htrue
        cases htrue

/-- Up to its own level, there is a leading statement at each level around a statement. -/
theorem exists_leads_of_level (h : isNestedAt program.index n = true) (level : Nat)
    (hlevel : level ≤ Nesting.level program.index n) :
    ∃ d, Leads program.index d ∧ Nesting.level program.index d = level ∧
      (d = n ∨ Within program.index n d) := by
  induction n using Nat.strongRecOn with
  | ind n ih =>
    -- What is found from a node above is around this one as well.
    have hup {q : Nat} (hlt : q < n) (hq : isNestedAt program.index q = true)
        (hwithin : Within program.index n q) (hle : level ≤ Nesting.level program.index q) :
        ∃ d, Leads program.index d ∧ Nesting.level program.index d = level ∧
          (d = n ∨ Within program.index n d) := by
      obtain ⟨d, hleads, heq, rfl | hd⟩ := ih q hlt hq hle
      · exact ⟨d, hleads, heq, .inr hwithin⟩
      · exact ⟨d, hleads, heq, .inr (hwithin.trans (isNestedAt_not_function hq) hd)⟩
    obtain ⟨p, hparent, hbody | ⟨hbody, hnested⟩⟩ := exists_parent_of_nested h
    · rcases Nat.eq_or_lt_of_le hlevel with rfl | hlt
      · exact ⟨n, ⟨h, p, hparent, hbody⟩, rfl, .inl rfl⟩
      · have hpos : holder? program.index n ≠ none := fun hnone => by
          rw [level_eq_zero hnone] at hlt
          exact Nat.not_lt_zero _ hlt
        obtain ⟨q, hq⟩ := Option.ne_none_iff_exists'.1 hpos
        obtain ⟨body, hbodyAt, hbodyParent, hnested⟩ := holder?_eq_some.1 hq
        rw [bodyAbove?_of_body hparent hbody, Option.some_inj] at hbodyAt
        rw [← hbodyAt] at hbodyParent
        rw [level_of_holder? hq] at hlt
        exact hup (holder?_lt hq) hnested (within_of_body hparent hbody hbodyParent)
          (Nat.le_of_lt_succ hlt)
    · rw [level_of_chain hparent hbody] at hlevel
      exact hup (parentAt?_lt hparent) hnested (within_parent hparent) hlevel

/-- A node lies within at most one leading statement of a level. -/
theorem leads_unique {d' : Nat} (hd : Leads program.index d) (hd' : Leads program.index d')
    (hlevel : level program.index d = level program.index d') (h : Within program.index n d)
    (h' : Within program.index n d') : d = d' := by
  rcases above_linear h.1 h'.1 with rfl | habove | habove
  · rfl
  · have hlt := (level_le_of_within hd'.1 hd.1 (h.of_above habove h'.1)).2 hd'
    exact absurd hlevel (Nat.ne_of_lt hlt)
  · have hlt := (level_le_of_within hd.1 hd'.1 (h'.of_above habove h.1)).2 hd
    exact absurd hlevel.symm (Nat.ne_of_lt hlt)

end

/-! ## Reports -/

/-- Whether a leading statement stands at the limit. -/
def exceeds (index : Array Node.Entry) (limit : Int) (n : Nat) : Bool :=
  isNestedAt index n && (parentAt? index n).any (isBodyAt index) && (level index n : Int) == limit

theorem exceeds_iff :
    exceeds index limit n = true ↔ Leads index n ∧ (level index n : Int) = limit := by
  rw [exceeds, Bool.and_eq_true, Bool.and_eq_true, beq_iff_eq, Option.any_eq_true, Leads]

theorem lt_size_of_exceeds (h : exceeds index limit n = true) : n < index.size := by
  obtain ⟨node, hnode, -⟩ := exists_nodeAt? (exceeds_iff.1 h).1.1
  obtain ⟨e, hget, -⟩ := Option.map_eq_some_iff.1 hnode
  exact (Array.getElem?_eq_some_iff.1 hget).1

theorem judgeAt_of_exceeds (h : exceeds index limit n = true) :
    ∃ diagnostic, judgeAt index limit n = [diagnostic] ∧ Reports index limit n diagnostic := by
  obtain ⟨⟨hnested, body, hparent, hbody⟩, hlevel⟩ := exceeds_iff.1 h
  obtain ⟨node, hnode, hkind⟩ := exists_nodeAt? hnested
  cases node with
  | stmt s =>
    refine ⟨_, ?_, s, hnode, rfl⟩
    rw [judgeAt, hnode, hparent]
    simp only
    rw [hkind, hbody, judge, if_pos hlevel, hlevel]
    rfl
  | _ => cases hkind

theorem judgeAt_of_not_exceeds (h : exceeds index limit n = false) : judgeAt index limit n = [] := by
  unfold judgeAt
  split
  · rename_i s p hnode hparent
    rw [exceeds, isNestedAt, hnode, hparent, Option.any_some, Option.any_some] at h
    split
    · rename_i hleads
      rw [hleads, Bool.true_and, beq_eq_false_iff_ne] at h
      rw [judge, if_neg h]
    · rfl
  · rfl

theorem reports_exceeding (index : Array Node.Entry) (limit : Int) (ns : List Nat) :
    List.Forall₂ (Reports index limit) (ns.filter (exceeds index limit))
      (ns.flatMap (judgeAt index limit)) := by
  induction ns with
  | nil => exact .nil
  | cons n ns ih =>
    rw [List.flatMap_cons]
    cases h : exceeds index limit n with
    | true =>
      obtain ⟨diagnostic, hjudge, hreports⟩ := judgeAt_of_exceeds h
      rw [List.filter_cons_of_pos h, hjudge, List.singleton_append]
      exact .cons hreports ih
    | false =>
      rw [List.filter_cons_of_neg (by simp [h]), judgeAt_of_not_exceeds h, List.nil_append]
      exact ih

theorem map_node_index (program : Program) :
    program.index.toList.map (·.node) = program.walk := by
  rw [Program.index, Program.walk, Node.walk]
  exact Node.map_node_outlineFrom 0 _

theorem start_header (s : Stmt) : s.header.start = s.range.start := by
  cases s with
  | blockFunction range name parameters body =>
    rw [Stmt.header]
    split <;> rfl
  | _ => rfl

/-- The later of two nodes does not start before the other. -/
theorem start_le_of_lt {source : String} {a b : Node} (hlt : m < n)
    (ha : nodeAt? (Program.parse (tokenize source)).1.index m = some a)
    (hb : nodeAt? (Program.parse (tokenize source)).1.index n = some b) :
    a.range.start ≤ b.range.start := by
  have hsorted := (Program.spelled_parse source).placed.walk_start.2
  have hwalk := map_node_index (Program.parse (tokenize source)).1
  obtain ⟨ea, hgeta, rfl⟩ := Option.map_eq_some_iff.1 ha
  obtain ⟨eb, hgetb, rfl⟩ := Option.map_eq_some_iff.1 hb
  obtain ⟨hm, rfl⟩ := Array.getElem?_eq_some_iff.1 hgeta
  obtain ⟨hn, rfl⟩ := Array.getElem?_eq_some_iff.1 hgetb
  rw [Program.walk, Node.walk] at hwalk
  rw [← hwalk, List.map_map, List.pairwise_map, List.pairwise_iff_getElem] at hsorted
  exact hsorted m n hm hn hlt

theorem exists_of_reports {found : List Nat} {ds : List Diagnostic} {d : Diagnostic}
    (h : List.Forall₂ (Reports index limit) found ds) (hd : d ∈ ds) :
    ∃ n ∈ found, Reports index limit n d := by
  induction h with
  | nil => cases hd
  | @cons m e ms ds hm _ ih =>
    rcases List.mem_cons.1 hd with rfl | hd
    · exact ⟨m, List.mem_cons_self, hm⟩
    · obtain ⟨n, hn, hreports⟩ := ih hd
      exact ⟨n, List.mem_cons_of_mem m hn, hreports⟩

/-- What is reported in the order of visits is in source order. -/
theorem pairwise_start_of_reports {program : Program} {source : String} {found : List Nat}
    {ds : List Diagnostic} (hsource : program = (Program.parse (tokenize source)).1)
    (hfound : found.Pairwise (· < ·)) (h : List.Forall₂ (Reports program.index limit) found ds) :
    ds.Pairwise fun a b => a.range.start ≤ b.range.start := by
  induction h with
  | nil => exact .nil
  | @cons m d ms ds hm hms ih =>
    obtain ⟨hfirst, hrest⟩ := List.pairwise_cons.1 hfound
    refine .cons (fun e he => ?_) (ih hrest)
    obtain ⟨n, hn, hreports⟩ := exists_of_reports hms he
    obtain ⟨s, hs, rfl⟩ := hm
    obtain ⟨s', hs', rfl⟩ := hreports
    rw [hsource] at hs hs'
    have hle := start_le_of_lt (hfirst n hn) hs hs'
    simp only [start_header]
    exact hle

/-- The leading statements whose depth is one more than the limit are reported, each once and with
its header, in the order of visits, which for a script that was read is source order. If the limit
is not negative, something is reported whenever some statement is nested too deeply, and a statement
that is nested more deeply still lies within exactly one that is reported. -/
theorem check_reports_first_excess (program : Program) (limit : Int) :
    ∃ found : List Nat, found.Pairwise (· < ·) ∧
      (∀ d, d ∈ found ↔
        Leads program.index d ∧ (Nesting.depth program.index d : Int) = limit + 1) ∧
      List.Forall₂ (Reports program.index limit) found (check limit program) ∧
      (∀ source, program = (Program.parse (tokenize source)).1 →
        (check limit program).Pairwise fun a b => a.range.start ≤ b.range.start) ∧
      (0 ≤ limit →
        (check limit program ≠ [] ↔
          ∃ n, isNestedAt program.index n = true ∧ limit < Nesting.depth program.index n) ∧
        ∀ n, isNestedAt program.index n = true → limit + 1 < Nesting.depth program.index n →
          ∃! d, d ∈ found ∧ Within program.index n d) := by
  have hmem (d : Nat) : d ∈ (List.range program.index.size).filter (exceeds program.index limit) ↔
      Leads program.index d ∧ (level program.index d : Int) = limit := by
    rw [List.mem_filter, List.mem_range, exceeds_iff]
    exact and_iff_right_of_imp fun h => lt_size_of_exceeds (exceeds_iff.2 h)
  have hreports := reports_exceeding program.index limit (List.range program.index.size)
  rw [← check_eq_judgeAt] at hreports
  have hordered : ((List.range program.index.size).filter
      (exceeds program.index limit)).Pairwise (· < ·) := List.pairwise_lt_range.filter _
  refine ⟨_, hordered, fun d => ?_, hreports, fun source hsource => ?_, fun hlimit => ⟨?_, ?_⟩⟩
  · rw [hmem]
    refine and_congr_right fun hleads => ?_
    rw [depth_eq hleads.1]
    omega
  · exact pairwise_start_of_reports hsource hordered hreports
  · constructor
    · intro hne
      obtain ⟨d, hd⟩ := List.exists_mem_of_ne_nil _ hne
      obtain ⟨n, hn, -⟩ := exists_of_reports hreports hd
      obtain ⟨hleads, hlevel⟩ := (hmem n).1 hn
      refine ⟨n, hleads.1, ?_⟩
      rw [depth_eq hleads.1]
      omega
    · rintro ⟨n, hn, hdepth⟩ hnil
      rw [depth_eq hn] at hdepth
      obtain ⟨d, hleads, hlevel, -⟩ := exists_leads_of_level hn limit.toNat (by omega)
      have hfound := (hmem d).2 ⟨hleads, by omega⟩
      rw [hnil, List.forall₂_nil_right_iff] at hreports
      rw [hreports] at hfound
      cases hfound
  · intro n hn hdepth
    rw [depth_eq hn] at hdepth
    obtain ⟨d, hleads, hlevel, rfl | hwithin⟩ :=
      exists_leads_of_level hn limit.toNat (by omega)
    · omega
    · refine ⟨d, ⟨(hmem d).2 ⟨hleads, by omega⟩, hwithin⟩, ?_⟩
      rintro d' ⟨hd', hwithin'⟩
      obtain ⟨hleads', hlevel'⟩ := (hmem d').1 hd'
      exact leads_unique hleads' hleads (by omega) hwithin' hwithin

end PineScript.Rule.Nesting
