import PineScript.Proofs.Parser.Run
import PineScript.Proofs.Tree.Placed

/-!
# Reading ahead

Readers go from tokens in source order to a suffix of them. What they read is placed between the
position where they start and the one where they leave off; a fault lies between the start and the
next code that is left.
-/

namespace PineScript.Parser

open Range (Chain)
open Node (Placed)

variable {α : Type} {finish : Position} {start ts mid rest : List Token}

/-! ## Suffixes -/

theorem suffix_dropWhile_of_imp {p q : Token → Bool} (h : ∀ t, p t = true → q t = true)
    (ts : List Token) : ts.dropWhile q <:+ ts.dropWhile p := by
  induction ts with
  | nil => exact List.suffix_refl _
  | cons t ts ih =>
    cases hp : p t with
    | true => simpa [hp, h t hp] using ih
    | false =>
      have hstay : (t :: ts).dropWhile p = t :: ts := List.dropWhile_cons_of_neg (by simp [hp])
      rw [hstay]
      exact List.dropWhile_suffix q

theorem suffix_dropWhile_dropWhile (p : Token → Bool) (h : rest <:+ ts) :
    rest.dropWhile p <:+ ts.dropWhile p := by
  obtain ⟨front, rfl⟩ := h
  induction front with
  | nil => exact List.suffix_refl _
  | cons t front ih =>
    cases hp : p t with
    | true => simpa [hp] using ih
    | false =>
      rw [List.cons_append, List.dropWhile_cons_of_neg (by simp [hp])]
      exact (List.dropWhile_suffix p).trans ⟨t :: front, rfl⟩

/-! ## Positions of what is left -/

/-- Where the tokens that are left begin. -/
def startOf (finish : Position) : List Token → Position
  | [] => finish
  | t :: _ => t.range.start

/-- Where the code that is left begins. -/
def codeStart (finish : Position) (ts : List Token) : Position :=
  startOf finish (ts.dropWhile Token.isLayout)

/-- The tokens stand one behind the other. -/
def InOrder (finish : Position) (ts : List Token) : Prop :=
  Chain (startOf finish ts) finish (ts.map Token.range)

/-- A chain of tokens begins with the first of them. -/
theorem chain_iff_inOrder {lo : Position} :
    Chain lo finish (ts.map Token.range) ↔ lo ≤ startOf finish ts ∧ InOrder finish ts := by
  cases ts with
  | nil => exact (and_iff_left (Position.le_refl finish)).symm
  | cons t ts => exact and_congr_right fun _ => ⟨fun h => ⟨Position.le_refl _, h⟩, fun h => h.2⟩

theorem InOrder.split {front : List Token} (h : InOrder finish (front ++ rest)) :
    Chain (startOf finish (front ++ rest)) (startOf finish rest) (front.map Token.range) ∧
      InOrder finish rest := by
  rw [InOrder, List.map_append] at h
  obtain ⟨mid, hfront, hrest⟩ := Range.chain_append.1 h
  obtain ⟨hmid, horder⟩ := chain_iff_inOrder.1 hrest
  exact ⟨hfront.mono (Position.le_refl _) hmid, horder⟩

/-! ## What is ahead -/

/-- Of tokens in order, `rest` is what is left of `ts` later on. -/
structure Ahead (finish : Position) (ts rest : List Token) : Prop where
  order : InOrder finish ts
  suffix : rest <:+ ts

namespace Ahead

theorem order_rest (h : Ahead finish ts rest) : InOrder finish rest := by
  obtain ⟨front, rfl⟩ := h.suffix
  exact h.order.split.2

theorem of_suffix (h : Ahead finish start ts) (hrest : rest <:+ ts) : Ahead finish ts rest :=
  ⟨h.order_rest, hrest⟩

theorem refl (h : Ahead finish start ts) : Ahead finish ts ts := h.of_suffix (List.suffix_refl ts)

theorem trans (h : Ahead finish ts mid) (h' : Ahead finish mid rest) : Ahead finish ts rest :=
  ⟨h.order, h'.suffix.trans h.suffix⟩

theorem start_le (h : Ahead finish ts rest) : startOf finish ts ≤ startOf finish rest := by
  obtain ⟨front, rfl⟩ := h.suffix
  exact h.order.split.1.le

theorem dropWhile (h : Ahead finish start ts) (p : Token → Bool) :
    Ahead finish ts (ts.dropWhile p) :=
  h.of_suffix (List.dropWhile_suffix p)

theorem code_le (h : Ahead finish ts rest) : codeStart finish ts ≤ codeStart finish rest := by
  have hts : Ahead finish ts (ts.dropWhile Token.isLayout) :=
    ⟨h.order, List.dropWhile_suffix Token.isLayout⟩
  exact (hts.of_suffix (suffix_dropWhile_dropWhile Token.isLayout h.suffix)).start_le

theorem start_le_code (h : Ahead finish start ts) : startOf finish ts ≤ codeStart finish ts :=
  (h.dropWhile Token.isLayout).start_le

end Ahead

/-! ## Taking tokens -/

/-- A token between what was there and what is left. -/
structure Taken (finish : Position) (ts : List Token) (t : Token) (rest : List Token) : Prop where
  ahead : Ahead finish ts rest
  start : startOf finish ts ≤ t.range.start
  proper : t.range.start ≤ t.range.stop
  stop : t.range.stop ≤ startOf finish rest

theorem Taken.start_le_stop {t : Token} (h : Taken finish ts t rest) :
    t.range.start ≤ startOf finish rest :=
  Position.le_trans h.proper h.stop

theorem Taken.start_le_end {t : Token} (h : Taken finish ts t rest) :
    startOf finish ts ≤ t.range.stop :=
  Position.le_trans h.start h.proper

/-- A node without children that is as long as a token. -/
theorem Taken.leaf {t : Token} {n : Node} (h : Taken finish ts t rest) (hrange : n.range = t.range)
    (hchildren : n.children = []) : Placed t.range.start (startOf finish rest) [n] := by
  rw [Node.placed_cons, hrange, hchildren, Node.placed_nil, Node.placed_nil]
  exact ⟨Position.le_refl _, h.proper, h.stop⟩

theorem Ahead.of_cons {t : Token} (h : Ahead finish ts (t :: rest)) : Taken finish ts t rest := by
  obtain ⟨-, hproper, hchain⟩ := h.order_rest
  obtain ⟨hstop, -⟩ := chain_iff_inOrder.1 hchain
  exact ⟨h.trans (h.refl.of_suffix (List.suffix_cons t rest)), h.start_le, hproper, hstop⟩

variable {ctx : Context}

/-- The next token that is seen, and what is left behind it. -/
theorem Ahead.taken (h : Ahead ctx.finish start ts) :
    Taken ctx.finish ts (ctx.lookahead 0 ts) (ts.dropWhile ctx.skips).tail := by
  have hdrop := h.dropWhile ctx.skips
  rw [ctx.lookahead_zero]
  cases heq : ts.dropWhile ctx.skips with
  | nil =>
    rw [heq] at hdrop
    exact ⟨hdrop, hdrop.start_le, Position.le_refl _, Position.le_refl _⟩
  | cons t rest =>
    rw [heq] at hdrop
    exact hdrop.of_cons

theorem lookahead_start (ctx : Context) (ts : List Token) :
    (ctx.lookahead 0 ts).range.start = startOf ctx.finish (ts.dropWhile ctx.skips) := by
  rw [ctx.lookahead_zero]
  cases ts.dropWhile ctx.skips <;> rfl

theorem Ahead.lookahead_le (h : Ahead ctx.finish ts rest) :
    (ctx.lookahead 0 ts).range.start ≤ (ctx.lookahead 0 rest).range.start := by
  have hts : Ahead ctx.finish ts (ts.dropWhile ctx.skips) :=
    ⟨h.order, List.dropWhile_suffix ctx.skips⟩
  rw [lookahead_start, lookahead_start]
  exact (hts.of_suffix (suffix_dropWhile_dropWhile ctx.skips h.suffix)).start_le

/-- Whatever is seen next, the next code is not before it. -/
theorem Ahead.lookahead_le_code (h : Ahead ctx.finish start ts) :
    (ctx.lookahead 0 ts).range.start ≤ codeStart ctx.finish ts := by
  have himp : ∀ t, ctx.skips t = true → t.isLayout = true := by grind
  rw [lookahead_start]
  exact ((h.dropWhile ctx.skips).refl.of_suffix (suffix_dropWhile_of_imp himp ts)).start_le

/-- A fault of a reader that started at `start`, with what is left. -/
structure Stops (finish : Position) (start : List Token) (fault : Fault) (rest : List Token) :
    Prop where
  ahead : Ahead finish start rest
  start_le : startOf finish start ≤ fault.range.start
  le_code : fault.range.start ≤ codeStart finish rest

theorem Ahead.stops (h : Ahead ctx.finish start ts) (cause : Fault.Cause) :
    Stops ctx.finish start ⟨cause, (ctx.lookahead 0 ts).range⟩ ts :=
  ⟨h, Position.le_trans h.start_le h.taken.start, h.lookahead_le_code⟩

/-! ## Rules -/

variable {Q : Token → List Token → Prop} {E : Fault → List Token → Prop}

theorem wp_take (h : Ahead ctx.finish start ts)
    (hQ : ∀ rest, Taken ctx.finish ts (ctx.lookahead 0 ts) rest → Q (ctx.lookahead 0 ts) rest) :
    wp advance ctx ts Q E :=
  wp_advance.2 (hQ _ h.taken)

theorem wp_passLayout_ahead {Q : Unit → List Token → Prop} (h : Ahead ctx.finish start ts)
    (hQ : ∀ rest, Ahead ctx.finish ts rest → Q () rest) : wp passLayout ctx ts Q E :=
  wp_passLayout.2 (hQ _ (h.dropWhile Token.isLayout))

theorem wp_joinLine_ahead {Q : Unit → List Token → Prop} {spellings : List String}
    (h : Ahead ctx.finish start ts) (hQ : ∀ rest, Ahead ctx.finish ts rest → Q () rest) :
    wp (joinLine spellings) ctx ts Q E :=
  wp_joinLine spellings (hQ ts h.refl) (hQ _ (h.dropWhile Token.isLayout))

theorem wp_expect_take {test : Token → Bool} {wanted : Expected} (h : Ahead ctx.finish start ts)
    (hQ : ∀ rest, Taken ctx.finish ts (ctx.lookahead 0 ts) rest → Q (ctx.lookahead 0 ts) rest) :
    wp (expect test wanted) ctx ts Q (Stops ctx.finish start) := by
  rw [wp_expect]
  split
  · exact hQ _ h.taken
  · exact h.stops _

/-- From tokens in order a reader goes ahead; what it reads is as `R` says, which is given the
positions where it starts and where it leaves off. -/
def Advances (p : Parser α) (R : Position → Position → α → Prop) : Prop :=
  ∀ ⦃ctx start ts⦄, Ahead ctx.finish start ts →
    wp p ctx ts
      (fun a rest => Ahead ctx.finish ts rest ∧
        R (startOf ctx.finish ts) (startOf ctx.finish rest) a)
      (Stops ctx.finish start)

theorem Advances.wp {p : Parser α} {R : Position → Position → α → Prop}
    {Q : α → List Token → Prop} (hp : Advances p R) (h : Ahead ctx.finish start ts)
    (hQ : ∀ a rest, Ahead ctx.finish ts rest →
      R (startOf ctx.finish ts) (startOf ctx.finish rest) a → Q a rest) :
    Parser.wp p ctx ts Q (Stops ctx.finish start) :=
  wp_imp (hp h) (fun a rest ha => hQ a rest ha.1 ha.2)

/-- What holds of each item and can be put together holds of the whole list. -/
theorem Advances.collect {item : Parser (Option α)} {R : Position → Position → List α → Prop}
    (hitem : Advances item fun lo hi o => R lo hi o.toList) (hnil : ∀ p, R p p [])
    (happend : ∀ {lo p hi as bs}, R lo p as → R p hi bs → R lo hi (as ++ bs)) :
    Advances (collect item) R := by
  intro ctx start ts hts
  refine wp_collect (fun as rest => Ahead ctx.finish ts rest ∧
    R (startOf ctx.finish ts) (startOf ctx.finish rest) as) ?_ ⟨hts.refl, hnil _⟩
  rintro as mid ⟨hmid, has⟩
  refine hitem.wp (hts.trans hmid) fun o rest hrest ho => ?_
  exact ⟨hmid.trans hrest, happend has ho⟩

/-- A reader of tokens that stand one behind the other. -/
theorem Advances.collect_chain {item : Parser (Option α)} {range : α → Range}
    (hitem : Advances item fun lo hi o => Chain lo hi (o.toList.map range)) :
    Advances (Parser.collect item) fun lo hi as => Chain lo hi (as.map range) := by
  refine @Advances.collect α item (fun lo hi as => Chain lo hi (as.map range)) hitem
    (fun p => Position.le_refl p) ?_
  intro lo p hi as bs has hbs
  rw [List.map_append]
  exact has.append hbs

/-- A reader that places the nodes of what it reads where it reads it. -/
abbrev Places (p : Parser α) (nodes : α → List Node) : Prop :=
  Advances p fun lo hi a => Placed lo hi (nodes a)

theorem Places.collect {item : Parser (Option α)} {nodes : α → List Node}
    (hitem : Places item fun o => o.toList.flatMap nodes) :
    Places (Parser.collect item) fun as => as.flatMap nodes := by
  refine @Advances.collect α item (fun lo hi as => Placed lo hi (as.flatMap nodes)) hitem
    (fun p => Node.placed_nil.2 (Position.le_refl p)) ?_
  intro lo p hi as bs has hbs
  rw [List.flatMap_append]
  exact has.append hbs

end PineScript.Parser
