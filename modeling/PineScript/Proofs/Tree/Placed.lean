import PineScript.Proofs.Tree.Walk

/-!
# Places in a tree

Ranges form a chain between two positions if each begins where the one before it has ended. Nodes
are placed between two positions if their ranges form a chain there and, everywhere in their
subtrees, the children form a chain within the range of their parent. The visits of such nodes start
in source order.
-/

namespace PineScript

namespace Range

/-- The ranges follow one another between two positions, and none is turned around. -/
def Chain (lo hi : Position) : List Range → Prop
  | [] => lo ≤ hi
  | r :: rs => lo ≤ r.start ∧ r.start ≤ r.stop ∧ Chain r.stop hi rs

variable {lo hi lo' hi' : Position} {r : Range} {rs ss : List Range}

@[simp] theorem chain_nil : Chain lo hi [] ↔ lo ≤ hi := Iff.rfl

@[simp] theorem chain_cons :
    Chain lo hi (r :: rs) ↔ lo ≤ r.start ∧ r.start ≤ r.stop ∧ Chain r.stop hi rs := Iff.rfl

theorem Chain.le (h : Chain lo hi rs) : lo ≤ hi := by
  induction rs generalizing lo with
  | nil => exact h
  | cons r rs ih =>
    obtain ⟨hlo, hr, hrs⟩ := h
    exact Position.le_trans hlo (Position.le_trans hr (ih hrs))

theorem Chain.mono (h : Chain lo hi rs) (hlo : lo' ≤ lo) (hhi : hi ≤ hi') : Chain lo' hi' rs := by
  induction rs generalizing lo lo' with
  | nil => exact Position.le_trans hlo (Position.le_trans h hhi)
  | cons r rs ih =>
    obtain ⟨hstart, hr, hrs⟩ := h
    exact ⟨Position.le_trans hlo hstart, hr, ih hrs (Position.le_refl _)⟩

/-- A chain is cut at the position where its first part has ended. -/
theorem chain_append : Chain lo hi (rs ++ ss) ↔ ∃ mid, Chain lo mid rs ∧ Chain mid hi ss := by
  induction rs generalizing lo with
  | nil =>
    refine ⟨fun h => ⟨lo, Position.le_refl lo, h⟩, ?_⟩
    rintro ⟨mid, hlo, hss⟩
    exact hss.mono hlo (Position.le_refl hi)
  | cons r rs ih => simp only [List.cons_append, chain_cons, ih, ← exists_and_left, and_assoc]

theorem Chain.append {mid : Position} (hrs : Chain lo mid rs) (hss : Chain mid hi ss) :
    Chain lo hi (rs ++ ss) :=
  chain_append.2 ⟨mid, hrs, hss⟩

theorem Chain.of_mem (h : Chain lo hi rs) (hr : r ∈ rs) :
    lo ≤ r.start ∧ r.start ≤ r.stop ∧ r.stop ≤ hi := by
  induction rs generalizing lo with
  | nil => cases hr
  | cons s rs ih =>
    obtain ⟨hlo, hs, hrs⟩ := h
    rcases List.mem_cons.1 hr with rfl | hr
    · exact ⟨hlo, hs, hrs.le⟩
    · obtain ⟨hstart, hproper, hstop⟩ := ih hrs hr
      exact ⟨Position.le_trans hlo (Position.le_trans hs hstart), hproper, hstop⟩

theorem Chain.pairwise (h : Chain lo hi rs) : rs.Pairwise fun a b => a.stop ≤ b.start := by
  induction rs generalizing lo with
  | nil => exact .nil
  | cons r rs ih => exact .cons (fun s hs => (h.2.2.of_mem hs).1) (ih h.2.2)

/-- The first range of a chain starts no later than the last one. -/
theorem Chain.start_le {first last : Range} (h : Chain lo hi rs) (hfirst : rs.head? = some first)
    (hlast : rs.getLast? = some last) : first.start ≤ last.start := by
  cases rs with
  | nil => cases hfirst
  | cons r rs =>
    obtain rfl : r = first := Option.some.inj hfirst
    rcases List.mem_cons.1 (List.mem_of_getLast? hlast) with rfl | hmem
    · exact Position.le_refl _
    · exact Position.le_trans h.2.1 (h.2.2.of_mem hmem).1

/-- A chain may end with its last range. -/
theorem Chain.fit (h : Chain lo hi (rs ++ [r])) : Chain lo r.stop (rs ++ [r]) ∧ r.stop ≤ hi := by
  obtain ⟨mid, hrs, hstart, hr, hstop⟩ := chain_append.1 h
  exact ⟨hrs.append ⟨hstart, hr, Position.le_refl _⟩, hstop⟩

end Range

namespace Node

open Range (Chain)

/-- The nodes follow one another between two positions, and so do the children of each node of their
subtrees within its range. -/
def Placed (lo hi : Position) (ns : List Node) : Prop :=
  Chain lo hi (ns.map range) ∧
    ∀ n ∈ walkFrom ns, Chain n.range.start n.range.stop (n.children.map range)

variable {lo hi lo' hi' : Position} {n : Node} {ms ns : List Node}

theorem Placed.mono (h : Placed lo hi ns) (hlo : lo' ≤ lo) (hhi : hi ≤ hi') : Placed lo' hi' ns :=
  ⟨h.1.mono hlo hhi, h.2⟩

@[simp] theorem placed_nil : Placed lo hi [] ↔ lo ≤ hi := by
  simp [Placed]

/-- A node is placed with its subtree, and the others behind it. -/
theorem placed_cons :
    Placed lo hi (n :: ns) ↔
      lo ≤ n.range.start ∧ Placed n.range.start n.range.stop n.children ∧ Placed n.range.stop hi ns := by
  simp only [Placed, List.map_cons, Range.chain_cons, walkFrom_cons, List.mem_cons, List.mem_append,
    or_imp, forall_and, forall_eq]
  constructor
  · rintro ⟨⟨hlo, -, hns⟩, hself, hbelow, hbeside⟩
    exact ⟨hlo, ⟨hself, hbelow⟩, hns, hbeside⟩
  · rintro ⟨hlo, ⟨hself, hbelow⟩, hns, hbeside⟩
    exact ⟨⟨hlo, hself.le, hns⟩, hself, hbelow, hbeside⟩

theorem placed_append : Placed lo hi (ms ++ ns) ↔ ∃ mid, Placed lo mid ms ∧ Placed mid hi ns := by
  simp only [Placed, List.map_append, Range.chain_append, walkFrom_append, List.mem_append, or_imp,
    forall_and]
  constructor
  · rintro ⟨⟨mid, hms, hns⟩, hinms, hinns⟩
    exact ⟨mid, ⟨hms, hinms⟩, hns, hinns⟩
  · rintro ⟨mid, ⟨hms, hinms⟩, hns, hinns⟩
    exact ⟨⟨mid, hms, hns⟩, hinms, hinns⟩

theorem Placed.append {mid : Position} (hms : Placed lo mid ms) (hns : Placed mid hi ns) :
    Placed lo hi (ms ++ ns) :=
  placed_append.2 ⟨mid, hms, hns⟩

theorem Placed.behind (h : Placed lo hi ns) (hlo : lo' ≤ lo) : Placed lo' hi ns :=
  h.mono hlo (Position.le_refl hi)

theorem Placed.within (h : Placed lo hi ns) (hhi : hi ≤ hi') : Placed lo hi' ns :=
  h.mono (Position.le_refl lo) hhi

theorem Placed.start_le (h : Placed lo hi (n :: ns)) : lo ≤ n.range.start := (placed_cons.1 h).1

/-- Nodes may begin with the first of them. -/
theorem Placed.from_start (h : Placed lo hi (n :: ns)) : Placed n.range.start hi (n :: ns) :=
  placed_cons.2 ⟨Position.le_refl _, (placed_cons.1 h).2⟩

/-- A node reaches around its children. -/
theorem Placed.around (h : Placed lo hi n.children) (hstart : lo' ≤ n.range.start)
    (hlo : n.range.start ≤ lo) (hhi : hi ≤ n.range.stop) (hstop : n.range.stop ≤ hi') :
    Placed lo' hi' [n] :=
  placed_cons.2 ⟨hstart, h.mono hlo hhi, placed_nil.2 hstop⟩

/-- Nodes may end with the last of them. -/
theorem Placed.fit (h : Placed lo hi (ns ++ [n])) :
    Placed lo n.range.stop (ns ++ [n]) ∧ n.range.stop ≤ hi := by
  have hchain := h.1
  rw [List.map_append] at hchain
  obtain ⟨hfit, hstop⟩ := Chain.fit hchain
  rw [← List.map_singleton, ← List.map_append] at hfit
  exact ⟨⟨hfit, h.2⟩, hstop⟩

/-- A node that begins in front of its children and ends with the last of them. -/
theorem Placed.parent {c : Node} (h : Placed lo hi (ms ++ [c])) (hstart : lo' ≤ n.range.start)
    (hlo : n.range.start ≤ lo) (hchildren : n.children = ms ++ [c])
    (hstop : n.range.stop = c.range.stop) : Placed lo' hi [n] := by
  obtain ⟨hfit, hle⟩ := h.fit
  rw [← hchildren, ← hstop] at hfit
  exact hfit.around hstart hlo (Position.le_refl _) (hstop ▸ hle)

theorem Placed.parent_of_one {c : Node} (h : Placed lo hi [c]) (hstart : lo' ≤ n.range.start)
    (hlo : n.range.start ≤ lo) (hchildren : n.children = [c])
    (hstop : n.range.stop = c.range.stop) : Placed lo' hi [n] :=
  @Placed.parent lo hi lo' n [] c h hstart hlo hchildren hstop

/-- The visits of a stack start in source order, behind the position where it begins. -/
theorem Placed.walk_start (h : Placed lo hi ns) :
    (∀ n ∈ walkFrom ns, lo ≤ n.range.start) ∧
      ((walkFrom ns).map (·.range.start)).Pairwise (· ≤ ·) := by
  fun_induction walkFrom ns generalizing lo with
  | case1 => exact ⟨by simp, .nil⟩
  | case2 n stack ih =>
    obtain ⟨hlo, hbelow, hbeside⟩ := placed_cons.1 h
    -- The stack of the next visit is placed behind the start of this one.
    obtain ⟨hfrom, hsorted⟩ := ih (hbelow.append hbeside)
    refine ⟨fun m hm => ?_, ?_⟩
    · rcases List.mem_cons.1 hm with rfl | hm
      · exact hlo
      · exact Position.le_trans hlo (hfrom m hm)
    · refine .cons (fun p hp => ?_) hsorted
      obtain ⟨m, hm, rfl⟩ := List.mem_map.1 hp
      exact hfrom m hm

/-- What is visited ends before the position where the stack ends. -/
theorem Placed.walk_stop (h : Placed lo hi ns) : ∀ n ∈ walkFrom ns, n.range.stop ≤ hi := by
  fun_induction walkFrom ns generalizing lo with
  | case1 => exact List.forall_mem_nil _
  | case2 n stack ih =>
    obtain ⟨-, hbelow, hbeside⟩ := placed_cons.1 h
    exact List.forall_mem_cons.2 ⟨hbeside.1.le, ih (hbelow.append hbeside)⟩

end Node

end PineScript
