import Mathlib.Data.List.Forall2
import Mathlib.Data.List.Sort
import PineScript.Sorted

/-!
# Stable sorting

Elements that are tied keep their order. A sorted list does not depend on the elements that are left
out of it, nor on the names of its elements: sorting commutes with filtering, and lists whose
elements compare alike are sorted alike. Sorted whole numbers, each once, are determined by their
set.
-/

namespace PineScript

variable {α β : Type} {le : α → α → Bool}

/-- A test by which every list can be sorted. -/
structure IsOrder (le : α → α → Bool) : Prop where
  trans : ∀ {a b c}, le a b = true → le b c = true → le a c = true
  total : ∀ a b, le a b = true ∨ le b a = true

theorem insertSorted_eq_orderedInsert (a : α) (xs : List α) :
    insertSorted le a xs = xs.orderedInsert (le · · = true) a := by
  induction xs with
  | nil => rfl
  | cons b more ih => rw [insertSorted, List.orderedInsert, ih]

theorem stableSort_eq_insertionSort (xs : List α) :
    stableSort le xs = xs.insertionSort (le · · = true) := by
  induction xs with
  | nil => rfl
  | cons a more ih =>
    rw [List.insertionSort_cons, ← ih]
    exact insertSorted_eq_orderedInsert a (stableSort le more)

theorem IsOrder.pairwise_stableSort (h : IsOrder le) (xs : List α) :
    (stableSort le xs).Pairwise (le · · = true) := by
  have : Std.Total (le · · = true) := ⟨h.total⟩
  have : IsTrans α (le · · = true) := ⟨fun _ _ _ => h.trans⟩
  rw [stableSort_eq_insertionSort]
  exact List.pairwise_insertionSort _ xs

/-! ## Stability -/

theorem insertSorted_of_le {a : α} {xs : List α} (h : ∀ b ∈ xs, le a b = true) :
    insertSorted le a xs = a :: xs := by
  cases xs with
  | nil => rfl
  | cons b more => rw [insertSorted, if_pos (h b List.mem_cons_self)]

theorem stableSort_of_pairwise {xs : List α} (h : xs.Pairwise (le · · = true)) :
    stableSort le xs = xs := by
  induction xs with
  | nil => rfl
  | cons a more ih =>
    obtain ⟨ha, hmore⟩ := List.pairwise_cons.1 h
    have hsort : stableSort le (a :: more) = insertSorted le a (stableSort le more) := rfl
    rw [hsort, ih hmore, insertSorted_of_le ha]

theorem pairwise_insertSorted_of_tied {R : α → α → Prop} {a : α} {xs : List α}
    (ha : ∀ b ∈ xs, R a b) (h : xs.Pairwise fun b c => le c b = true → R b c) :
    (insertSorted le a xs).Pairwise fun b c => le c b = true → R b c := by
  induction xs with
  | nil => exact List.pairwise_singleton _ a
  | cons b more ih =>
    obtain ⟨hb, hmore⟩ := List.pairwise_cons.1 h
    obtain ⟨hab, ha⟩ := List.forall_mem_cons.1 ha
    rw [insertSorted]
    split
    · exact List.pairwise_cons.2 ⟨fun c hc _ => (List.mem_cons.1 hc).elim (· ▸ hab) (ha c), h⟩
    · -- The new element passes over no element that it is tied with.
      rename_i hpassed
      refine List.pairwise_cons.2 ⟨fun c hc hle => ?_, ih ha hmore⟩
      rcases List.mem_cons.1 ((insertSorted_perm le a more).mem_iff.1 hc) with rfl | hc
      · exact absurd hle hpassed
      · exact hb c hc hle

/-- Elements that the order does not tell apart stay in the order in which they were. -/
theorem pairwise_stableSort_of_tied {R : α → α → Prop} {xs : List α} (h : xs.Pairwise R) :
    (stableSort le xs).Pairwise fun a b => le b a = true → R a b := by
  induction xs with
  | nil => exact .nil
  | cons a more ih =>
    obtain ⟨ha, hmore⟩ := List.pairwise_cons.1 h
    refine pairwise_insertSorted_of_tied (fun b hb => ha b ?_) (ih hmore)
    exact (stableSort_perm le more).mem_iff.1 hb

/-! ## Leaving elements out -/

theorem IsOrder.filter_insertSorted (h : IsOrder le) (q : α → Bool) (a : α) {xs : List α}
    (hxs : xs.Pairwise (le · · = true)) :
    (insertSorted le a xs).filter q =
      if q a then insertSorted le a (xs.filter q) else xs.filter q := by
  induction xs with
  | nil => cases hq : q a <;> simp [insertSorted, hq]
  | cons b more ih =>
    obtain ⟨hb, hmore⟩ := List.pairwise_cons.1 hxs
    rw [insertSorted]
    split
    · -- The new element comes first, and so it does among those that are kept.
      rename_i hab
      have hall : ∀ c ∈ (b :: more).filter q, le a c = true := by
        intro c hc
        rcases List.mem_cons.1 (List.mem_filter.1 hc).1 with rfl | hc
        · exact hab
        · exact h.trans hab (hb c hc)
      rw [insertSorted_of_le hall, List.filter_cons]
    · rename_i hab
      rw [List.filter_cons, List.filter_cons, ih hmore]
      cases hqb : q b with
      | false => rfl
      | true =>
        cases hqa : q a with
        | false => rfl
        | true => simp only [insertSorted, hab, if_true, Bool.false_eq_true, if_false]

/-- Sorting what is kept is keeping what is sorted. -/
theorem IsOrder.filter_stableSort (h : IsOrder le) (q : α → Bool) (xs : List α) :
    (stableSort le xs).filter q = stableSort le (xs.filter q) := by
  induction xs with
  | nil => rfl
  | cons a more ih =>
    have hsort : stableSort le (a :: more) = insertSorted le a (stableSort le more) := rfl
    rw [hsort, h.filter_insertSorted q a (h.pairwise_stableSort more), ih, List.filter_cons]
    split <;> rfl

/-! ## Elements that compare alike -/

section

variable {le' : β → β → Bool} {R : α → β → Prop}
  (hle : ∀ a a' b b', R a a' → R b b' → le a b = le' a' b')
include hle

theorem insertSorted_rel {a : α} {a' : β} {xs : List α} {ys : List β} (ha : R a a')
    (h : List.Forall₂ R xs ys) :
    List.Forall₂ R (insertSorted le a xs) (insertSorted le' a' ys) := by
  induction h with
  | nil => exact .cons ha .nil
  | cons hb hmore ih =>
    rw [insertSorted, insertSorted, hle _ _ _ _ ha hb]
    split
    · exact .cons ha (.cons hb hmore)
    · exact .cons hb ih

theorem stableSort_rel {xs : List α} {ys : List β} (h : List.Forall₂ R xs ys) :
    List.Forall₂ R (stableSort le xs) (stableSort le' ys) := by
  induction h with
  | nil => exact .nil
  | cons ha _ ih => exact insertSorted_rel hle ha ih

end

/-! ## Whole numbers, each once -/

theorem mem_dropRepeats [BEq α] [LawfulBEq α] {a : α} {xs : List α} :
    a ∈ dropRepeats xs ↔ a ∈ xs := by
  fun_induction dropRepeats xs with
  | case1 => exact Iff.rfl
  | case2 => exact Iff.rfl
  | case3 b c more heq ih =>
    obtain rfl : b = c := eq_of_beq heq
    rw [ih, List.mem_cons (b := b) (l := b :: more), or_iff_right_of_imp]
    rintro rfl
    exact List.mem_cons_self
  | case4 b c more _ ih => rw [List.mem_cons, ih, ← List.mem_cons]

theorem pairwise_dropRepeats {xs : List Int} (h : xs.Pairwise (· ≤ ·)) :
    (dropRepeats xs).Pairwise (· < ·) := by
  fun_induction dropRepeats xs with
  | case1 => exact .nil
  | case2 a => exact List.pairwise_singleton _ a
  | case3 b c more _ ih => exact ih (List.pairwise_cons.1 h).2
  | case4 b c more hne ih =>
    obtain ⟨hb, hmore⟩ := List.pairwise_cons.1 h
    refine List.pairwise_cons.2 ⟨fun a ha => ?_, ih hmore⟩
    -- Everything behind the neighbour is no smaller than it, and the neighbour is larger.
    have hbc : b < c := lt_of_le_of_ne (hb c List.mem_cons_self) (by simpa using hne)
    rcases List.mem_cons.1 (mem_dropRepeats.1 ha) with rfl | ha
    · exact hbc
    · exact lt_of_lt_of_le hbc ((List.pairwise_cons.1 hmore).1 a ha)

theorem isOrder_int : IsOrder fun a b : Int => decide (a ≤ b) where
  trans hab hbc := decide_eq_true (Int.le_trans (of_decide_eq_true hab) (of_decide_eq_true hbc))
  total a b := (Int.le_total a b).imp decide_eq_true decide_eq_true

/-- The numbers of a list in increasing order. -/
theorem pairwise_dropRepeats_stableSort (xs : List Int) :
    (dropRepeats (stableSort (fun a b => decide (a ≤ b)) xs)).Pairwise (· < ·) :=
  pairwise_dropRepeats ((isOrder_int.pairwise_stableSort xs).imp of_decide_eq_true)

theorem mem_dropRepeats_stableSort {n : Int} {xs : List Int} :
    n ∈ dropRepeats (stableSort (fun a b => decide (a ≤ b)) xs) ↔ n ∈ xs := by
  rw [mem_dropRepeats, (stableSort_perm _ xs).mem_iff]

end PineScript
