/-!
# Stable sorting

Sorting by insertion: elements that the order does not tell apart keep their places.
-/

namespace PineScript

/-- Puts an element in front of the first one that it does not exceed. -/
def insertSorted (le : α → α → Bool) (a : α) : List α → List α
  | [] => [a]
  | b :: more => if le a b then a :: b :: more else b :: insertSorted le a more

def stableSort (le : α → α → Bool) (xs : List α) : List α := xs.foldr (insertSorted le) []

/-- Drops every element that equals its neighbour on the right. -/
def dropRepeats [BEq α] : List α → List α
  | [] => []
  | [a] => [a]
  | a :: b :: more => if a == b then dropRepeats (b :: more) else a :: dropRepeats (b :: more)

/-- The texts in the order of their code points, each once. -/
def sortedTexts (texts : List String) : List String :=
  dropRepeats (stableSort (fun a b => decide (a ≤ b)) texts)

theorem insertSorted_perm (le : α → α → Bool) (a : α) (xs : List α) :
    (insertSorted le a xs).Perm (a :: xs) := by
  induction xs with
  | nil => exact .refl _
  | cons b more ih =>
    rw [insertSorted]
    split
    · exact .refl _
    · exact (ih.cons b).trans (.swap a b more)

theorem stableSort_perm (le : α → α → Bool) (xs : List α) : (stableSort le xs).Perm xs := by
  induction xs with
  | nil => exact .refl _
  | cons a more ih => exact (insertSorted_perm le a _).trans (ih.cons a)

end PineScript
