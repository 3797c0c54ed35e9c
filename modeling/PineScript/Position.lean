/-!
# Positions and ranges

A position is a zero-based line and character; a range is the half-open span between two
positions. Positions are ordered line first. Both may come from outside, so nothing is assumed
about their sign or order.
-/

namespace PineScript

structure Position where
  line : Int
  character : Int
deriving DecidableEq, Repr, Inhabited

namespace Position

/-- The start of a document. -/
def origin : Position := ⟨0, 0⟩

def lt (p q : Position) : Prop :=
  p.line < q.line ∨ p.line = q.line ∧ p.character < q.character

def le (p q : Position) : Prop :=
  p.line < q.line ∨ p.line = q.line ∧ p.character ≤ q.character

instance : LT Position := ⟨lt⟩
instance : LE Position := ⟨le⟩

instance (p q : Position) : Decidable (p < q) :=
  inferInstanceAs (Decidable (p.line < q.line ∨ p.line = q.line ∧ p.character < q.character))

instance (p q : Position) : Decidable (p ≤ q) :=
  inferInstanceAs (Decidable (p.line < q.line ∨ p.line = q.line ∧ p.character ≤ q.character))

theorem lt_def {p q : Position} :
    p < q ↔ p.line < q.line ∨ p.line = q.line ∧ p.character < q.character := Iff.rfl

theorem le_def {p q : Position} :
    p ≤ q ↔ p.line < q.line ∨ p.line = q.line ∧ p.character ≤ q.character := Iff.rfl

theorem le_refl (p : Position) : p ≤ p := le_def.2 (by omega)

theorem le_trans {p q r : Position} (h₁ : p ≤ q) (h₂ : q ≤ r) : p ≤ r := by
  rw [le_def] at *; omega

theorem le_of_lt {p q : Position} (h : p < q) : p ≤ q := by
  rw [lt_def] at h; rw [le_def]; omega

theorem not_lt {p q : Position} : ¬ p < q ↔ q ≤ p := by
  rw [lt_def, le_def]; omega

theorem le_antisymm {p q : Position} (h₁ : p ≤ q) (h₂ : q ≤ p) : p = q := by
  cases p; cases q
  simp only [le_def] at h₁ h₂
  simp only [Position.mk.injEq]
  omega

end Position

structure Range where
  start : Position
  stop : Position
deriving DecidableEq, Repr, Inhabited

namespace Range

/-- The empty range at the start of a document. -/
def origin : Range := ⟨.origin, .origin⟩

/-- The empty range at a position. -/
def point (p : Position) : Range := ⟨p, p⟩

def contains (outer inner : Range) : Bool :=
  outer.start ≤ inner.start && inner.stop ≤ outer.stop

def isMultiline (r : Range) : Bool :=
  r.start.line < r.stop.line

/-- From the start of the first range to the end of the last. -/
def span (first last : Range) : Range := ⟨first.start, last.stop⟩

end Range

end PineScript
