import PineScript.Sorted

/-!
# Schedules

The bookkeeping of passes over documents: a document has at most one pass that counts, the latest.
Passes are numbered in the order in which they are submitted. A pass that was replaced, or whose
document was discarded, is cancelled.
-/

namespace PineScript

structure Schedule where
  /-- The pass that counts for each document that has one. -/
  pending : List (String × Nat)
  cancelled : List Nat
  /-- How many passes were submitted. -/
  submitted : Nat

namespace Schedule

def empty : Schedule := ⟨[], [], 0⟩

def pass? (s : Schedule) (uri : String) : Option Nat := s.pending.lookup uri

def isCancelled (s : Schedule) (pass : Nat) : Bool := s.cancelled.contains pass

/-- Whether a pass is still the one that counts for its document. -/
def isCurrent (s : Schedule) (uri : String) (pass : Nat) : Bool :=
  s.pass? uri == some pass && !s.isCancelled pass

def drop (s : Schedule) (uri : String) : List (String × Nat) := s.pending.filter (·.1 ≠ uri)

/-- A new pass for a document, which replaces the present one. -/
def submit (s : Schedule) (uri : String) : Schedule where
  pending := s.drop uri ++ [(uri, s.submitted)]
  cancelled := s.cancelled ++ (s.pass? uri).toList
  submitted := s.submitted + 1

/-- Cancels the pass for a document. -/
def discard (s : Schedule) (uri : String) : Schedule :=
  { s with pending := s.drop uri, cancelled := s.cancelled ++ (s.pass? uri).toList }

/-- Cancels all passes. -/
def shutdown (s : Schedule) : Schedule :=
  { s with pending := [], cancelled := s.cancelled ++ s.pending.map (·.2) }

/-- Forgets a pass that has ended, unless another one has taken its place. -/
def finish (s : Schedule) (uri : String) (pass : Nat) : Schedule :=
  if s.pass? uri = some pass then { s with pending := s.drop uri } else s

/-- The documents with a pass that counts. -/
def waiting (s : Schedule) : List String := sortedTexts (s.pending.map (·.1))

/-! ## The pass that counts -/

theorem isCurrent_iff {s : Schedule} {uri : String} {pass : Nat} :
    s.isCurrent uri pass = true ↔ s.pass? uri = some pass ∧ s.isCancelled pass = false := by
  simp [isCurrent]

theorem mem_drop {s : Schedule} {uri : String} {x : String × Nat} (h : x ∈ s.drop uri) :
    x ∈ s.pending :=
  (List.mem_filter.1 h).1

theorem lookup_drop (s : Schedule) (uri other : String) :
    (s.drop uri).lookup other = if other = uri then none else s.pass? other := by
  unfold drop pass?
  induction s.pending with
  | nil => simp
  | cons x more ih =>
    obtain ⟨key, pass⟩ := x
    by_cases hkey : key = uri
    · rw [List.filter_cons_of_neg (by simp [hkey]), ih, List.lookup_cons]
      split
      · rfl
      · rename_i hother
        rw [beq_false_of_ne (by rwa [hkey])]
    · rw [List.filter_cons_of_pos (by simp [hkey]), List.lookup_cons, List.lookup_cons, ih]
      by_cases hother : other = key
      · simp [hother, hkey]
      · simp [beq_false_of_ne hother]

theorem pass?_submit (s : Schedule) (uri other : String) :
    (s.submit uri).pass? other = if other = uri then some s.submitted else s.pass? other := by
  unfold pass? submit
  rw [List.lookup_append, lookup_drop]
  by_cases hother : other = uri
  · simp [hother]
  · have hlast : [(uri, s.submitted)].lookup other = none := by
      simp [List.lookup_cons, beq_false_of_ne hother]
    rw [if_neg hother, if_neg hother, hlast, Option.or_none]
    rfl

theorem pass?_discard (s : Schedule) (uri other : String) :
    (s.discard uri).pass? other = if other = uri then none else s.pass? other :=
  lookup_drop s uri other

theorem pass?_finish (s : Schedule) (uri other : String) (pass : Nat) :
    (s.finish uri pass).pass? other =
      if other = uri ∧ s.pass? uri = some pass then none else s.pass? other := by
  unfold finish
  by_cases hpass : s.pass? uri = some pass
  · simp only [hpass, ↓reduceIte, and_true]
    exact lookup_drop s uri other
  · simp [hpass]

theorem isCancelled_submit {s : Schedule} {uri : String} {pass : Nat} :
    (s.submit uri).isCancelled pass = true ↔
      s.isCancelled pass = true ∨ s.pass? uri = some pass := by
  simp [isCancelled, submit]

theorem isCancelled_discard {s : Schedule} {uri : String} {pass : Nat} :
    (s.discard uri).isCancelled pass = true ↔
      s.isCancelled pass = true ∨ s.pass? uri = some pass := by
  simp [isCancelled, discard]

theorem isCancelled_shutdown {s : Schedule} {pass : Nat} :
    s.shutdown.isCancelled pass = true ↔
      s.isCancelled pass = true ∨ ∃ uri, (uri, pass) ∈ s.pending := by
  simp [isCancelled, shutdown]

theorem isCancelled_finish (s : Schedule) (uri : String) (pass other : Nat) :
    (s.finish uri pass).isCancelled other = s.isCancelled other := by
  unfold finish
  split <;> rfl

end Schedule

end PineScript
