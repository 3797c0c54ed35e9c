import PineScript.Parser.Program
import PineScript.Proofs.Parser.Run

/-!
# Readers that never go back

Every reader of a single token leaves an end of what it was given. What is made of such readers does
so, too.
-/

namespace PineScript.Parser

theorem elseAhead_suffix {indent : Int} {ts rest : List Token}
    (h : elseAhead indent ts = some rest) : rest <:+ ts := by
  fun_induction elseAhead indent ts with
  | case1 => cases h
  | case2 t ts _ ih => exact (ih h).trans (List.suffix_cons t ts)
  | case3 t ts _ _ => cases h; exact List.suffix_refl _
  | case4 => cases h

/-- A reader that never goes back. -/
def Onward {α : Type} (p : Parser α) : Prop := ∀ ctx ts, (p ctx ts).rest <:+ ts

namespace Onward

variable {α β : Type} {p q : Parser α}

theorem pure (a : α) : Onward (pure a) := fun _ ts => List.suffix_refl ts

theorem bind {f : α → Parser β} (hp : Onward p) (hf : ∀ a, Onward (f a)) :
    Onward (p >>= f) := by
  intro ctx ts
  have hrest := hp ctx ts
  rw [bind_apply]
  cases hrun : p ctx ts with
  | ok a rest =>
    rw [hrun] at hrest
    exact (hf a ctx rest).trans hrest
  | fault e rest =>
    rw [hrun] at hrest
    exact hrest

theorem ite {c : Prop} [Decidable c] (hp : Onward p) (hq : Onward q) :
    Onward (if c then p else q) := by
  split
  · exact hp
  · exact hq

theorem peekAt (n : Nat) : Onward (peekAt n) := fun _ ts => List.suffix_refl ts

theorem peek : Onward peek := peekAt 0

theorem advance : Onward advance := by
  intro ctx ts
  rw [advance_apply]
  exact (List.tail_suffix _).trans (List.dropWhile_suffix _)

theorem discard (hp : Onward p) : Onward (discard p : Parser PUnit) :=
  hp.bind fun _ => .pure _

theorem passLayout : Onward passLayout := fun _ _ => List.dropWhile_suffix _

theorem joinLine (spellings : List String) : Onward (joinLine spellings) := by
  intro ctx ts
  have hjoin : wp (Parser.joinLine spellings) ctx ts (fun _ rest => rest <:+ ts)
      (fun _ rest => rest <:+ ts) :=
    wp_joinLine spellings (List.suffix_refl ts) (List.dropWhile_suffix _)
  unfold wp at hjoin
  cases hrun : Parser.joinLine spellings ctx ts <;> rw [hrun] at hjoin <;> exact hjoin

theorem fail (cause : Fault.Cause) (range : Range) : Onward (fail cause range : Parser α) :=
  fun _ ts => List.suffix_refl ts

theorem failHere (cause : Fault.Cause) : Onward (failHere cause : Parser α) :=
  peek.bind fun _ => .fail _ _

theorem unexpected (wanted : Expected) : Onward (unexpected wanted : Parser α) :=
  peek.bind fun _ => .fail _ _

theorem expect (test : Token → Bool) (wanted : Expected) : Onward (expect test wanted) :=
  peek.bind fun _ => .ite .advance (.unexpected wanted)

theorem sign : Onward sign := by
  refine peek.bind fun t => ?_
  cases unaryOp? t with
  | none => exact .pure none
  | some op => exact (discard .advance).bind fun _ => .pure _

theorem atLineEnd : Onward atLineEnd := peek.bind fun _ => .pure _

theorem endOfLine : Onward endOfLine := by
  refine atLineEnd.bind fun b => ?_
  cases b with
  | false => exact .unexpected _
  | true => exact .pure _

theorem startsDeclaration : Onward startsDeclaration := by
  refine peek.bind fun t => .ite (.pure _) ((peekAt 1).bind fun second => .ite (.pure _) ?_)
  exact (peekAt 2).bind fun _ => .pure _

theorem parameterWord : Onward parameterWord :=
  peek.bind fun _ => .ite (advance.bind fun _ => .pure _) (.pure _)

theorem startsFunction : Onward startsFunction := fun _ ts => List.suffix_refl ts

theorem takeElse (indent : Int) : Onward (takeElse indent) := by
  intro ctx ts
  rw [Parser.takeElse]
  cases helse : elseAhead indent ts with
  | none => exact List.suffix_refl ts
  | some rest =>
    have htake : Onward (do Functor.discard Parser.advance; return true : Parser Bool) :=
      advance.discard.bind fun _ => .pure true
    exact (htake ctx rest).trans (elseAhead_suffix helse)

end Onward

end PineScript.Parser
