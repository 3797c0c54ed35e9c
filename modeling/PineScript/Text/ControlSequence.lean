/-!
# Control sequences

A control sequence for a terminal is an escape character, an opening bracket, parameters made of
digits, semicolons and question marks, and an ASCII letter. `plain` takes them out of a text in one
pass: a sequence that only appears by taking out another one stays.
-/

namespace PineScript.Text

def isParameter (c : Char) : Bool := c.isDigit || c == ';' || c == '?'

/-- What is left behind a control sequence that starts here. -/
def behindSequence? : List Char → Option (List Char)
  | '\x1b' :: '[' :: rest =>
    match rest.dropWhile isParameter with
    | c :: more => if c.isAlpha then some more else none
    | [] => none
  | _ => none

theorem behindSequence?_length {cs rest : List Char} (h : behindSequence? cs = some rest) :
    rest.length < cs.length := by
  unfold behindSequence? at h
  split at h
  · rename_i body
    have shorter := (List.dropWhile_sublist (l := body) isParameter).length_le
    split at h
    · rename_i c more same
      rw [same, List.length_cons] at shorter
      split at h
      · cases h
        simp only [List.length_cons]
        omega
      · simp at h
    · simp at h
  · simp at h

def plainChars (cs : List Char) : List Char :=
  match cs with
  | [] => []
  | c :: more =>
    match h : behindSequence? (c :: more) with
    | some rest =>
      have : rest.length ≤ more.length := Nat.le_of_lt_succ (behindSequence?_length h)
      plainChars rest
    | none => c :: plainChars more
termination_by cs.length

/-- The text without its control sequences. -/
def plain (text : String) : String := String.ofList (plainChars text.toList)

theorem behindSequence?_of_ne {c : Char} (more : List Char) (h : c ≠ '\x1b') :
    behindSequence? (c :: more) = none := by
  rw [behindSequence?]
  rintro rest ⟨⟩
  exact h rfl

theorem plainChars_of_notMem {cs : List Char} (h : '\x1b' ∉ cs) : plainChars cs = cs := by
  induction cs with
  | nil => rw [plainChars]
  | cons c more ih =>
    obtain ⟨hc, hmore⟩ := List.ne_and_not_mem_of_not_mem_cons h
    have hnone := behindSequence?_of_ne more (Ne.symm hc)
    rw [plainChars]
    split
    · rename_i rest hrest
      rw [hnone] at hrest
      cases hrest
    · rw [ih hmore]

/-- Only an escape character starts what is taken out. -/
theorem plain_of_notMem {text : String} (h : '\x1b' ∉ text.toList) : plain text = text := by
  rw [plain, plainChars_of_notMem h, String.ofList_toList]

end PineScript.Text
