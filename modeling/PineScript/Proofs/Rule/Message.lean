import PineScript.Rule

/-!
# Numbers in messages

Some messages print numbers. Each of them tells which ones: a printed number has no space in it, so
that it is all that stands between two spaces (`Rule.cites_continuation`, `Rule.cites_shadowing`,
`Rule.cites_nesting`).
-/

namespace PineScript.Rule

/-! ## Printed numbers -/

/-- What stands behind the last space of a text tells it apart. -/
theorem append_space_inj {xs ys ds es : List Char} (hds : ' ' ∉ ds) (hes : ' ' ∉ es)
    (h : xs ++ ' ' :: ds = ys ++ ' ' :: es) : xs = ys ∧ ds = es := by
  rcases List.append_eq_append_iff.1 h with ⟨mid, hys, hmid⟩ | ⟨mid, hxs, hmid⟩
  · cases mid with
    | nil => exact ⟨by rw [hys, List.append_nil], (List.cons.inj hmid).2⟩
    | cons c mid =>
      rw [List.cons_append] at hmid
      rw [(List.cons.inj hmid).2] at hds
      exact absurd (by simp) hds
  · cases mid with
    | nil => exact ⟨by rw [hxs, List.append_nil], (List.cons.inj hmid).2.symm⟩
    | cons c mid =>
      rw [List.cons_append] at hmid
      rw [(List.cons.inj hmid).2] at hes
      exact absurd (by simp) hes

theorem isDigit_of_mem_repr {n : Nat} {c : Char} (h : c ∈ n.repr.toList) : c.isDigit = true := by
  rw [Nat.toList_repr] at h
  exact Nat.isDigit_of_mem_toDigits (by decide) (by decide) h

theorem space_notMem_repr (n : Int) : ' ' ∉ n.repr.toList := by
  have hdigits (m : Nat) : ' ' ∉ m.repr.toList := fun h =>
    absurd (isDigit_of_mem_repr h) (by decide)
  rw [Int.repr_eq_if]
  split
  · exact hdigits _
  · rw [String.toList_append, List.mem_append]
    rintro (hmem | hmem)
    · exact absurd hmem (by decide)
    · exact hdigits _ hmem

/-- A number is read back from its digits and its sign. -/
theorem repr_inj {n n' : Int} (h : n.repr = n'.repr) : n = n' := by
  have hdigits {k k' : Nat} (h : k.repr = k'.repr) : k = k' := by
    have hlist := congrArg String.toList h
    rw [Nat.toList_repr, Nat.toList_repr] at hlist
    rw [← Nat.ofDigitChars_ten_toDigits (n := k), hlist, Nat.ofDigitChars_ten_toDigits]
  -- No digit is a minus sign.
  have hsign (k k' : Nat) : k.repr ≠ "-" ++ k'.repr := fun heq =>
    absurd (isDigit_of_mem_repr (n := k) (c := '-') (by simp [heq])) (by decide)
  rw [Int.repr_eq_if, Int.repr_eq_if] at h
  split at h <;> split at h
  · have := hdigits h
    omega
  · exact absurd h (hsign _ _)
  · exact absurd h.symm (hsign _ _)
  · have := hdigits (String.append_right_inj _ |>.1 h)
    omega

theorem append_repr_inj {front behind name name' : String} {n n' : Int}
    (hbehind : behind.toList.getLast? = some ' ')
    (h : front ++ name ++ behind ++ n.repr = front ++ name' ++ behind ++ n'.repr) :
    name = name' ∧ n = n' := by
  obtain ⟨cs, hcs⟩ := List.getLast?_eq_some_iff.1 hbehind
  have hchars := congrArg String.toList h
  simp only [String.toList_append, hcs, List.append_assoc, List.singleton_append] at hchars
  simp only [← List.append_assoc] at hchars
  obtain ⟨hfront, hnumber⟩ := append_space_inj (space_notMem_repr _) (space_notMem_repr _) hchars
  refine ⟨?_, repr_inj (String.toList_inj.1 hnumber)⟩
  exact String.toList_inj.1 (List.append_cancel_left (List.append_cancel_right hfront))

/-! ## Messages -/

theorem Continuation.message_inj {indent indent' required required' : Int} :
    message indent required = message indent' required' ↔
      indent = indent' ∧ required = required' := by
  refine ⟨fun h => ?_, fun h => by rw [h.1, h.2]⟩
  obtain ⟨hindent, hrequired⟩ := append_repr_inj (by decide) h
  exact ⟨repr_inj hindent, hrequired⟩

/-- The message tells the name and the line. -/
theorem Shadowing.message_inj {name name' : String} {line line' : Int} :
    message name line = message name' line' ↔ name = name' ∧ line = line' := by
  refine ⟨fun h => ?_, fun h => by rw [h.1, h.2]⟩
  obtain ⟨hname, hline⟩ := append_repr_inj (by decide) h
  exact ⟨hname, by omega⟩

theorem Nesting.message_inj {depth depth' limit limit' : Int} :
    message depth limit = message depth' limit' ↔ depth = depth' ∧ limit = limit' := by
  refine ⟨fun h => ?_, fun h => by rw [h.1, h.2]⟩
  unfold message at h
  rw [String.append_left_inj, String.append_left_inj] at h
  obtain ⟨hdepth, hlimit⟩ := append_repr_inj (by decide) h
  exact ⟨repr_inj hdepth, hlimit⟩

/-- The numbers that the message of a rule prints. -/
def Cites (rule : Rule) (text : String) (n : Int) : Prop :=
  match rule with
  | continuation _ =>
    ∃ indent required, text = Continuation.message indent required ∧ n ∈ [indent, required]
  | shadowing => ∃ name line, text = Shadowing.message name line ∧ n ∈ [line + 1]
  | nesting _ => ∃ depth limit, text = Nesting.message depth limit ∧ n ∈ [depth, limit]
  | constantCondition | unreachable _ => False

theorem cites_continuation {minIndent indent required n : Int} :
    Cites (.continuation minIndent) (Continuation.message indent required) n ↔
      n ∈ [indent, required] := by
  refine ⟨?_, fun hn => ⟨indent, required, rfl, hn⟩⟩
  rintro ⟨indent', required', htext, hn⟩
  obtain ⟨rfl, rfl⟩ := Continuation.message_inj.1 htext
  exact hn

theorem cites_shadowing {name : String} {line n : Int} :
    Cites .shadowing (Shadowing.message name line) n ↔ n ∈ [line + 1] := by
  refine ⟨?_, fun hn => ⟨name, line, rfl, hn⟩⟩
  rintro ⟨name', line', htext, hn⟩
  obtain ⟨rfl, rfl⟩ := Shadowing.message_inj.1 htext
  exact hn

theorem cites_nesting {maxDepth depth limit n : Int} :
    Cites (.nesting maxDepth) (Nesting.message depth limit) n ↔ n ∈ [depth, limit] := by
  refine ⟨?_, fun hn => ⟨depth, limit, rfl, hn⟩⟩
  rintro ⟨depth', limit', htext, hn⟩
  obtain ⟨rfl, rfl⟩ := Nesting.message_inj.1 htext
  exact hn

end PineScript.Rule
