import PineScript.Proofs.Rule.Levels
import PineScript.Rule

/-!
# Codes of rules

A rule reports under its own name only, whatever the document.
-/

namespace PineScript.Rule

theorem ConstantCondition.code_of_judge {n : Node} {d : Diagnostic} (h : judge n = some d) :
    d.code = id := by
  unfold judge at h
  split at h <;> cases h
  rfl

theorem Continuation.code_of_judgeLine {required : Int} {line : List Token} {d : Diagnostic}
    (h : judgeLine required line = some d) : d.code = id := by
  unfold judgeLine at h
  obtain ⟨first, -, h⟩ := Option.bind_eq_some_iff.1 h
  obtain ⟨last, -, h⟩ := Option.bind_eq_some_iff.1 h
  simp only at h
  split at h <;> cases h
  rfl

theorem Continuation.code_of_mem_judge {minIndent : Int} {tokens : List Token} {s : Stmt}
    {d : Diagnostic} (h : d ∈ judge minIndent tokens s) : d.code = id := by
  unfold judge at h
  simp only at h
  split at h
  · split at h
    · obtain ⟨n, -, hd⟩ := List.mem_filterMap.1 h
      exact code_of_judgeLine hd
    · cases h
  · cases h

theorem Unreachable.code_of_judge {terminators : List String} {tokens : List Token}
    {body : List Stmt} {d : Diagnostic} (h : judge terminators tokens body = some d) :
    d.code = id := by
  unfold judge at h
  obtain ⟨⟨jump, kind, dead⟩, -, h⟩ := Option.bind_eq_some_iff.1 h
  obtain ⟨first, -, h⟩ := Option.bind_eq_some_iff.1 h
  obtain ⟨last, -, h⟩ := Option.bind_eq_some_iff.1 h
  cases h
  rfl

/-- No rule has a name that the rules with their default settings do not have. -/
theorem id_ne_of_not_mem {code : String} (h : code ∉ all.map id) (rule : Rule) :
    rule.id ≠ code := by
  rintro rfl
  refine h ?_
  cases rule <;> simp [all, id]

/-- Whatever a rule reports has the rule's name as its code. -/
theorem code_of_mem_check {rule : Rule} {program : Program} {tokens : List Token} {d : Diagnostic}
    (h : d ∈ rule.check program tokens) : d.code = rule.id := by
  cases rule with
  | continuation minIndent =>
    obtain ⟨s, -, hd⟩ := List.mem_flatMap.1 h
    exact Continuation.code_of_mem_judge hd
  | shadowing =>
    obtain ⟨_, _, _, _, _, _, _, _, hd⟩ := Shadowing.exists_of_mem_check h
    exact (Shadowing.eq_of_mem_judge hd).1
  | constantCondition =>
    obtain ⟨n, -, hd⟩ := List.mem_filterMap.1 h
    exact ConstantCondition.code_of_judge hd
  | unreachable terminators =>
    obtain ⟨body, -, hd⟩ := List.mem_filterMap.1 h
    exact Unreachable.code_of_judge hd
  | nesting maxDepth =>
    obtain ⟨s, -, -, depth, hd⟩ := Nesting.exists_of_mem_check h
    exact (Nesting.eq_of_mem_judge hd).1

end PineScript.Rule
