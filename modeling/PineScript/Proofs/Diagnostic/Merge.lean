import PineScript.Diagnostic.Merge
import PineScript.Proofs.Sorted

/-!
# Merging diagnostics

Merging does not look at what is left out: it commutes with every filter that does not tell apart
diagnostics which report the same. And it does not look at the diagnostics themselves, only at which
of them report the same and in which order they start.
-/

namespace PineScript.Diagnostic

theorem same_iff {a b : Diagnostic} :
    same a b = true ↔ a.code = b.code ∧ a.range = b.range ∧ a.message = b.message := by
  simp [same, and_assoc]

theorem distinct_sublist (ds : List Diagnostic) : (distinct ds).Sublist ds := by
  induction ds with
  | nil => exact .slnil
  | cons d more ih => exact (List.filter_sublist.trans ih).cons_cons d

theorem isOrder_startsBy : IsOrder startsBy where
  trans hab hbc :=
    decide_eq_true (Position.le_trans (of_decide_eq_true hab) (of_decide_eq_true hbc))
  total a b := by
    simp only [startsBy, decide_eq_true_eq, Position.le_def]
    omega

/-! ## Leaving diagnostics out -/

section

variable {q : Diagnostic → Bool} (hq : ∀ a b, same a b = true → q a = q b)
include hq

theorem filter_distinct (ds : List Diagnostic) :
    (distinct ds).filter q = distinct (ds.filter q) := by
  induction ds with
  | nil => rfl
  | cons d more ih =>
    have hcomm : ((distinct more).filter (!same d ·)).filter q =
        (distinct (more.filter q)).filter (!same d ·) := by
      rw [List.filter_comm, ih]
    rw [distinct, List.filter_cons, List.filter_cons, hcomm]
    split
    · rfl
    · -- What is kept reports something else than what is left out.
      rename_i hd
      refine List.filter_eq_self.2 fun e he => ?_
      rw [← ih] at he
      have hqe : q e = true := (List.mem_filter.1 he).2
      cases hsame : same d e with
      | false => rfl
      | true =>
        rw [hq d e hsame] at hd
        exact absurd hqe hd

/-- Diagnostics may be left out before they are merged or afterwards. -/
theorem filter_merge (ofParser ofRules : List Diagnostic) :
    (merge ofParser ofRules).filter q = merge (ofParser.filter q) (ofRules.filter q) := by
  rw [merge, isOrder_startsBy.filter_stableSort, filter_distinct hq, List.filter_append, merge]

end

/-! ## Diagnostics in place of others -/

section

variable {R : Diagnostic → Diagnostic → Prop}
  (hsame : ∀ a a' b b', R a a' → R b b' → same a b = same a' b')
include hsame

theorem distinct_rel {ds ds' : List Diagnostic} (h : List.Forall₂ R ds ds') :
    List.Forall₂ R (distinct ds) (distinct ds') := by
  induction h with
  | nil => exact .nil
  | cons hd _ ih =>
    refine .cons hd (List.rel_filter (fun e e' he => ?_) ih)
    simp only [hsame _ _ _ _ hd he]

theorem merge_rel (hstart : ∀ a a' b b', R a a' → R b b' → startsBy a b = startsBy a' b')
    {ps ps' rs rs' : List Diagnostic} (hps : List.Forall₂ R ps ps') (hrs : List.Forall₂ R rs rs') :
    List.Forall₂ R (merge ps rs) (merge ps' rs') :=
  stableSort_rel hstart (distinct_rel hsame (List.rel_append hps hrs))

end

end PineScript.Diagnostic
