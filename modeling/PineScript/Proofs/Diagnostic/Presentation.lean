import PineScript.Proofs.Diagnostic.Merge

/-!
# Presented diagnostics

What merging is for: of the diagnostics that report the same the first is shown, the others are not,
and all are shown from top to bottom. `Presents` says so without a word on how it is done, and there
is just one list that it holds of.

Main statement: `merge_unique_presentation`.
-/

namespace PineScript.Diagnostic

/-- What a diagnostic reports. Its severity and its source do not count. -/
def report (d : Diagnostic) : String × Range × String := (d.code, d.range, d.message)

theorem same_iff_report_eq {a b : Diagnostic} : same a b = true ↔ a.report = b.report := by
  rw [same_iff, report, report, Prod.mk.injEq, Prod.mk.injEq]

theorem same_false_iff {a b : Diagnostic} : same a b = false ↔ a.report ≠ b.report := by
  rw [← Bool.not_eq_true, same_iff_report_eq]

/-- A list that shows other diagnostics: of every report the first that makes it and nothing else,
ordered by start, and where several start together, in the order of the others. -/
structure Presents (ds shown : List Diagnostic) : Prop where
  firsts : ∀ report, shown.filter (·.report == report) = (ds.find? (·.report == report)).toList
  ordered : shown.Pairwise fun a b => a.range.start ≤ b.range.start
  stable : shown.Pairwise fun a b => a.range.start = b.range.start → ds.idxOf a < ds.idxOf b

/-! ## Uniqueness -/

namespace Presents

variable {ds shown shown' : List Diagnostic}

/-- How often a diagnostic is shown is settled by what reports the same. -/
theorem count_eq (h : Presents ds shown) (d : Diagnostic) :
    shown.count d = (ds.find? (·.report == d.report)).toList.count d := by
  rw [← h.firsts d.report, List.count_filter]
  exact beq_self_eq_true d.report

theorem perm (h : Presents ds shown) (h' : Presents ds shown') : shown.Perm shown' :=
  List.perm_iff_count.2 fun d => (h.count_eq d).trans (h'.count_eq d).symm

theorem unique (h : Presents ds shown) (h' : Presents ds shown') : shown = shown' := by
  refine List.Perm.eq_of_pairwise (fun a b _ _ hab hba => ?_) (h.ordered.and h.stable)
    (h'.ordered.and h'.stable) (h.perm h')
  -- Each would stand in front of the other.
  have hstart : a.range.start = b.range.start := Position.le_antisymm hab.1 hba.1
  exact absurd (hab.2 hstart) (Nat.lt_asymm (hba.2 hstart.symm))

end Presents

/-! ## Distinct reports -/

theorem distinct_of_same {ds : List Diagnostic} (h : ∀ a ∈ ds, ∀ b ∈ ds, same a b = true) :
    distinct ds = ds.head?.toList := by
  cases ds with
  | nil => rfl
  | cons d more =>
    have hnone : (distinct more).filter (!same d ·) = [] := by
      refine List.filter_eq_nil_iff.2 fun e he => ?_
      have hmem := List.mem_cons_of_mem d ((distinct_sublist more).mem he)
      have hsame := h d List.mem_cons_self e hmem
      simp [hsame]
    rw [distinct, hnone]
    rfl

theorem pairwise_distinct (ds : List Diagnostic) :
    (distinct ds).Pairwise fun a b => same a b = false := by
  induction ds with
  | nil => exact .nil
  | cons d more ih =>
    refine List.pairwise_cons.2 ⟨fun e he => ?_, ih.filter _⟩
    simpa using (List.mem_filter.1 he).2

theorem distinct_of_pairwise {ds : List Diagnostic} (h : ds.Pairwise fun a b => same a b = false) :
    distinct ds = ds := by
  induction ds with
  | nil => rfl
  | cons d more ih =>
    obtain ⟨hd, hmore⟩ := List.pairwise_cons.1 h
    rw [distinct, ih hmore, List.filter_eq_self.2 fun e he => by rw [hd e he, Bool.not_false]]

/-- What is kept stands in the order of first appearance. -/
theorem pairwise_idxOf_distinct (ds : List Diagnostic) :
    (distinct ds).Pairwise fun a b => ds.idxOf a < ds.idxOf b := by
  induction ds with
  | nil => exact .nil
  | cons d more ih =>
    have hother : ∀ e ∈ (distinct more).filter (!same d ·),
        (d :: more).idxOf e = more.idxOf e + 1 := by
      intro e he
      refine List.idxOf_cons_ne more fun heq => ?_
      subst heq
      simp [same_iff.2 ⟨rfl, rfl, rfl⟩] at he
    refine List.pairwise_cons.2 ⟨fun e he => ?_, (ih.filter _).imp_of_mem fun ha hb hlt => ?_⟩
    · rw [List.idxOf_cons_self, hother e he]
      exact Nat.succ_pos _
    · rw [hother _ ha, hother _ hb]
      exact Nat.succ_lt_succ hlt

/-! ## Merging -/

theorem filter_report_merge (ofParser ofRules : List Diagnostic)
    (report : String × Range × String) :
    (merge ofParser ofRules).filter (·.report == report) =
      ((ofParser ++ ofRules).find? (·.report == report)).toList := by
  have hq : ∀ a b, same a b = true → (a.report == report) = (b.report == report) :=
    fun a b h => by rw [same_iff_report_eq.1 h]
  have hsame : ∀ a ∈ (ofParser ++ ofRules).filter (·.report == report),
      ∀ b ∈ (ofParser ++ ofRules).filter (·.report == report), same a b = true := by
    intro a ha b hb
    have hra := eq_of_beq (List.mem_filter.1 ha).2
    have hrb := eq_of_beq (List.mem_filter.1 hb).2
    exact same_iff_report_eq.2 (hra.trans hrb.symm)
  rw [filter_merge hq, merge, ← List.filter_append, distinct_of_same hsame, List.head?_filter]
  refine stableSort_of_pairwise ?_
  cases (ofParser ++ ofRules).find? (·.report == report) with
  | none => exact .nil
  | some d => exact List.pairwise_singleton _ d

theorem presents_merge (ofParser ofRules : List Diagnostic) :
    Presents (ofParser ++ ofRules) (merge ofParser ofRules) where
  firsts := filter_report_merge ofParser ofRules
  ordered := (isOrder_startsBy.pairwise_stableSort _).imp of_decide_eq_true
  stable := by
    refine (pairwise_stableSort_of_tied (pairwise_idxOf_distinct _)).imp fun h hstart => h ?_
    exact decide_eq_true (hstart ▸ Position.le_refl _)

/-- Merging what was merged changes nothing. -/
theorem merge_merge_nil (ofParser ofRules : List Diagnostic) :
    merge (merge ofParser ofRules) [] = merge ofParser ofRules := by
  have hsame : ∀ {a b : Diagnostic}, same a b = false → same b a = false :=
    fun h => same_false_iff.2 (same_false_iff.1 h).symm
  have hdistinct : (merge ofParser ofRules).Pairwise fun a b => same a b = false :=
    (stableSort_perm _ _).symm.pairwise (pairwise_distinct _) hsame
  rw [merge, List.append_nil, distinct_of_pairwise hdistinct]
  exact stableSort_of_pairwise (isOrder_startsBy.pairwise_stableSort _)

/-- The merged list is the one that shows, of every report, the first diagnostic that makes it,
ordered by start and, where several start together, in the order in which they came. To merge it
again changes nothing, and codes may be left out before or afterwards. -/
theorem merge_unique_presentation (ofParser ofRules : List Diagnostic) :
    (∀ shown, shown = merge ofParser ofRules ↔ Presents (ofParser ++ ofRules) shown) ∧
    merge (merge ofParser ofRules) [] = merge ofParser ofRules ∧
    ∀ keep : String → Bool,
      (merge ofParser ofRules).filter (keep ·.code) =
        merge (ofParser.filter (keep ·.code)) (ofRules.filter (keep ·.code)) := by
  refine ⟨fun shown => ⟨?_, fun h => h.unique (presents_merge ofParser ofRules)⟩,
    merge_merge_nil ofParser ofRules, fun keep => filter_merge (fun a b h => ?_) ofParser ofRules⟩
  · rintro rfl
    exact presents_merge ofParser ofRules
  · exact congrArg keep (same_iff.1 h).1

end PineScript.Diagnostic
