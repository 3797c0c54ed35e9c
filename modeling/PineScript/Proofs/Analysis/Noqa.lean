import PineScript.Analysis
import PineScript.Proofs.Diagnostic.Merge
import PineScript.Proofs.Lexer.Edited
import PineScript.Proofs.Parser.PaddedScript
import PineScript.Proofs.Rule.Layout

/-!
# Silencing a line

Main statement: a comment `// pine-lint: noqa` appended to a line takes the diagnostics that start
on this line away, and changes nothing else (`analyze_appended_noqa`). The parser reads the same
program, but faults at the end of the line or of the input are reported elsewhere on the line; the
rules report the same.
-/

namespace PineScript

open Rule (SameCode)
open Rule.Continuation (onLine)

/-- Tokens, and the same with a comment behind the code of line `n`. The break that closes the line
makes room for it. -/
inductive Commented (n : Int) (c : Token) : List Token → List Token → Prop
  | intro {front own breaks behind : List Token} {r : Range} :
      c.kind = .comment → c.indent = none → c.range.On n →
      own ≠ [] → (∀ t ∈ own, t.range.On n) →
      (∀ t ∈ breaks, t.kind = .newline ∧ t.range.On n) → r.On n → (breaks = [] → behind = []) →
      (∀ t ∈ front ++ behind, t.range.start.line ≠ n) →
      Commented n c (front ++ (own ++ (breaks ++ behind)))
        (front ++ (own ++ c :: (breaks.map (·.moveTo r) ++ behind)))

/-! ## The program -/

/-- What is on line `n` may stand elsewhere on this line, and so may the end of the input. -/
def Variation.withinLine (n : Int) {finish finish' : Position}
    (h : finish = finish' ∨ finish.line = n ∧ finish'.line = n) : Variation where
  ending := .same
  near r r' := r = r' ∨ r.start.line = n ∧ r'.start.line = n
  near_refl _ := .inl rfl
  finish p := if p = finish then finish' else p
  near_finish _ p := by
    split
    · next hp => exact hp ▸ h.imp (congrArg Range.point) id
    · exact .inl rfl

theorem Varied.moveTo {n : Int} {finish finish' : Position}
    (h : finish = finish' ∨ finish.line = n ∧ finish'.line = n) {breaks : List Token} {r : Range}
    (hbreaks : ∀ t ∈ breaks, t.kind = .newline ∧ t.range.On n) (hr : r.On n)
    (behind : List Token) :
    Varied (.withinLine n h) (breaks ++ behind) (breaks.map (·.moveTo r) ++ behind) := by
  induction breaks with
  | nil => exact .refl rfl behind
  | cons t breaks ih =>
    obtain ⟨⟨ht, hon⟩, hbreaks⟩ := List.forall_mem_cons.1 hbreaks
    exact .newline ht (.inr ⟨hon.1, hr.1⟩) (ih hbreaks)

theorem line_finishOf {n : Int} {ts : List Token} (hne : ts ≠ []) (h : ∀ t ∈ ts, t.range.On n) :
    (finishOf ts).line = n := by
  rw [finishOf, List.getLast?_eq_some_getLast hne]
  exact (h _ (List.getLast_mem hne)).2

theorem on_moveTo {n : Int} {r : Range} (ts : List Token) (h : r.On n) :
    ∀ t ∈ ts.map (·.moveTo r), t.range.On n := by
  intro t ht
  obtain ⟨u, -, rfl⟩ := List.mem_map.1 ht
  exact h

theorem filter_line_of_on {n m : Int} {ts : List Token} (h : ∀ t ∈ ts, t.range.On n) (hm : n ≠ m) :
    ts.filter (·.range.start.line == m) = [] := by
  refine List.filter_eq_nil_iff.2 fun t ht => ?_
  rwa [(h t ht).1, beq_iff_eq]

namespace Commented

variable {n : Int} {c : Token} {ts ts' : List Token}

theorem finish (h : Commented n c ts ts') :
    finishOf ts = finishOf ts' ∨ (finishOf ts).line = n ∧ (finishOf ts').line = n := by
  obtain ⟨-, -, hcomment, hne, hown, hbreaks, hr, -, -⟩ := h
  rename_i front own breaks behind r
  -- The input ends with the line or with what is behind it.
  by_cases hbehind : behind = []
  · subst hbehind
    refine .inr ⟨?_, ?_⟩
    · rw [← Parser.finishOf_of_suffix (List.suffix_append _ _) (by simp [hne]), List.append_nil]
      refine line_finishOf (by simp [hne]) ?_
      exact List.forall_mem_append.2 ⟨hown, fun t ht => (hbreaks t ht).2⟩
    · rw [← Parser.finishOf_of_suffix (List.suffix_append _ _) (by simp [hne]), List.append_nil]
      refine line_finishOf (by simp [hne]) ?_
      exact List.forall_mem_append.2 ⟨hown, List.forall_mem_cons.2 ⟨hcomment, on_moveTo breaks hr⟩⟩
  · left
    simp only [← List.append_assoc, ← List.cons_append]
    rw [← Parser.finishOf_of_suffix (List.suffix_append _ _) hbehind,
      ← Parser.finishOf_of_suffix (List.suffix_append _ _) hbehind]

theorem padded (h : Commented n c ts ts') : Varied (.withinLine n h.finish) ts ts' := by
  generalize h.finish = hfinish
  obtain ⟨hkind, hindent, -, -, -, hbreaks, hr, hclosed, -⟩ := h
  rename_i front own breaks behind r
  refine .append_left (.append_left (.comment rfl hkind hindent ?_ (.moveTo _ hbreaks hr behind)) own)
    front
  intro t ht
  cases breaks with
  | nil =>
    rw [hclosed rfl] at ht
    cases ht
  | cons b breaks =>
    obtain rfl := Option.some.inj ht
    exact (hbreaks b List.mem_cons_self).1

theorem parse (h : Commented n c ts ts') :
    (Program.parse ts').1.body = (Program.parse ts).1.body ∧
      List.Forall₂ (Fault.Like (.withinLine n h.finish)) (Program.parse ts).2
        (Program.parse ts').2 :=
  parse_padded h.padded rfl (if_pos rfl).symm

/-! ## The rules -/

theorem head?_onLine (h : Commented n c ts ts') (m : Int) :
    (onLine ts' m).head? = (onLine ts m).head? := by
  obtain ⟨-, -, hcomment, hne, hown, hbreaks, hr, -, -⟩ := h
  rename_i front own breaks behind r
  rw [← List.cons_append, onLine, onLine]
  simp only [List.filter_append, List.head?_append]
  congr 1
  by_cases hm : n = m
  · -- The line has a token of its own in front of the comment.
    subst hm
    obtain ⟨t, own, rfl⟩ := List.exists_cons_of_ne_nil hne
    rw [List.filter_cons_of_pos (by simpa using (hown t List.mem_cons_self).1)]
    rfl
  · have hmoved : ∀ t ∈ c :: breaks.map (·.moveTo r), t.range.On n :=
      List.forall_mem_cons.2 ⟨hcomment, on_moveTo breaks hr⟩
    rw [filter_line_of_on hmoved hm, filter_line_of_on (fun t ht => (hbreaks t ht).2) hm]

theorem sameCode (h : Commented n c ts ts') : SameCode ts ts' :=
  ⟨h.padded.codeOf_eq rfl, fun m _ => h.head?_onLine m⟩

theorem check (h : Commented n c ts ts') (hts : Token.InTurn ts) (hts' : Token.InTurn ts')
    (rule : Rule) :
    rule.check (Program.parse ts').1 ts' = rule.check (Program.parse ts).1 ts := by
  rw [rule.check_of_body h.parse.1,
    rule.check_of_sameCode h.sameCode hts hts' fun s _ => h.head?_onLine _]

/-! ## Suppression -/

theorem comments (h : Commented n c ts ts') :
    ∃ us vs, Suppression.comments ts = us ++ vs ∧ Suppression.comments ts' = us ++ c :: vs ∧
      ∀ t ∈ vs, t.range.start.line ≠ n := by
  obtain ⟨hkind, -, -, -, -, hbreaks, -, -, hothers⟩ := h
  rename_i front own breaks behind r
  have hnone : ∀ ts : List Token, (∀ t ∈ ts, t.kind = .newline) → Suppression.comments ts = [] := by
    intro ts hts
    refine List.filter_eq_nil_iff.2 fun t ht => ?_
    simp [hts t ht]
  have hmoved : ∀ t ∈ breaks.map (·.moveTo r), t.kind = .newline := by
    intro t ht
    obtain ⟨b, hb, rfl⟩ := List.mem_map.1 ht
    exact (hbreaks b hb).1
  refine ⟨Suppression.comments front ++ Suppression.comments own, Suppression.comments behind,
    ?_, ?_, fun t ht => hothers t (List.mem_append_right _ (List.mem_of_mem_filter ht))⟩
  · have hbreaks := hnone breaks fun t ht => (hbreaks t ht).1
    simp only [Suppression.comments, List.filter_append] at hbreaks ⊢
    rw [hbreaks, List.nil_append, List.append_assoc]
  · have hmoved := hnone _ hmoved
    simp only [Suppression.comments, List.filter_append, List.filter_cons, hkind] at hmoved ⊢
    simp [hmoved]

theorem ofFile (h : Commented n c ts ts')
    (hc : Suppression.directive? Suppression.fileWord c.text.toList = none) :
    Suppression.ofFile ts' = Suppression.ofFile ts := by
  obtain ⟨us, vs, hus, hvs, -⟩ := h.comments
  rw [Suppression.ofFile, Suppression.ofFile, hus, hvs, List.filterMap_append,
    List.filterMap_append, List.filterMap_cons, hc]

theorem ofLine_of_ne (h : Commented n c ts ts') (hon : c.range.start.line = n) {m : Int}
    (hm : m ≠ n) : Suppression.ofLine ts' m = Suppression.ofLine ts m := by
  obtain ⟨us, vs, hus, hvs, -⟩ := h.comments
  rw [Suppression.ofLine, Suppression.ofLine, hus, hvs, List.filter_append, List.filter_append,
    List.filter_cons_of_neg (by simpa [hon] using hm.symm)]

theorem ofLine_self (h : Commented n c ts ts') (hon : c.range.start.line = n)
    (hc : Suppression.directive? Suppression.lineWord c.text.toList = some .everything) :
    Suppression.ofLine ts' n = some .everything := by
  obtain ⟨us, vs, -, hvs, hothers⟩ := h.comments
  have hnone : vs.filter (·.range.start.line == n) = [] :=
    List.filter_eq_nil_iff.2 fun t ht => by simpa using hothers t ht
  rw [Suppression.ofLine, hvs, List.filter_append, List.filter_cons_of_pos (by simp [hon]), hnone,
    List.filterMap_append, List.filterMap_cons, hc]
  exact List.getLast?_concat

/-- With a comment that silences its line, a diagnostic stays if it did before and starts elsewhere. -/
theorem apply (h : Commented n c ts ts') (hon : c.range.start.line = n)
    (hfile : Suppression.directive? Suppression.fileWord c.text.toList = none)
    (hline : Suppression.directive? Suppression.lineWord c.text.toList = some .everything)
    (ds : List Diagnostic) :
    Suppression.apply ts' ds =
      Suppression.apply ts (ds.filter (·.range.start.line != n)) := by
  rw [Suppression.apply, Suppression.apply, List.filter_filter]
  refine List.filter_congr fun d _ => ?_
  rw [h.ofFile hfile]
  by_cases hd : d.range.start.line = n
  · have hall : Suppression.silences (some .everything) d.code = true := rfl
    rw [hd, h.ofLine_self hon hline, hall, Bool.or_true, bne_self_eq_false, Bool.and_false]
    rfl
  · rw [h.ofLine_of_ne hon hd, bne_iff_ne.2 hd, Bool.and_true]

end Commented

/-- Off line `n`, the same faults are reported. -/
theorem filter_faults {n : Int} {finish finish' : Position}
    {h : finish = finish' ∨ finish.line = n ∧ finish'.line = n} {es es' : List Fault}
    (hes : List.Forall₂ (Fault.Like (.withinLine n h)) es es') :
    (es'.map Fault.diagnostic).filter (·.range.start.line != n) =
      (es.map Fault.diagnostic).filter (·.range.start.line != n) := by
  induction hes with
  | nil => rfl
  | @cons e e' es es' he _ ih =>
    rw [List.map_cons, List.map_cons, List.filter_cons, List.filter_cons, ih]
    obtain ⟨hcause, hrange | ⟨hline, hline'⟩⟩ := he
    · have hsame : e'.diagnostic = e.diagnostic := by
        rw [Fault.diagnostic, Fault.diagnostic, Fault.message, Fault.message, hcause, hrange]
      rw [hsame]
    · simp [Fault.diagnostic, hline, hline']

/-! ## The text -/

namespace Lexer

/-- A comment behind a space at the end of a line with code. -/
theorem commented_documentTokens (front : List (List Char)) {line : List Char}
    (behind : List (List Char)) (hne : lineTokens front.length line ≠ [])
    (hlast : ∀ t ∈ (lineTokens front.length line).getLast?, ¬Swallows t.kind t.text)
    (text : List Char) :
    Commented front.length
      (place front.length .comment (line.length + 1) ('/' :: '/' :: text))
      (documentTokens 0 (front ++ line :: behind))
      (documentTokens 0 (front ++ (line ++ ' ' :: '/' :: '/' :: text) :: behind)) := by
  have hmoved : (if !behind.isEmpty then
        [breakToken front.length (line ++ ' ' :: '/' :: '/' :: text)] else []) =
      (if !behind.isEmpty then [breakToken front.length line] else []).map
        (·.moveTo (breakToken front.length (line ++ ' ' :: '/' :: '/' :: text)).range) := by
    split <;> rfl
  rw [documentTokens_split, documentTokens_split, markedLine_append_comment hne hlast,
    markedLine_of_ne_nil hne, List.append_assoc, List.append_assoc, List.cons_append, hmoved]
  refine .intro rfl rfl ⟨rfl, rfl⟩ ?_ ?_ ?_ ⟨rfl, rfl⟩ ?_ ?_
  · intro hnil
    cases hts : lineTokens front.length line with
    | nil => exact hne hts
    | cons t ts =>
      rw [hts] at hnil
      cases hnil
  · intro t ht
    have hline : markedLine front.length line false =
        markFirst (indentOf line) (lineTokens front.length line) := by
      rw [markedLine_of_ne_nil hne]
      exact List.append_nil _
    exact on_of_mem_markedLine (hline ▸ ht)
  · intro t ht
    obtain ⟨-, ht⟩ := List.mem_ite_nil_right.1 ht
    rw [List.mem_singleton.1 ht]
    exact ⟨rfl, rfl, rfl⟩
  · intro hopen
    cases behind with
    | nil => rfl
    | cons next behind => cases hopen
  · intro t ht
    rcases List.mem_append.1 ht with ht | ht
    · obtain ⟨m, hm, hon⟩ := on_of_mem_closedLines ht
      rw [hon.1]
      omega
    · have hline := le_line_of_mem_documentTokens ht
      omega

end Lexer

theorem commented_tokenize {source : String} {n : Nat} {last : Token}
    (hlast : ((onLine (tokenize source) n).filter (·.kind != .newline)).getLast? = some last)
    (hfree : ¬Lexer.Swallows last.kind last.text) {text : List Char}
    (htext : ∀ c ∈ text, c ≠ '\r' ∧ c ≠ '\n') :
    ∃ column, Commented n (Lexer.place n .comment column ('/' :: '/' :: text)) (tokenize source)
      (tokenize (String.ofList
        (Text.appendToLine (' ' :: '/' :: '/' :: text) n source.toList))) := by
  have hn : n < (Text.lines source.toList).length := by
    have hmem := List.mem_filter.1 (List.mem_of_mem_filter (List.mem_of_getLast? hlast))
    obtain ⟨m, -, hm, hon⟩ := Lexer.on_of_mem_documentTokens hmem.1
    have hline := beq_iff_eq.1 hmem.2
    rw [hon.1] at hline
    omega
  have hsuffix : ∀ c ∈ ' ' :: '/' :: '/' :: text, c ≠ '\r' ∧ c ≠ '\n' := by
    simpa using htext
  obtain ⟨front, line, behind, hlines, rfl, hedited⟩ :=
    List.exists_of_modify (· ++ ' ' :: '/' :: '/' :: text) hn
  have hown : onLine (tokenize source) front.length =
      Lexer.markedLine front.length line (front.length + 1 < (Text.lines source.toList).length) := by
    have hline := Lexer.filter_line_documentTokens hn 0
    rw [List.getElem_of_append hlines rfl] at hline
    simpa [onLine, tokenize] using hline
  rw [hown] at hlast
  obtain ⟨hne, hsame⟩ := Lexer.last_of_markedLine hlast
  refine ⟨line.length + 1, ?_⟩
  rw [tokenize, tokenize, String.toList_ofList, Text.lines_appendToLine hsuffix, hedited, hlines]
  refine Lexer.commented_documentTokens front behind hne (fun t ht => ?_) text
  rwa [(hsame t ht).1, (hsame t ht).2]

/-- A comment appended to a line with code that asks for silence takes away the diagnostics that
start on this line, and only these. -/
theorem analyze_appended_noqa (rules : List Rule) (source : String) (n : Nat) (last : Token)
    (hlast : ((onLine (tokenize source) n).filter (·.kind != .newline)).getLast? = some last)
    (hcomment : last.kind ≠ .comment)
    (hquote : ¬(last.kind = .unknown ∧ Fault.opensQuote last.text = true)) :
    analyze rules
        (String.ofList (Text.appendToLine " // pine-lint: noqa".toList n source.toList)) =
      (analyze rules source).filter (·.range.start.line != (n : Int)) := by
  have htext : " // pine-lint: noqa".toList = ' ' :: '/' :: '/' :: " pine-lint: noqa".toList := by
    decide
  have hbreaks : (" pine-lint: noqa".toList.all fun c => c ≠ '\r' ∧ c ≠ '\n') = true := by
    decide
  obtain ⟨column, h⟩ := commented_tokenize hlast (not_or.2 ⟨hcomment, hquote⟩)
    fun c hc => of_decide_eq_true (List.all_eq_true.1 hbreaks c hc)
  rw [← htext] at h
  have hfile : Suppression.directive? Suppression.fileWord
      (String.ofList ('/' :: '/' :: " pine-lint: noqa".toList)).toList = none := by
    decide +kernel
  have hline : Suppression.directive? Suppression.lineWord
      (String.ofList ('/' :: '/' :: " pine-lint: noqa".toList)).toList = some .everything := by
    decide +kernel
  have hsame : ∀ a b : Diagnostic, a.same b = true →
      (a.range.start.line != (n : Int)) = (b.range.start.line != (n : Int)) :=
    fun a b hab => by rw [(Diagnostic.same_iff.1 hab).2.1]
  have hfaults := filter_faults h.parse.2
  have hrules := h.check (Token.inTurn_tokenize _) (Token.inTurn_tokenize _)
  simp only [analyze, hrules]
  -- Merging commutes with the filter, under which the faults are the same.
  rw [h.apply rfl hfile hline, Diagnostic.filter_merge hsame, hfaults,
    ← Diagnostic.filter_merge hsame]
  simp only [Suppression.apply]
  rw [List.filter_comm]

/-- The quote that nothing closes is reported on its own line; the shadowed name is not any more. -/
theorem analyze_appended_noqa_shadowing :
    (analyze Rule.all "x = 1\r\nif x\r\n    x = 2\r\ny = \"").map (·.range.start.line) = [2, 3] ∧
    (analyze Rule.all "x = 1\r\nif x\r\n    x = 2 // pine-lint: noqa\r\ny = \"") =
      (analyze Rule.all "x = 1\r\nif x\r\n    x = 2\r\ny = \"").filter
        (·.range.start.line != 2) := by
  refine ⟨by decide +kernel, ?_⟩
  have hsource : String.ofList (Text.appendToLine " // pine-lint: noqa".toList 2
      "x = 1\r\nif x\r\n    x = 2\r\ny = \"".toList) =
        "x = 1\r\nif x\r\n    x = 2 // pine-lint: noqa\r\ny = \"" := by
    decide +kernel
  rw [← hsource]
  exact analyze_appended_noqa Rule.all _ 2 ⟨.number, "2", ⟨⟨2, 8⟩, ⟨2, 9⟩⟩, none⟩
    (by decide +kernel) (by decide) (by decide)

end PineScript
