import Mathlib.Data.List.Flatten
import PineScript.Proofs.Grammar.Frame
import PineScript.Proofs.Grammar.Heads
import PineScript.Proofs.Grammar.Script
import PineScript.Proofs.Lexer.Rows
import PineScript.Proofs.Rule.Layout

/-!
# Reports of continuation lines

A line of the script may go over several physical lines. Of these the rule judges the ones that the
range of the header runs over: main statement `Continuation.check_reports_continuations`. The range
leaves out parentheses and the end of a list of parameters, and what stands there is not judged.
-/

namespace PineScript.Rule.Continuation

open Token (codeOf Fills)

/-- The code of a line of the script, parted into what the range of its header runs over and what
stands before and behind that. -/
structure Extent where
  head : Head
  before : List Token
  own : List Token
  after : List Token

def Extent.code (line : Extent) : List Token := line.before ++ (line.own ++ line.after)

/-- The code spells the line, and the range of the header leaves out only what it may. -/
structure Extent.Valid (line : Extent) : Prop where
  spelled : line.head.Spelled line.code
  leading : ∀ t ∈ line.before, Grammar.Leading t
  trailing : ∀ t ∈ line.after, Grammar.Trailing t
  fills : ∀ s, line.head.stmt? = some s → Fills s.header line.own

/-- The indentation of a physical line. -/
def indentAt (tokens : List Token) (n : Int) : Int :=
  ((onLine tokens n).head?.bind (·.indent)).getD 0

/-- Whether a physical line begins with the token, with less indentation than is required. -/
def fallsShort (required : Int) (t : Token) : Bool :=
  t.isLineLeading && decide (t.indent.getD 0 < required)

/-- The report on the physical line that begins with the token. -/
def report (tokens : List Token) (required : Int) (t : Token) : Diagnostic where
  code := id
  message := message (t.indent.getD 0) required
  severity := .error
  range := t.range.span ((codeOf (onLine tokens t.range.start.line)).getLast?.getD t).range

/-- The reports on the code that a header's range runs over. -/
def reportsOn (minIndent : Int) (tokens : List Token) : List Token → List Diagnostic
  | [] => []
  | first :: further =>
    let required := indentAt tokens first.range.start.line + minIndent
    (further.filter (fallsShort required)).map (report tokens required)

/-- The reports on a line. Neither a plain `else` nor what could not be read is judged. -/
def Extent.reports (minIndent : Int) (tokens : List Token) (line : Extent) : List Diagnostic :=
  if line.head.stmt?.any isJudged then reportsOn minIndent tokens line.own else []

variable {minIndent required : Int} {tokens : List Token}

/-! ## Physical lines -/

/-- A physical line that begins with code. -/
theorem judgeLine_cons {t : Token} {more : List Token}
    (hon : onLine tokens t.range.start.line = t :: more) (hcode : t.isLayout = false) :
    judgeLine required (onLine tokens t.range.start.line) =
      if required ≤ t.indent.getD 0 then none else some (report tokens required t) := by
  obtain ⟨last, hlast⟩ : ∃ last, (codeOf (t :: more)).getLast? = some last := by
    rw [Token.codeOf_cons_of_code hcode]
    exact ⟨_, List.getLast?_eq_some_getLast (List.cons_ne_nil _ _)⟩
  have hspan : report tokens required t = {
      code := id
      message := message (t.indent.getD 0) required
      severity := .error
      range := t.range.span last.range } := by
    rw [report, hon, hlast]
    rfl
  rw [hon, hspan]
  change ((codeOf (t :: more)).getLast?.bind _) = _
  simp [hlast, hcode]

/-- A physical line that begins with layout is not judged. -/
theorem judgeLine_of_layout {t : Token} {line : List Token} (hfirst : line.head? = some t)
    (hlayout : t.isLayout = true) : judgeLine required line = none := by
  cases hlast : (line.filter (!·.isLayout)).getLast? <;> simp [judgeLine, hfirst, hlast, hlayout]

/-- The first token of a physical line has the indentation of the line. -/
theorem indentAt_of_mem {t : Token} (h : Token.Rows tokens) (ht : t ∈ tokens) :
    ∃ first, (onLine tokens t.range.start.line).head? = some first ∧
      first.indent = some (indentAt tokens t.range.start.line) := by
  have hmem : t ∈ onLine tokens t.range.start.line := by simp [onLine, ht]
  cases hon : onLine tokens t.range.start.line with
  | nil => simp [hon] at hmem
  | cons first more =>
    have hlead := (h.leads _ first more hon).1
    obtain ⟨indent, hindent⟩ := Option.isSome_iff_exists.1 hlead
    exact ⟨first, rfl, by simp [indentAt, hon, hindent]⟩

/-! ## The physical lines of a header -/

section

variable {front further behind : List Token} {first t : Token} {extent : Range}
  (h : Token.Rows tokens) (hcode : codeOf tokens = front ++ (first :: further ++ behind))
  (hfills : Fills extent (first :: further))

include h

/-- Code stands on no earlier line than the code in front of it, and on a later one if it leads. -/
theorem pairwise_codeOf :
    (codeOf tokens).Pairwise fun s t =>
      s.range.start.line ≤ t.range.start.line ∧
        (t.isLineLeading = true → s.range.start.line < t.range.start.line) := by
  refine ((h.ordered.and h.line_lt_of_leading).imp_of_mem fun hs _ hst => ⟨?_, hst.2⟩).filter _
  have hflat := (h.flat _ hs).1
  have hstop := hst.1
  rw [Position.le_def] at hstop
  omega

include hcode hfills

/-- The range goes from the line of the first token to the line of the last. -/
theorem lines_of_fills :
    extent.start.line = first.range.start.line ∧
      ∃ last ∈ first :: further, extent.stop.line = last.range.start.line ∧
        ∀ t ∈ first :: further, t.range.start.line ≤ last.range.start.line := by
  obtain ⟨⟨first', hfirst, hstart⟩, ⟨last, hlast, hstop⟩⟩ := hfills
  obtain rfl : first = first' := by simpa using hfirst
  have hown : first :: further <+: first :: further ++ behind := List.prefix_append _ _
  have hsub : (first :: further).Sublist (codeOf tokens) :=
    hcode ▸ hown.sublist.trans (List.sublist_append_right _ _)
  have hmem : last ∈ first :: further := List.mem_of_getLast? hlast
  have hflat := (h.flat last (Token.mem_codeOf.1 (hsub.subset hmem)).1).1
  refine ⟨by rw [hstart], last, hmem, by rw [← hstop, hflat], fun t ht => ?_⟩
  obtain ⟨init, hinit⟩ := List.getLast?_eq_some_iff.1 hlast
  have hpairwise := (pairwise_codeOf h).sublist hsub
  rw [hinit] at hpairwise ht
  rcases List.mem_append.1 ht with ht | ht
  · exact ((List.pairwise_append.1 hpairwise).2.2 t ht last List.mem_cons_self).1
  · rw [List.mem_singleton.1 ht]

/-- What leads a further line of the range is among the code that the range runs over. -/
theorem mem_further (ht : t ∈ codeOf tokens) (hlead : t.isLineLeading = true)
    (hstart : extent.start.line < t.range.start.line)
    (hstop : t.range.start.line ≤ extent.stop.line) : t ∈ further := by
  obtain ⟨hfirst, last, hlast, hlastLine, -⟩ := lines_of_fills h hcode hfills
  have hpairwise := pairwise_codeOf h
  rw [hcode] at hpairwise ht
  -- What is in front of the range starts no later than its first line, and what leads a line behind
  -- it starts after its last.
  obtain ⟨-, hown, hfront⟩ := List.pairwise_append.1 hpairwise
  rcases List.mem_append.1 ht with ht | ht
  · have hle := (hfront t ht first (by simp)).1
    omega
  · rcases List.mem_append.1 ht with ht | ht
    · refine (List.mem_cons.1 ht).resolve_left ?_
      rintro rfl
      omega
    · have hlt := ((List.pairwise_append.1 hown).2.2 last hlast t ht).2 hlead
      omega

theorem line_of_mem_further (ht : t ∈ further) (hlead : t.isLineLeading = true) :
    extent.start.line < t.range.start.line ∧ t.range.start.line ≤ extent.stop.line := by
  obtain ⟨hfirst, last, -, hlastLine, hle⟩ := lines_of_fills h hcode hfills
  have hpairwise := pairwise_codeOf h
  rw [hcode] at hpairwise
  have hown := (List.pairwise_append.1 (List.pairwise_append.1 hpairwise).2.1).1
  have hlt := ((List.pairwise_cons.1 hown).1 t ht).2 hlead
  have hlast := hle t (List.mem_cons_of_mem first ht)
  omega

/-- The further physical lines that begin with code are those that a token of the range leads. -/
theorem filter_furtherLines :
    (furtherLines tokens extent).filter (fun n => (onLine tokens n).head?.any (!·.isLayout)) =
      (further.filter (·.isLineLeading)).map (·.range.start.line) := by
  have hsub : further.Sublist (codeOf tokens) := by
    rw [hcode]
    exact (List.sublist_cons_self _ _).trans
      ((List.sublist_append_left _ _).trans (List.sublist_append_right _ _))
  have hsorted : ((further.filter (·.isLineLeading)).map (·.range.start.line)).Pairwise (· < ·) := by
    refine List.pairwise_map.2 ((((pairwise_codeOf h).sublist hsub).filter _).imp_of_mem ?_)
    exact fun _ ht hst => hst.2 (List.mem_filter.1 ht).2
  -- Both are strictly sorted, so that their members decide.
  refine List.Pairwise.eq_of_mem_iff ((pairwise_furtherLines tokens extent).filter _) hsorted
    fun n => ?_
  rw [List.mem_filter, mem_furtherLines, List.mem_map]
  constructor
  · rintro ⟨⟨hne, hstart, hstop⟩, hlayout⟩
    cases hon : onLine tokens n with
    | nil => exact absurd hon hne
    | cons t more =>
      have hmem : t ∈ onLine tokens n := hon ▸ List.mem_cons_self
      obtain ⟨ht, hline⟩ := List.mem_filter.1 hmem
      obtain rfl : t.range.start.line = n := by simpa using hline
      have hlead := (h.leads _ t more hon).1
      have hisCode : t ∈ codeOf tokens := Token.mem_codeOf.2 ⟨ht, by simpa [hon] using hlayout⟩
      have hfurther := mem_further h hcode hfills hisCode hlead hstart hstop
      exact ⟨t, List.mem_filter.2 ⟨hfurther, hlead⟩, rfl⟩
  · rintro ⟨t, ht, rfl⟩
    obtain ⟨ht, hlead⟩ := List.mem_filter.1 ht
    obtain ⟨hmem, hisCode⟩ := Token.mem_codeOf.1 (hsub.subset ht)
    obtain ⟨more, hon⟩ := h.filter_line_of_leading hmem hlead
    change onLine tokens _ = _ at hon
    exact ⟨⟨by simp [hon], line_of_mem_further h hcode hfills ht hlead⟩, by simp [hon, hisCode]⟩

theorem filterMap_judgeLine (required : Int) :
    ((furtherLines tokens extent).filterMap fun n => judgeLine required (onLine tokens n)) =
      (further.filter (fallsShort required)).map (report tokens required) := by
  have hlayout :
      ((furtherLines tokens extent).filterMap fun n => judgeLine required (onLine tokens n)) =
        ((furtherLines tokens extent).filter fun n =>
          (onLine tokens n).head?.any (!·.isLayout)).filterMap
            fun n => judgeLine required (onLine tokens n) := by
    rw [List.filterMap_filter]
    refine List.filterMap_congr fun n hn => ?_
    cases hfirst : (onLine tokens n).head? with
    | none => exact absurd (List.head?_eq_none_iff.1 hfirst) (mem_furtherLines.1 hn).1
    | some t =>
      cases hisLayout : t.isLayout with
      | true => simp [judgeLine_of_layout hfirst hisLayout, hisLayout]
      | false => simp [hisLayout]
  rw [hlayout, filter_furtherLines h hcode hfills, List.filterMap_map, List.filterMap_filter,
    ← List.filterMap_eq_map, List.filterMap_filter]
  refine List.filterMap_congr fun t ht => ?_
  have hmem : t ∈ codeOf tokens := by simp [hcode, ht]
  cases hlead : t.isLineLeading with
  | false => simp [fallsShort, hlead]
  | true =>
    obtain ⟨more, hon⟩ := h.filter_line_of_leading (Token.mem_codeOf.1 hmem).1 hlead
    have hjudge := @judgeLine_cons required _ _ _ hon (Token.mem_codeOf.1 hmem).2
    by_cases hindent : required ≤ t.indent.getD 0
    · simp [fallsShort, hjudge, hindent, Int.not_lt.2 hindent]
    · simp [fallsShort, hlead, hjudge, hindent, Int.not_le.1 hindent]

omit hfills in
/-- A statement is judged by the code that the range of its header runs over. -/
theorem judge_eq (minIndent : Int) {s : Stmt} (hs : isJudged s = true)
    (hfills : Fills s.header (first :: further)) :
    judge minIndent tokens s = reportsOn minIndent tokens (first :: further) := by
  have hmem : first ∈ codeOf tokens := by simp [hcode]
  obtain ⟨⟨kind, text, range, indent⟩, hfirst, hindent⟩ :=
    indentAt_of_mem h (Token.mem_codeOf.1 hmem).1
  cases hindent
  have hlines : _ = reportsOn minIndent tokens (first :: further) :=
    filterMap_judgeLine h hcode hfills (indentAt tokens first.range.start.line + minIndent)
  unfold judge
  dsimp only
  rw [(lines_of_fills h hcode hfills).1, hfirst]
  -- A header on one line has no further lines to judge.
  cases hmulti : s.header.isMultiline with
  | true => simpa [hs] using hlines
  | false =>
    have hnone : furtherLines tokens s.header = [] := by
      refine List.eq_nil_iff_forall_not_mem.2 fun n hn => ?_
      have hn := mem_furtherLines.1 hn
      simp only [Range.isMultiline, decide_eq_false_iff_not] at hmulti
      omega
    rw [hnone] at hlines
    rw [← hlines, Bool.and_false]
    rfl

end

/-! ## The lines of a script -/

theorem exists_extent {head : Head} {ts : List Token} (h : head.Spelled ts) :
    ∃ line : Extent, line.head = head ∧ line.code = ts ∧ line.Valid := by
  cases hs : head.stmt? with
  | some s =>
    obtain ⟨before, own, after, rfl, hbefore, hafter, hfills⟩ := h.framed hs
    refine ⟨⟨head, before, own, after⟩, rfl, rfl, h, hbefore, hafter, fun s' hs' => ?_⟩
    obtain rfl : s = s' := Option.some.inj (hs.symm.trans hs')
    exact hfills
  | none =>
    have hcode : Extent.code ⟨head, [], ts, []⟩ = ts := by simp [Extent.code]
    refine ⟨⟨head, [], ts, []⟩, rfl, hcode, hcode.symm ▸ h, by simp, by simp, fun s hs' => ?_⟩
    exact absurd (hs.symm.trans hs') (by simp)

theorem exists_extents {ps : List Piece} (h : ∀ p ∈ ps, p.head.Spelled (codeOf p.span)) :
    ∃ lines : List Extent, lines.map Extent.head = ps.map Piece.head ∧
      lines.flatMap Extent.code = ps.flatMap (fun p => codeOf p.span) ∧
      ∀ line ∈ lines, line.Valid := by
  induction ps with
  | nil => exact ⟨[], rfl, rfl, by simp⟩
  | cons p ps ih =>
    rw [List.forall_mem_cons] at h
    obtain ⟨line, hhead, hcode, hvalid⟩ := exists_extent h.1
    obtain ⟨lines, hheads, hcodes, hvalids⟩ := ih h.2
    exact ⟨line :: lines, by simp [hhead, hheads], by simp [hcode, hcodes],
      by simpa using ⟨hvalid, hvalids⟩⟩

theorem judge_of_not_isJudged {s : Stmt} (h : isJudged s = false) :
    judge minIndent tokens s = [] := by
  simp [judge, h]

/-- Comments aside, the statements are judged line by line. -/
theorem perm_check (minIndent : Int) (program : Program) (tokens : List Token) :
    (check minIndent program tokens).Perm
      (program.heads.flatMap fun head => head.stmt?.toList.flatMap (judge minIndent tokens)) := by
  have hcomments : check minIndent program tokens =
      (program.statements.filter (!·.isComment)).flatMap (judge minIndent tokens) := by
    rw [check]
    induction program.statements with
    | nil => rfl
    | cons s ss ih =>
      cases s with
      | comment => exact ih
      | _ => rw [List.flatMap_cons, ih]; rfl
  rw [hcomments, ← List.flatMap_assoc, ← List.filterMap_eq_flatMap_toList]
  exact program.perm_heads.symm.flatMap_right _

theorem Extent.reports_eq {lines : List Extent} {line : Extent} (h : Token.Rows tokens)
    (hcode : lines.flatMap Extent.code = codeOf tokens) (hline : line ∈ lines) (hvalid : line.Valid)
    (minIndent : Int) :
    line.head.stmt?.toList.flatMap (judge minIndent tokens) = line.reports minIndent tokens := by
  unfold reports
  cases hs : line.head.stmt? with
  | none => rfl
  | some s =>
    rw [Option.toList_some, List.flatMap_singleton, Option.any_some]
    cases hjudged : isJudged s with
    | false => exact judge_of_not_isJudged hjudged
    | true =>
      have hfills := hvalid.fills s hs
      obtain ⟨first, hfirst, -⟩ := hfills.begins
      obtain ⟨further, hown⟩ := List.head?_eq_some_iff.1 hfirst
      obtain ⟨front, behind, rfl⟩ := List.append_of_mem hline
      have hsplit : codeOf tokens = (front.flatMap Extent.code ++ line.before) ++
          (first :: further ++ (line.after ++ behind.flatMap Extent.code)) := by
        rw [← hcode]
        simp [Extent.code, hown]
      rw [hown] at hfills ⊢
      exact judge_eq h hsplit minIndent hjudged hfills

/-- A report begins with a token that leads a physical line. -/
theorem Extent.sublist_reports (minIndent : Int) (tokens : List Token) (line : Extent) :
    ((line.reports minIndent tokens).map (·.range.start.line)).Sublist
      ((line.code.filter (·.isLineLeading)).map (·.range.start.line)) := by
  unfold reports
  split
  · cases hown : line.own with
    | nil => exact List.nil_sublist _
    | cons first further =>
      have hfurther : further.Sublist line.code := by
        rw [code, hown]
        exact (List.sublist_cons_self _ _).trans
          ((List.sublist_append_left _ _).trans (List.sublist_append_right _ _))
      rw [reportsOn, List.map_map]
      refine List.Sublist.map (·.range.start.line) (List.Sublist.trans ?_ (hfurther.filter _))
      exact List.monotone_filter_right further fun t ht => (Bool.and_eq_true_iff.1 ht).1
  · exact List.nil_sublist _

/-- No two reports are on one physical line. -/
theorem nodup_reports {lines : List Extent} (h : Token.Rows tokens)
    (hcode : lines.flatMap Extent.code = codeOf tokens) (minIndent : Int) :
    ((lines.flatMap (Extent.reports minIndent tokens)).map (·.range.start.line)).Nodup := by
  have hsub : ((lines.flatMap (Extent.reports minIndent tokens)).map (·.range.start.line)).Sublist
      (((codeOf tokens).filter (·.isLineLeading)).map (·.range.start.line)) := by
    rw [← hcode, List.filter_flatMap, List.map_flatMap, List.map_flatMap]
    exact List.Sublist.flatMap_right lines fun line _ => line.sublist_reports minIndent tokens
  refine List.Nodup.sublist hsub (List.pairwise_map.2 ?_)
  exact ((pairwise_codeOf h).filter _).imp_of_mem fun _ ht hst =>
    Int.ne_of_lt (hst.2 (List.mem_filter.1 ht).2)

/-- Of the code that the range of a header runs over, exactly those physical lines are reported that
begin with a token behind the first and are indented too little against the line of the first, each
once and from its first to its last code. What the range leaves out of a line is not judged: the
parentheses before and behind it, and the end of a list of parameters. -/
theorem check_reports_continuations (source : String) (minIndent : Int) :
    ∃ lines : List Extent,
      lines.map Extent.head = (Program.parse (tokenize source)).1.heads ∧
      lines.flatMap Extent.code = codeOf (tokenize source) ∧
      (∀ line ∈ lines, line.Valid) ∧
      (check minIndent (Program.parse (tokenize source)).1 (tokenize source)).Perm
        (lines.flatMap (Extent.reports minIndent (tokenize source))) ∧
      ((check minIndent (Program.parse (tokenize source)).1 (tokenize source)).map
        (·.range.start.line)).Nodup := by
  obtain ⟨ps, hheads, hruns, -⟩ := Program.parse_lines source
  have hrows := rows_tokenize source
  obtain ⟨lines, hlines, hcodes, hvalid⟩ := exists_extents hruns.spelled
  rw [hheads] at hlines
  have hcode : lines.flatMap Extent.code = codeOf (tokenize source) := by
    rw [hcodes, hruns.codeOf_eq, Token.codeOf_nil, List.append_nil]
  have hperm := perm_check minIndent (Program.parse (tokenize source)).1 (tokenize source)
  rw [← hlines, List.flatMap_map, List.flatMap_congr fun line hline =>
    line.reports_eq hrows hcode hline (hvalid line hline) minIndent] at hperm
  exact ⟨lines, hlines, hcode, hvalid, hperm,
    (hperm.map _).nodup_iff.2 (nodup_reports hrows hcode minIndent)⟩

/-- The line of a parenthesis that closes a value is not judged, though it is not indented. -/
theorem check_passes_over_parenthesis :
    (Program.parse (tokenize "a = (1\n)")).2 = [] ∧
      (onLine (tokenize "a = (1\n)") 1).map (fun t => (t.text, t.isLayout, t.indent)) =
        [(")", false, some 0)] ∧
      check 1 (Program.parse (tokenize "a = (1\n)")).1 (tokenize "a = (1\n)") = [] := by
  decide +kernel

end PineScript.Rule.Continuation
