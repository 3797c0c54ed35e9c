import Mathlib.Data.List.TakeWhile
import PineScript.Proofs.Lexer.Coverage
import PineScript.Tree.Fault

/-!
# Scanning an edited line

Every line is scanned on its own, so a change to one line leaves the tokens of all others as they
are. A comment appended to a line behind a space becomes one more token of this line, unless the line
ends in a comment or in an open quote, which take all that follows.
-/

namespace PineScript

namespace Text

/-- Appends to line `n` of a text, in front of the break that closes the line. -/
def appendToLine (suffix : List Char) : Nat → List Char → List Char
  | 0, [] => suffix
  | 0, c :: rest =>
    if c = '\r' ∨ c = '\n' then suffix ++ c :: rest else c :: appendToLine suffix 0 rest
  | _ + 1, [] => []
  | n + 1, '\r' :: '\n' :: rest => '\r' :: '\n' :: appendToLine suffix n rest
  | n + 1, c :: rest =>
    if c = '\r' ∨ c = '\n' then c :: appendToLine suffix n rest
    else c :: appendToLine suffix (n + 1) rest

theorem lines_cons {c : Char} (hc : c ≠ '\r' ∧ c ≠ '\n') (cs : List Char) :
    lines (c :: cs) = (lines cs).modifyHead (c :: ·) := by
  rw [lines, if_neg (not_or.2 hc)]
  · cases h : lines cs with
    | nil => exact absurd h (lines_ne_nil cs)
    | cons line more => rfl
  · intro rest hr
    exact absurd hr hc.1

theorem lines_append {front : List Char} (h : ∀ c ∈ front, c ≠ '\r' ∧ c ≠ '\n') (cs : List Char) :
    lines (front ++ cs) = (lines cs).modifyHead (front ++ ·) := by
  induction front with
  | nil => rw [List.nil_append]; cases lines cs <;> rfl
  | cons c front ih =>
    obtain ⟨hc, hfront⟩ := List.forall_mem_cons.1 h
    rw [List.cons_append, lines_cons hc, ih hfront]
    cases lines cs <;> rfl

theorem lines_break {c : Char} (hc : c = '\r' ∨ c = '\n') {cs : List Char}
    (hcs : c = '\r' → cs.head? ≠ some '\n') : lines (c :: cs) = [] :: lines cs := by
  rw [lines, if_pos hc]
  rintro rest hr rfl
  exact hcs hr rfl

theorem exists_lines_break {c : Char} (hc : c = '\r' ∨ c = '\n') (cs : List Char) :
    ∃ more, lines (c :: cs) = [] :: more := by
  by_cases hpair : c = '\r' ∧ cs.head? = some '\n'
  · obtain ⟨rfl, hhead⟩ := hpair
    obtain ⟨rest, rfl⟩ := List.head?_eq_some_iff.1 hhead
    exact ⟨lines rest, by rw [lines]⟩
  · exact ⟨lines cs, lines_break hc fun hr hhead => hpair ⟨hr, hhead⟩⟩

theorem head?_appendToLine {suffix : List Char} (h : ∀ c ∈ suffix, c ≠ '\r' ∧ c ≠ '\n') {n : Nat}
    {cs : List Char} (hcs : cs.head? ≠ some '\n') :
    (appendToLine suffix n cs).head? ≠ some '\n' := by
  have hsuffix : suffix.head? ≠ some '\n' := fun hhead =>
    (h '\n' (List.mem_of_head? hhead)).2 rfl
  fun_cases appendToLine suffix n cs with
  | case1 => exact hsuffix
  | case2 c rest hc =>
    rw [List.head?_append]
    cases hs : suffix.head? with
    | none => exact hcs
    | some d => rwa [hs] at hsuffix
  | case3 | case4 | case5 | case6 | case7 => exact hcs

/-- Only the line that is appended to changes. -/
theorem lines_appendToLine {suffix : List Char} (h : ∀ c ∈ suffix, c ≠ '\r' ∧ c ≠ '\n') (n : Nat)
    (cs : List Char) : lines (appendToLine suffix n cs) = (lines cs).modify n (· ++ suffix) := by
  fun_induction appendToLine suffix n cs with
  | case1 =>
    rw [lines_of_no_break h]
    rfl
  | case2 c rest hc =>
    obtain ⟨more, hmore⟩ := exists_lines_break hc rest
    rw [lines_append h, hmore, List.modify_zero_cons, List.modifyHead_cons, List.append_nil,
      List.nil_append]
  | case3 c rest hc ih =>
    rw [lines_cons (not_or.1 hc), lines_cons (not_or.1 hc), ih]
    cases lines rest <;> rfl
  | case4 => rw [lines, List.modify_succ_cons, List.modify_nil]
  | case5 n rest ih =>
    rw [lines, lines, ih, List.modify_succ_cons]
  | case6 n c rest hpair hc ih =>
    -- A line feed must not come to stand behind a carriage return that was alone.
    have hrest : c = '\r' → rest.head? ≠ some '\n' := by
      intro hr hhead
      obtain ⟨more, rfl⟩ := List.head?_eq_some_iff.1 hhead
      exact hpair more hr rfl
    rw [lines_break hc hrest, lines_break hc fun hr => head?_appendToLine h (hrest hr), ih,
      List.modify_succ_cons]
  | case7 n c rest hpair hc ih =>
    rw [lines_cons (not_or.1 hc), lines_cons (not_or.1 hc), ih]
    cases lines rest <;> rfl

end Text

/-- Both ends are on the line. -/
def Range.On (n : Int) (r : Range) : Prop := r.start.line = n ∧ r.stop.line = n

namespace Lexer

/-! ## Closed lines -/

theorem on_of_mem_markedLine {number : Nat} {line : List Char} {closed : Bool} {t : Token}
    (h : t ∈ markedLine number line closed) : t.range.On number := by
  obtain ⟨start, stop, -, hrange, -⟩ := (covers_markedLine number line closed).slice t h
  rw [hrange]
  exact ⟨rfl, rfl⟩

/-- The tokens of lines each of which a break closes. -/
def closedLines : Nat → List (List Char) → List Token
  | _, [] => []
  | number, line :: more => markedLine number line true ++ closedLines (number + 1) more

theorem documentTokens_eq_closedLines_append (number : Nat) (front : List (List Char))
    {behind : List (List Char)} (h : behind ≠ []) :
    documentTokens number (front ++ behind) =
      closedLines number front ++ documentTokens (number + front.length) behind := by
  induction front generalizing number with
  | nil => rfl
  | cons line front ih =>
    have hnext : (!(front ++ behind).isEmpty) = true := by simp [h]
    rw [List.cons_append, documentTokens_eq_markedLine_append, hnext, ih, closedLines,
      List.append_assoc, List.length_cons, Nat.add_right_comm, Nat.add_assoc]

/-- A line with what stands in front of it and behind it. -/
theorem documentTokens_split (front : List (List Char)) (line : List Char)
    (behind : List (List Char)) :
    documentTokens 0 (front ++ line :: behind) =
      closedLines 0 front ++ (markedLine front.length line (!behind.isEmpty) ++
        documentTokens (front.length + 1) behind) := by
  rw [documentTokens_eq_closedLines_append 0 front (List.cons_ne_nil line behind), Nat.zero_add,
    documentTokens_eq_markedLine_append]

theorem on_of_mem_closedLines {number : Nat} {front : List (List Char)} {t : Token}
    (h : t ∈ closedLines number front) : ∃ n : Nat, n < number + front.length ∧ t.range.On n := by
  induction front generalizing number with
  | nil => cases h
  | cons line front ih =>
    rw [List.length_cons]
    rcases List.mem_append.1 h with h | h
    · exact ⟨number, by omega, on_of_mem_markedLine h⟩
    · obtain ⟨n, hn, hon⟩ := ih h
      exact ⟨n, by omega, hon⟩

theorem on_of_mem_documentTokens {number : Nat} {lines : List (List Char)} {t : Token}
    (h : t ∈ documentTokens number lines) :
    ∃ n : Nat, number ≤ n ∧ n < number + lines.length ∧ t.range.On n := by
  obtain ⟨i, line, closed, hi, ht⟩ := exists_line_of_mem_documentTokens h
  exact ⟨number + i, by omega, by omega, on_of_mem_markedLine ht⟩

/-! ## A comment behind the last lexeme -/

theorem rest_of_comment? {cs : List Char} {cut : Cut} (h : comment? cs = some cut) :
    cut.rest = [] := by
  unfold comment? at h
  split at h
  · cases h
    rfl
  · cases h

theorem Form.rest_of_comment {c : Char} {rest : List Char} {kind : TokenKind} {cut : Cut}
    (h : Form c rest kind cut) (hkind : kind = .comment) : cut.rest = [] := by
  cases h with
  | comment h => exact rest_of_comment? h
  | name h =>
    rcases wordKind_cases cut.lexeme with ⟨hword, -⟩ | ⟨hword, -⟩ <;> cases hword.symm.trans hkind
  | _ => cases hkind

theorem lexeme_of_quote {c : Char} (hc : isQuote c = true) (rest : List Char) :
    (lexeme c rest).1 = .string ∨ (lexeme c rest).2.rest = [] := by
  have hopen : unterminated? (c :: rest) = some ⟨c :: rest, []⟩ := by simp [unterminated?, hc]
  simp only [lexeme, hopen]
  split
  · next h => exact .inr (rest_of_comment? h)
  · split
    · exact .inl rfl
    · exact .inr rfl

/-- A comment and an open quote take all the rest of the line. -/
theorem rest_of_swallows {c : Char} {rest : List Char} {kind : TokenKind} {cut : Cut}
    (hlex : lexeme c rest = (kind, cut)) (h : Swallows kind (String.ofList cut.lexeme)) :
    cut.rest = [] := by
  rcases h with rfl | ⟨rfl, hopens⟩
  · have hform := lexeme_form c rest
    rw [hlex] at hform
    exact hform.rest_of_comment rfl
  · have hsplits := lexeme_splits c rest
    rw [hlex] at hsplits
    rw [opensQuote_of_splits hsplits] at hopens
    rcases lexeme_of_quote hopens rest with h | h
    · rw [hlex] at h
      cases h
    · rwa [hlex] at h

/-- Behind a comment or an open quote there is nothing more. -/
theorem free_scan (rounds column : Nat) (cs : List Char) :
    (scan rounds column cs).Pairwise fun x _ => ¬Swallows x.1 (String.ofList x.2.2) := by
  fun_induction scan rounds column cs with
  | case1 => exact .nil
  | case2 => exact .nil
  | case3 rounds column c rest _ ih => exact ih
  | case4 rounds column c rest _ kind cut hlex ih =>
    refine .cons (fun y hy hswallows => ?_) ih
    rw [rest_of_swallows hlex hswallows, scan_nil] at hy
    cases hy

theorem scan_comment {rounds : Nat} (column : Nat) (text : List Char) :
    scan (rounds + 1) column ('/' :: '/' :: text) = [(.comment, column, '/' :: '/' :: text)] := by
  rw [scan, if_neg (by decide)]
  simp [lexeme, comment?, scan_nil]

theorem scan_space_comment {rounds : Nat} (column : Nat) (text : List Char) :
    scan (rounds + 2) column (' ' :: '/' :: '/' :: text) =
      [(.comment, column + 1, '/' :: '/' :: text)] := by
  rw [scan, if_pos (by decide), run_isSpace_of_code (by decide)]
  exact scan_comment _ _

/-- A run that ends within a text is not changed by what is appended. -/
theorem Cut.run_append_of_rest {p : Char → Bool} {cs : List Char} (h : (Cut.run p cs).rest ≠ [])
    (tail : List Char) : Cut.run p (cs ++ tail) = (Cut.run p cs).extend tail := by
  induction cs with
  | nil => exact absurd rfl h
  | cons c cs ih =>
    cases hc : p c with
    | true =>
      simp only [Cut.run, Cut.extend, List.cons_append, List.takeWhile_cons, List.dropWhile_cons,
        hc, if_true, Cut.mk.injEq] at h ih ⊢
      obtain ⟨hlexeme, hrest⟩ := ih h
      exact ⟨congrArg (c :: ·) hlexeme, hrest⟩
    | false => simp [Cut.run, Cut.extend, hc]

/-- A comment appended behind a space is the last lexeme of its line. -/
theorem scan_append_comment {rounds column : Nat} {cs : List Char} (hrounds : cs.length ≤ rounds)
    (hlast : ∀ x ∈ (scan rounds column cs).getLast?, ¬Swallows x.1 (String.ofList x.2.2))
    (text : List Char) {rounds' : Nat} (hrounds' : cs.length + 2 ≤ rounds') :
    scan rounds' column (cs ++ ' ' :: '/' :: '/' :: text) =
      scan rounds column cs ++ [(.comment, column + cs.length + 1, '/' :: '/' :: text)] := by
  fun_induction scan rounds column cs generalizing rounds' with
  | case1 column cs =>
    obtain rfl := List.length_eq_zero_iff.1 (Nat.le_zero.1 hrounds)
    obtain ⟨rounds', rfl⟩ := Nat.exists_eq_add_of_le' hrounds'
    exact scan_space_comment column text
  | case2 rounds column =>
    obtain ⟨rounds', rfl⟩ := Nat.exists_eq_add_of_le' hrounds'
    exact scan_space_comment column text
  | case3 rounds column c rest hspace ih =>
    rw [List.length_cons] at hrounds hrounds'
    obtain ⟨rounds', rfl⟩ := Nat.exists_eq_add_of_le' (Nat.le_of_add_left_le hrounds')
    rw [List.cons_append, scan, if_pos hspace]
    have hrest := congrArg List.length (Cut.run_append_eq isSpace rest)
    rw [List.length_append] at hrest
    by_cases hall : (Cut.run isSpace rest).rest = []
    · -- Nothing but blanks is left, and they go on up to the comment.
      have hblank : ∀ d ∈ rest, isSpace d = true := List.dropWhile_eq_nil_iff.1 hall
      have hrun : Cut.run isSpace (rest ++ ' ' :: '/' :: '/' :: text) =
          ⟨rest ++ [' '], '/' :: '/' :: text⟩ := by
        rw [Cut.run, List.takeWhile_append_of_pos hblank, List.dropWhile_append_of_pos hblank]
        rfl
      rw [hrun, hall, scan_nil, List.nil_append, scan_comment, List.length_append,
        List.length_singleton, List.length_cons]
    · rw [Cut.run_append_of_rest hall]
      have hlen : column + (Cut.run isSpace rest).lexeme.length + 1 +
          (Cut.run isSpace rest).rest.length = column + (c :: rest).length := by
        rw [List.length_cons]
        omega
      have hscan := @ih (by omega) hlast (rounds' + 1) (by omega)
      rwa [hlen] at hscan
  | case4 rounds column c rest hspace kind cut hlex ih =>
    rw [List.length_cons] at hrounds hrounds'
    obtain ⟨rounds', rfl⟩ := Nat.exists_eq_add_of_le' (Nat.le_of_add_left_le hrounds')
    have hsplits : cut.Splits (c :: rest) := by
      have h := lexeme_splits c rest
      rwa [hlex] at h
    have hlen := congrArg List.length hsplits.append_eq
    rw [List.length_append, List.length_cons] at hlen
    have hpos := List.length_pos_iff.2 hsplits.ne_nil
    -- A lexeme that takes all that follows would be the last one.
    have hfree : ¬Swallows kind (String.ofList cut.lexeme) := by
      intro h
      rw [rest_of_swallows hlex h, scan_nil] at hlast
      exact hlast _ rfl h
    have htail : ∀ x ∈ (scan rounds (column + cut.lexeme.length) cut.rest).getLast?,
        ¬Swallows x.1 (String.ofList x.2.2) := by
      intro x hx
      exact hlast x (by rw [List.getLast?_cons, hx]; rfl)
    have hlex' := @lexeme_append ' ' rfl _ _ _ _ ('/' :: '/' :: text) hlex hfree
    have hscan := @ih (by omega) htail (rounds' + 1) (by omega)
    have hcolumn : column + cut.lexeme.length + cut.rest.length = column + (c :: rest).length := by
      rw [List.length_cons]
      omega
    rw [hcolumn] at hscan
    rw [List.cons_append, scan, if_neg hspace, hlex']
    simp only [Cut.extend]
    rw [hscan, List.cons_append]

theorem lineTokens_append_comment {number : Nat} {line : List Char}
    (hlast : ∀ t ∈ (lineTokens number line).getLast?, ¬Swallows t.kind t.text) (text : List Char) :
    lineTokens number (line ++ ' ' :: '/' :: '/' :: text) =
      lineTokens number line ++ [place number .comment (line.length + 1) ('/' :: '/' :: text)] := by
  have hfree : ∀ x ∈ (scan line.length 0 line).getLast?, ¬Swallows x.1 (String.ofList x.2.2) := by
    intro x hx
    refine hlast (place number x.1 x.2.1 x.2.2) ?_
    rw [lineTokens, List.getLast?_map, hx]
    rfl
  have hrounds : line.length + 2 ≤ (line ++ ' ' :: '/' :: '/' :: text).length := by
    simp only [List.length_append, List.length_cons]
    omega
  rw [lineTokens, scan_append_comment (Nat.le_refl _) hfree text hrounds, List.map_append,
    Nat.zero_add]
  rfl

theorem markFirst_append {indent : Nat} {ts : List Token} (h : ts ≠ []) (us : List Token) :
    markFirst indent (ts ++ us) = markFirst indent ts ++ us := by
  cases ts with
  | nil => exact absurd rfl h
  | cons t ts => rfl

/-- What is appended to a line with a lexeme does not change its indentation. -/
theorem indentOf_append {number : Nat} {line : List Char} (h : lineTokens number line ≠ [])
    (tail : List Char) : indentOf (line ++ tail) = indentOf line := by
  have htiles : Tiles 0 line (scan line.length 0 line) := tiles_scan (Nat.le_refl _)
  rw [lineTokens] at h
  generalize scan line.length 0 line = xs at h htiles
  cases htiles with
  | blanks => exact absurd rfl h
  | lexeme _ blanks kind hblanks hc _ =>
    rw [indentOf, indentOf, List.append_assoc, List.takeWhile_append_of_pos hblanks,
      List.takeWhile_append_of_pos hblanks, List.cons_append, List.cons_append,
      List.takeWhile_cons_of_neg (by simp [hc]), List.takeWhile_cons_of_neg (by simp [hc])]

theorem markedLine_of_ne_nil {number : Nat} {line : List Char} (h : lineTokens number line ≠ [])
    (closed : Bool) :
    markedLine number line closed = markFirst (indentOf line) (lineTokens number line) ++
      if closed then [breakToken number line] else [] :=
  markFirst_append h _

theorem markedLine_append_comment {number : Nat} {line : List Char}
    (h : lineTokens number line ≠ [])
    (hlast : ∀ t ∈ (lineTokens number line).getLast?, ¬Swallows t.kind t.text) (text : List Char)
    (closed : Bool) :
    markedLine number (line ++ ' ' :: '/' :: '/' :: text) closed =
      markFirst (indentOf line) (lineTokens number line) ++
        place number .comment (line.length + 1) ('/' :: '/' :: text) ::
          if closed then [breakToken number (line ++ ' ' :: '/' :: '/' :: text)] else [] := by
  rw [markedLine, lineTokens_append_comment hlast, indentOf_append h, List.append_assoc,
    markFirst_append h]
  rfl

theorem getLast?_markFirst (indent : Nat) (ts : List Token) :
    ((markFirst indent ts).getLast?.map fun t => (t.kind, t.text)) =
      ts.getLast?.map fun t => (t.kind, t.text) := by
  cases ts with
  | nil => rfl
  | cons t ts => cases ts <;> rfl

/-- The last token in front of the break is the last lexeme. -/
theorem last_of_markedLine {number : Nat} {line : List Char} {closed : Bool} {last : Token}
    (h : ((markedLine number line closed).filter (·.kind != .newline)).getLast? = some last) :
    lineTokens number line ≠ [] ∧
      ∀ t ∈ (lineTokens number line).getLast?, t.kind = last.kind ∧ t.text = last.text := by
  have hne : lineTokens number line ≠ [] := by
    intro hnil
    rw [markedLine, hnil] at h
    cases closed <;> cases h
  have hown : ∀ t ∈ markFirst (indentOf line) (lineTokens number line),
      (t.kind != .newline) = true := by
    intro t ht
    obtain ⟨u, hu, i, rfl⟩ := mem_markFirst ht
    have hkind := ne_newline_of_mem_lineTokens hu
    exact bne_iff_ne.2 hkind
  have hbreak : (if closed then [breakToken number line] else []).filter (·.kind != .newline) =
      [] := by
    cases closed <;> rfl
  rw [markedLine_of_ne_nil hne, List.filter_append, List.filter_eq_self.2 hown, hbreak,
    List.append_nil] at h
  refine ⟨hne, fun t ht => ?_⟩
  have hlast := getLast?_markFirst (indentOf line) (lineTokens number line)
  rw [h, ht] at hlast
  simpa [eq_comm] using hlast

end Lexer

end PineScript
