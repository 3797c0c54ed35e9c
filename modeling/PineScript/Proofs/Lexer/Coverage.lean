import PineScript.Proofs.Lexer.Order
import PineScript.Proofs.Lexer.Spaced

/-!
# Nothing is lost

Main statement: the tokens of a document are those of its lines, and in each line they account for
every character that is no blank (`tokenize_covers`). The scanner is met once, in `tiles_scan`: a
line is blanks and lexemes in turn. What a line's tokens are is then read off the tiles.
-/

namespace PineScript

open Range (Chain)

namespace Text

/-- A text and its lines. A line feed behind a carriage return belongs to the same break. -/
inductive Split : List Char → List (List Char) → Prop
  | last {line : List Char} : (∀ c ∈ line, c ≠ '\r' ∧ c ≠ '\n') → Split line [line]
  | cons (line mark : List Char) {rest : List Char} {more : List (List Char)} :
      (∀ c ∈ line, c ≠ '\r' ∧ c ≠ '\n') → mark ∈ [['\r', '\n'], ['\r'], ['\n']] →
      (mark = ['\r'] → rest.head? ≠ some '\n') → Split rest more →
      Split (line ++ mark ++ rest) (line :: more)

/-- One more character in front of the first line. -/
theorem Split.push {c : Char} (hc : c ≠ '\r' ∧ c ≠ '\n') {cs line : List Char}
    {more : List (List Char)} (h : Split cs (line :: more)) :
    Split (c :: cs) ((c :: line) :: more) := by
  cases h with
  | last hline => exact .last (List.forall_mem_cons.2 ⟨hc, hline⟩)
  | cons _ mark hline hmark hrest hmore =>
    exact .cons (c :: line) mark (List.forall_mem_cons.2 ⟨hc, hline⟩) hmark hrest hmore

theorem split_lines (cs : List Char) : Split cs (lines cs) := by
  fun_induction lines cs with
  | case1 => exact .last (List.forall_mem_nil _)
  | case2 rest ih =>
    exact .cons [] ['\r', '\n'] (List.forall_mem_nil _) (by simp) (by simp) ih
  | case3 c rest hpair hbreak ih =>
    refine .cons [] [c] (List.forall_mem_nil _) (by simpa using hbreak) ?_ ih
    intro hmark hhead
    obtain ⟨more, rfl⟩ : ∃ more, rest = '\n' :: more := by
      cases rest with
      | nil => cases hhead
      | cons d more => exact ⟨more, by simpa using hhead⟩
    exact hpair more (by simpa using hmark) rfl
  | case4 c rest hpair hbreak hnil ih =>
    rw [hnil] at ih
    cases ih
  | case5 c rest hpair hbreak line more hlines ih =>
    rw [hlines] at ih
    exact ih.push (not_or.1 hbreak)

end Text

namespace Lexer

/-! ## Tiles -/

/-- Lexemes that make up a text from a column on, with nothing but blanks between them. -/
inductive Tiles : Nat → List Char → List (TokenKind × Nat × List Char) → Prop
  | blanks {column : Nat} {cs : List Char} : (∀ c ∈ cs, isSpace c = true) → Tiles column cs []
  | lexeme (column : Nat) (blanks : List Char) (kind : TokenKind) {text rest : List Char} {c : Char}
      {more : List (TokenKind × Nat × List Char)} :
      (∀ c ∈ blanks, isSpace c = true) → isSpace c = false →
      Tiles (column + blanks.length + (c :: text).length) rest more →
      Tiles column (blanks ++ (c :: text ++ rest)) ((kind, column + blanks.length, c :: text) :: more)

theorem Tiles.behind_blanks (column : Nat) {front cs : List Char}
    {xs : List (TokenKind × Nat × List Char)} (hfront : ∀ c ∈ front, isSpace c = true)
    (h : Tiles (column + front.length) cs xs) : Tiles column (front ++ cs) xs := by
  cases h with
  | blanks hcs => exact .blanks (List.forall_mem_append.2 ⟨hfront, hcs⟩)
  | lexeme _ blanks kind hblanks hc hmore =>
    have hlen : column + front.length + blanks.length = column + (front ++ blanks).length := by
      rw [List.length_append, Nat.add_assoc]
    rw [hlen] at hmore ⊢
    rw [← List.append_assoc]
    exact .lexeme column _ kind (List.forall_mem_append.2 ⟨hfront, hblanks⟩) hc hmore

theorem tiles_scan {rounds column : Nat} {cs : List Char} (h : cs.length ≤ rounds) :
    Tiles column cs (scan rounds column cs) := by
  fun_induction scan rounds column cs with
  | case1 column cs =>
    obtain rfl := List.length_eq_zero_iff.1 (Nat.le_zero.1 h)
    exact .blanks (List.forall_mem_nil _)
  | case2 rounds column => exact .blanks (List.forall_mem_nil _)
  | case3 rounds column c rest hspace ih =>
    have hrest := Cut.run_append_eq isSpace rest
    have hlen := congrArg List.length hrest
    rw [List.length_append] at hlen
    rw [List.length_cons] at h
    have hfront : ∀ d ∈ c :: (Cut.run isSpace rest).lexeme, isSpace d = true :=
      List.forall_mem_cons.2 ⟨hspace, List.all_eq_true.1 List.all_takeWhile⟩
    have htiles := Tiles.behind_blanks column hfront (by
      rw [List.length_cons, ← Nat.add_assoc]
      exact ih (by omega))
    rwa [List.cons_append, hrest] at htiles
  | case4 rounds column c rest hspace kind cut hlex ih =>
    have hsplits : cut.Splits (c :: rest) := by
      have h := lexeme_splits c rest
      rwa [hlex] at h
    obtain ⟨hcut, hne⟩ := hsplits
    obtain ⟨d, text, hlexeme⟩ := List.exists_cons_of_ne_nil hne
    rw [hlexeme, List.cons_append] at hcut
    rw [hlexeme] at ih ⊢
    obtain ⟨rfl, hleft⟩ := List.cons.inj hcut
    have hlen := congrArg List.length hleft
    rw [List.length_append] at hlen
    rw [List.length_cons] at h
    rw [← hcut]
    exact .lexeme column [] kind (List.forall_mem_nil _) (Bool.eq_false_iff.2 hspace) (ih (by omega))

/-- Each lexeme is the part of the text at its column. -/
theorem Tiles.slice {column : Nat} {cs : List Char} {xs : List (TokenKind × Nat × List Char)}
    (h : Tiles column cs xs) {x : TokenKind × Nat × List Char} (hx : x ∈ xs) :
    ∃ i, x.2.1 = column + i ∧ 0 < x.2.2.length ∧ i + x.2.2.length ≤ cs.length ∧
      x.2.2 = (cs.drop i).take x.2.2.length := by
  induction h with
  | blanks => cases hx
  | lexeme column blanks kind hblanks hc hmore ih =>
    rename_i text rest c more
    rcases List.mem_cons.1 hx with rfl | hx
    · refine ⟨blanks.length, rfl, Nat.succ_pos _, ?_, ?_⟩
      · simp only [List.length_append]
        omega
      · rw [List.drop_left, List.take_left]
    · obtain ⟨i, hcolumn, hpos, hlen, htext⟩ := ih hx
      refine ⟨blanks.length + ((c :: text).length + i), by omega, hpos, ?_, ?_⟩
      · simp only [List.length_append]
        omega
      · rwa [List.drop_length_add_append, List.drop_length_add_append]

/-- What no lexeme covers is blank. -/
theorem Tiles.gaps {column : Nat} {cs : List Char} {xs : List (TokenKind × Nat × List Char)}
    (h : Tiles column cs xs) {i : Nat} {d : Char} (hd : cs[i]? = some d)
    (hfree : ∀ x ∈ xs, ¬(x.2.1 ≤ column + i ∧ column + i < x.2.1 + x.2.2.length)) :
    isSpace d = true := by
  induction h generalizing i with
  | blanks hcs => exact hcs d (List.mem_of_getElem? hd)
  | lexeme column blanks kind hblanks hc hmore ih =>
    rename_i text rest c more
    obtain ⟨hown, hothers⟩ := List.forall_mem_cons.1 hfree
    rcases Nat.lt_or_ge i blanks.length with hlt | hge
    · rw [List.getElem?_append_left hlt] at hd
      exact hblanks d (List.mem_of_getElem? hd)
    · obtain ⟨j, rfl⟩ := Nat.exists_eq_add_of_le hge
      have hbehind : (c :: text).length ≤ j := by
        simp only at hown
        omega
      obtain ⟨k, rfl⟩ := Nat.exists_eq_add_of_le hbehind
      rw [List.getElem?_append_right hge, Nat.add_sub_cancel_left,
        List.getElem?_append_right hbehind, Nat.add_sub_cancel_left] at hd
      refine ih hd fun x hx => ?_
      rw [Nat.add_assoc, Nat.add_assoc]
      exact hothers x hx

/-- The first lexeme stands behind the blanks at the start. -/
theorem Tiles.first {column : Nat} {cs : List Char} {x : TokenKind × Nat × List Char}
    {more : List (TokenKind × Nat × List Char)} (h : Tiles column cs (x :: more)) :
    x.2.1 = column + indentOf cs := by
  cases h with
  | lexeme _ blanks kind hblanks hc hmore =>
    rw [indentOf, List.takeWhile_append_of_pos hblanks, List.cons_append, List.takeWhile_cons,
      hc, List.length_append]
    rfl

/-! ## Lines -/

theorem Form.ne_newline {c : Char} {rest : List Char} {kind : TokenKind} {cut : Cut}
    (h : Form c rest kind cut) : kind ≠ .newline := by
  cases h with
  | name h => rcases wordKind_cases cut.lexeme with ⟨hkind, -⟩ | ⟨hkind, -⟩ <;> simp [hkind]
  | _ => exact TokenKind.noConfusion

theorem ne_newline_of_mem_lineTokens {number : Nat} {line : List Char} {t : Token}
    (h : t ∈ lineTokens number line) : t.kind ≠ .newline := by
  obtain ⟨x, hx, rfl⟩ := List.mem_map.1 h
  obtain ⟨c, rest, left, hform⟩ := form_of_mem_scan hx
  exact hform.ne_newline

theorem line_of_mem_markedLine {number : Nat} {line : List Char} {closed : Bool} {t : Token}
    (h : t ∈ markedLine number line closed) : t.range.start.line = number := by
  obtain ⟨u, hu, i, rfl⟩ := mem_markFirst h
  rcases mem_closed hu with ⟨x, -, rfl⟩ | ⟨-, rfl⟩ <;> rfl

theorem le_line_of_mem_documentTokens {number : Nat} {lines : List (List Char)} {t : Token}
    (h : t ∈ documentTokens number lines) : (number : Int) ≤ t.range.start.line := by
  obtain ⟨i, line, closed, -, ht⟩ := exists_line_of_mem_documentTokens h
  rw [line_of_mem_markedLine ht]
  omega

theorem filter_first_line (number : Nat) (line : List Char) (more : List (List Char)) :
    (documentTokens number (line :: more)).filter
        (fun t => t.range.start.line == (number + (0 : Nat) : Int)) =
      markedLine number line (!more.isEmpty) := by
  have hown : ∀ t ∈ markedLine number line (!more.isEmpty),
      (t.range.start.line == (number + (0 : Nat) : Int)) = true := by
    intro t ht
    rw [beq_iff_eq, line_of_mem_markedLine ht]
    omega
  have hothers : ∀ t ∈ documentTokens (number + 1) more,
      ¬(t.range.start.line == (number + (0 : Nat) : Int)) = true := by
    intro t ht
    have hline := le_line_of_mem_documentTokens ht
    rw [beq_iff_eq]
    omega
  rw [documentTokens_eq_markedLine_append, List.filter_append, List.filter_eq_self.2 hown,
    List.filter_eq_nil_iff.2 hothers, List.append_nil]

theorem filter_later_line (number i : Nat) (line : List Char) (more : List (List Char)) :
    (documentTokens number (line :: more)).filter
        (fun t => t.range.start.line == (number + (i + 1 : Nat) : Int)) =
      (documentTokens (number + 1) more).filter
        (fun t => t.range.start.line == ((number + 1 : Nat) + i : Int)) := by
  have hown : ∀ t ∈ markedLine number line (!more.isEmpty),
      ¬(t.range.start.line == (number + (i + 1 : Nat) : Int)) = true := by
    intro t ht
    rw [beq_iff_eq, line_of_mem_markedLine ht]
    omega
  have hline : (number + (i + 1 : Nat) : Int) = (number + 1 : Nat) + i := by omega
  rw [documentTokens_eq_markedLine_append, List.filter_append, List.filter_eq_nil_iff.2 hown,
    List.nil_append, hline]

/-- The tokens on a line are those of this line alone. -/
theorem filter_line_documentTokens {lines : List (List Char)} {i : Nat} (h : i < lines.length)
    (number : Nat) :
    (documentTokens number lines).filter (fun t => t.range.start.line == (number + i : Int)) =
      markedLine (number + i) lines[i] (i + 1 < lines.length) := by
  induction lines generalizing number i with
  | nil => cases h
  | cons line more ih =>
    cases i with
    | zero =>
      rw [filter_first_line]
      cases more <;> rfl
    | succ i =>
      rw [filter_later_line, ih (Nat.lt_of_succ_lt_succ h)]
      simp only [List.length_cons, List.getElem_cons_succ, Nat.add_lt_add_iff_right]
      rw [Nat.add_right_comm, Nat.add_assoc]

/-- The lines in turn make up the document. -/
theorem documentTokens_eq_flatMap (number : Nat) (lines : List (List Char)) :
    documentTokens number lines = (List.range lines.length).flatMap fun i : Nat =>
      (documentTokens number lines).filter fun t => t.range.start.line == (number + i : Int) := by
  induction lines generalizing number with
  | nil => rfl
  | cons line more ih =>
    rw [List.length_cons, List.range_succ_eq_map, List.flatMap_cons, filter_first_line,
      List.flatMap_map]
    simp only [Nat.succ_eq_add_one, filter_later_line]
    rw [← ih, documentTokens_eq_markedLine_append]

/-! ## Coverage -/

/-- The tokens of a line account for all of its text. A break stands behind the text if one closes
the line. -/
structure Covers (number : Nat) (text : List Char) (closed : Bool) (tokens : List Token) :
    Prop where
  slice : ∀ t ∈ tokens, ∃ start stop : Nat, start < stop ∧
    t.range = ⟨⟨number, start⟩, ⟨number, stop⟩⟩ ∧
    (t.kind ≠ .newline → stop ≤ text.length ∧ t.text.toList = (text.drop start).take (stop - start))
  ordered : tokens.Pairwise fun s t => s.range.stop ≤ t.range.start
  gaps : ∀ (i : Nat) (c : Char), text[i]? = some c →
    (∀ t ∈ tokens, ¬(t.range.start.character ≤ i ∧ i < t.range.stop.character)) →
    c ∈ [' ', '\t', '\x0c']
  breaks : (tokens.filter (·.kind == .newline)).map Token.range =
    if closed then [⟨⟨number, text.length⟩, ⟨number, text.length + 1⟩⟩] else []
  indents : ∀ (t : Token) (more : List Token), tokens = t :: more →
    t.indent = some ((text.takeWhile (· ∈ [' ', '\t', '\x0c'])).length : Int) ∧
    t.range.start.character = (text.takeWhile (· ∈ [' ', '\t', '\x0c'])).length ∧
    ∀ u ∈ more, u.indent = none

theorem isSpace_iff {c : Char} : isSpace c = true ↔ c ∈ [' ', '\t', '\x0c'] := by
  simp [isSpace, or_assoc]

theorem indentOf_eq (line : List Char) :
    indentOf line = (line.takeWhile (· ∈ [' ', '\t', '\x0c'])).length := by
  have hsame : isSpace = fun c => decide (c ∈ [' ', '\t', '\x0c']) :=
    funext fun c => Bool.eq_iff_iff.2 (isSpace_iff.trans decide_eq_true_iff.symm)
  rw [indentOf, hsame]

theorem newlines_markFirst (indent : Nat) (ts : List Token) :
    ((markFirst indent ts).filter (·.kind == .newline)).map Token.range =
      (ts.filter (·.kind == .newline)).map Token.range := by
  cases ts with
  | nil => rfl
  | cons t ts =>
    simp only [markFirst, List.filter_cons]
    split <;> rfl

/-- The first token of a line stands behind its leading blanks, be it a lexeme or the break. -/
theorem first_of_closed {number : Nat} {line : List Char} {closed : Bool} {t : Token}
    {more : List Token}
    (h : lineTokens number line ++ (if closed then [breakToken number line] else []) = t :: more) :
    t.range.start.character = indentOf line := by
  have htiles : Tiles 0 line (scan line.length 0 line) := tiles_scan (Nat.le_refl _)
  rw [lineTokens] at h
  cases hscan : scan line.length 0 line with
  | cons x xs =>
    rw [hscan] at h htiles
    obtain ⟨rfl, -⟩ := List.cons.inj h
    have hfirst := htiles.first
    rw [Nat.zero_add] at hfirst
    exact congrArg Nat.cast hfirst
  | nil =>
    rw [hscan] at h htiles
    cases htiles with
    | blanks hline =>
      cases closed with
      | false => cases h
      | true =>
        obtain ⟨rfl, -⟩ := List.cons.inj h
        have hall := @List.takeWhile_append_of_pos _ isSpace line [] hline
        rw [List.append_nil, List.takeWhile_nil, List.append_nil] at hall
        rw [indentOf, hall]
        rfl

theorem covers_markedLine (number : Nat) (line : List Char) (closed : Bool) :
    Covers number line closed (markedLine number line closed) := by
  have htiles : Tiles 0 line (scan line.length 0 line) := tiles_scan (Nat.le_refl _)
  refine ⟨?_, ?_, ?_, ?_, ?_⟩
  · intro t ht
    obtain ⟨u, hu, indent, rfl⟩ := mem_markFirst ht
    rcases mem_closed hu with ⟨x, hx, rfl⟩ | ⟨-, rfl⟩
    · obtain ⟨i, hcolumn, hpos, hlen, htext⟩ := htiles.slice hx
      rw [Nat.zero_add] at hcolumn
      subst hcolumn
      refine ⟨x.2.1, x.2.1 + x.2.2.length, by omega, rfl, fun _ => ⟨hlen, ?_⟩⟩
      rw [Nat.add_sub_cancel_left]
      exact String.toList_ofList.trans htext
    · exact ⟨line.length, line.length + 1, by omega, rfl, fun h => absurd rfl h⟩
  · exact List.pairwise_map.1 (chain_markedLine number line closed).pairwise
  · intro i c hc hfree
    refine isSpace_iff.1 (htiles.gaps hc fun x hx hcovers => ?_)
    -- The lexeme is a token of the line, but for the indentation that the first one is given.
    have hrange : (place number x.1 x.2.1 x.2.2).range ∈
        (markedLine number line closed).map Token.range := by
      rw [markedLine, map_range_markFirst]
      exact List.mem_map_of_mem (List.mem_append_left _ (List.mem_map_of_mem hx))
    obtain ⟨t, ht, hplace⟩ := List.mem_map.1 hrange
    refine hfree t ht ?_
    rw [hplace]
    simp only [place]
    omega
  · rw [markedLine, newlines_markFirst, List.filter_append, List.filter_eq_nil_iff.2]
    · cases closed <;> rfl
    · intro t ht
      rw [beq_iff_eq]
      exact ne_newline_of_mem_lineTokens ht
  · intro t more htokens
    rw [markedLine] at htokens
    rw [← indentOf_eq]
    cases hts : lineTokens number line ++ if closed then [breakToken number line] else [] with
    | nil =>
      rw [hts] at htokens
      cases htokens
    | cons u rest =>
      rw [hts] at htokens
      obtain ⟨rfl, rfl⟩ := List.cons.inj htokens
      have hfirst : u.range.start.character = indentOf line := first_of_closed hts
      refine ⟨rfl, hfirst, fun v hv => ?_⟩
      exact indent_of_closed (hts ▸ List.mem_cons_of_mem u hv)

end Lexer

/-- The tokens of a document are those of its lines, line after line, and the tokens of each line
account for all of its text; every line but the last is closed by a break. -/
theorem tokenize_covers (source : String) :
    Text.Split source.toList (Text.lines source.toList) ∧
    (tokenize source = (List.range (Text.lines source.toList).length).flatMap fun i : Nat =>
      (tokenize source).filter fun t => t.range.start.line == (i : Int)) ∧
    ∀ i : Fin (Text.lines source.toList).length,
      Lexer.Covers i (Text.lines source.toList)[i] (i + 1 < (Text.lines source.toList).length)
        ((tokenize source).filter fun t => t.range.start.line == ((i : Nat) : Int)) := by
  refine ⟨Text.split_lines _, ?_, fun i => ?_⟩
  · have hlines := Lexer.documentTokens_eq_flatMap 0 (Text.lines source.toList)
    simp only [Int.ofNat_zero, Int.zero_add] at hlines
    exact hlines
  · have hline := Lexer.filter_line_documentTokens i.isLt 0
    simp only [Int.ofNat_zero, Int.zero_add, Nat.zero_add] at hline
    rw [tokenize, hline]
    exact Lexer.covers_markedLine _ _ _

end PineScript
