import PineScript.Proofs.Lexer.Spaced
import PineScript.Proofs.Lexer.Tokens
import PineScript.Proofs.Tree.Move

/-!
# Scanning joined texts

Every line is scanned on its own, so two texts with a line break between them have the tokens of the
first, a line break, and the tokens of the second, moved down by the lines of the first.
-/

namespace PineScript

/-! ## Lines -/

namespace Text

theorem exists_last_line (cs : List Char) : ∃ front last, lines cs = front ++ [last] := by
  rcases List.eq_nil_or_concat (lines cs) with hnil | ⟨front, last, hlast⟩
  · exact absurd hnil (lines_ne_nil cs)
  · exact ⟨front, last, hlast.trans (List.concat_eq_append ..)⟩

/-- A line feed between two texts separates their lines, unless it completes a line break. -/
theorem lines_append_newline {front : List Char} (h : front.getLast? ≠ some '\r')
    (behind : List Char) : lines (front ++ '\n' :: behind) = lines front ++ lines behind := by
  have htail : ∀ {c : Char} {rest : List Char}, (c :: rest).getLast? ≠ some '\r' →
      rest.getLast? ≠ some '\r' := by
    intro c rest hne hlast
    simp [List.getLast?_cons, hlast] at hne
  -- Where no break of two characters stands, none comes about by what is appended.
  have hopen : ∀ {c : Char} {rest : List Char}, (c :: rest).getLast? ≠ some '\r' →
      (∀ more, c = '\r' → rest = '\n' :: more → False) →
      ∀ more, c = '\r' → rest ++ '\n' :: behind = '\n' :: more → False := by
    intro c rest hlast hno more hc heq
    cases rest with
    | nil => exact hlast (by simp [hc])
    | cons d rest => exact hno rest hc (by simp_all)
  fun_induction lines front with
  | case1 => simp [lines]
  | case2 rest ih => simp [lines, ih (htail (htail h))]
  | case3 c rest hno hbreak ih =>
    rw [List.cons_append, lines.eq_3 _ _ (hopen h hno), if_pos hbreak, ih (htail h),
      List.cons_append]
  | case4 c rest _ _ hnil => exact absurd hnil (lines_ne_nil rest)
  | case5 c rest hno hbreak line more hlines ih =>
    rw [List.cons_append, lines.eq_3 _ _ (hopen h hno), if_neg hbreak, ih (htail h), hlines]
    rfl

end Text

namespace Lexer

/-! ## Tokens of appended lines -/

/-- The break behind a line. It carries the indentation if nothing else stands on the line. -/
def lineBreak (number : Nat) (line : List Char) : Token :=
  { breakToken number line with
    indent := if lineTokens number line = [] then some (indentOf line : Int) else none }

theorem markFirst_append_break (number : Nat) (line : List Char) :
    markFirst (indentOf line) (lineTokens number line ++ [breakToken number line]) =
      markFirst (indentOf line) (lineTokens number line) ++ [lineBreak number line] := by
  unfold lineBreak
  cases lineTokens number line <;> rfl

theorem documentTokens_cons (number : Nat) (line : List Char) {more : List (List Char)}
    (h : more ≠ []) :
    documentTokens number (line :: more) =
      markFirst (indentOf line) (lineTokens number line) ++ lineBreak number line ::
        documentTokens (number + 1) more := by
  rw [documentTokens, markFirst_append_break, List.append_assoc]
  · rfl
  · exact h

theorem documentTokens_append (number : Nat) (front : List (List Char)) (last : List Char)
    {behind : List (List Char)} (hbehind : behind ≠ []) :
    documentTokens number (front ++ last :: behind) =
      documentTokens number (front ++ [last]) ++ lineBreak (number + front.length) last ::
        documentTokens (number + front.length + 1) behind := by
  induction front generalizing number with
  | nil =>
    rw [List.nil_append, documentTokens_cons number last hbehind, List.nil_append, documentTokens]
    rfl
  | cons line front ih =>
    have hnumber : number + (line :: front).length = number + 1 + front.length := by
      rw [List.length_cons]
      omega
    rw [List.cons_append, List.cons_append, documentTokens_cons number line (by simp),
      documentTokens_cons number line (by simp), ih, hnumber, List.append_assoc, List.cons_append]

/-! ## Moving down -/

theorem place_down (lines number : Nat) (kind : TokenKind) (column : Nat) (text : List Char) :
    place (number + lines) kind column text =
      (place number kind column text).move (Position.down lines) := by
  simp [place, Token.move, Range.move, Position.down]

theorem lineTokens_down (lines number : Nat) (line : List Char) :
    lineTokens (number + lines) line =
      (lineTokens number line).map (Token.move (Position.down lines)) := by
  simp only [lineTokens, List.map_map]
  exact List.map_congr_left fun x _ => place_down lines number x.1 x.2.1 x.2.2

theorem markFirst_down (lines indent : Nat) (ts : List Token) :
    markFirst indent (ts.map (Token.move (Position.down lines))) =
      (markFirst indent ts).map (Token.move (Position.down lines)) := by
  cases ts <;> rfl

theorem documentTokens_down (lines number : Nat) (ls : List (List Char)) :
    documentTokens (number + lines) ls =
      (documentTokens number ls).map (Token.move (Position.down lines)) := by
  fun_induction documentTokens number ls with
  | case1 => rfl
  | case2 number line => rw [documentTokens, lineTokens_down, markFirst_down]
  | case3 number line more hmore ih =>
    have hbreak : breakToken (number + lines) line =
        (breakToken number line).move (Position.down lines) := place_down lines number _ _ _
    have hnext : number + lines + 1 = number + 1 + lines := by omega
    rw [documentTokens, lineTokens_down, hbreak, hnext, ih, List.map_append, ← markFirst_down,
      List.map_append]
    · rfl
    · exact hmore

/-! ## Columns -/

/-- A lexeme in the first column stands before all others, and its line is not indented. -/
theorem scan_of_column_zero {rounds : Nat} {cs : List Char} {x : TokenKind × Nat × List Char}
    (h : x ∈ scan rounds 0 cs) (hx : x.2.1 = 0) :
    indentOf cs = 0 ∧ ∃ more, scan rounds 0 cs = x :: more ∧ ∀ y ∈ more, 0 < y.2.1 := by
  cases cs with
  | nil => simp [scan_nil] at h
  | cons c rest =>
    cases rounds with
    | zero => cases h
    | succ rounds =>
      rw [scan] at h ⊢
      split at h
      · obtain ⟨_, _, _, -, -, hle, -⟩ := lexeme_of_mem_scan h
        omega
      · rename_i hspace
        have hlexeme := List.length_pos_iff.2 (lexeme_splits c rest).ne_nil
        have hmore : ∀ y ∈ scan rounds (0 + (lexeme c rest).2.lexeme.length) (lexeme c rest).2.rest,
            0 < y.2.1 := by
          intro y hy
          obtain ⟨_, _, _, -, -, hle, -⟩ := lexeme_of_mem_scan hy
          omega
        rw [if_neg hspace]
        refine ⟨by simp [indentOf, hspace], _, ?_, hmore⟩
        rcases List.mem_cons.1 h with rfl | h
        · rfl
        · exact absurd hx (Nat.ne_of_gt (hmore x h))

theorem indent_of_line {number : Nat} {line : List Char} {t : Token}
    (h : t ∈ markFirst (indentOf line) (lineTokens number line))
    (hcolumn : t.range.start.character = 0) : t.indent = some 0 := by
  obtain ⟨u, hu, i, ht⟩ := mem_markFirst h
  obtain ⟨x, hx, rfl⟩ := List.mem_map.1 hu
  have hzero : x.2.1 = 0 := by
    rw [ht] at hcolumn
    exact Int.ofNat_eq_zero.1 hcolumn
  obtain ⟨hindent, more, hscan, hmore⟩ := scan_of_column_zero hx hzero
  rw [lineTokens, hscan, List.map_cons, markFirst, hindent] at h
  rcases List.mem_cons.1 h with rfl | h
  · rfl
  · obtain ⟨y, hy, rfl⟩ := List.mem_map.1 h
    exact absurd (Int.ofNat_eq_zero.1 hcolumn) (Nat.ne_of_gt (hmore y hy))

/-- Code in the first column opens a line that is not indented. -/
theorem indent_of_column_zero {number : Nat} {lines : List (List Char)} {t : Token}
    (h : t ∈ documentTokens number lines) (hcode : t.isLayout = false)
    (hcolumn : t.range.start.character = 0) : t.indent = some 0 := by
  fun_induction documentTokens number lines with
  | case1 => cases h
  | case2 => exact indent_of_line h hcolumn
  | case3 number line more _ ih =>
    rw [markFirst_append_break, List.append_assoc] at h
    rcases List.mem_append.1 h with h | h
    · exact indent_of_line h hcolumn
    · rcases List.mem_cons.1 h with rfl | h
      · cases hcode
      · exact ih h

end Lexer

/-- Two texts with a line break between them are scanned one by one. -/
theorem tokenize_append_break {a : String} (h : a.toList.getLast? ≠ some '\r') (b : String)
    {front : List (List Char)} {last : List Char} (hlast : Text.lines a.toList = front ++ [last]) :
    tokenize (a ++ "\n" ++ b) =
      tokenize a ++ Lexer.lineBreak front.length last ::
        (tokenize b).map (Token.move (Position.down (front.length + 1))) := by
  have hchars : (a ++ "\n" ++ b).toList = a.toList ++ '\n' :: b.toList := by simp
  have hdown := Lexer.documentTokens_down (front.length + 1) 0 (Text.lines b.toList)
  rw [tokenize, hchars, Text.lines_append_newline h, hlast, List.append_assoc,
    List.singleton_append, Lexer.documentTokens_append 0 front last (Text.lines_ne_nil _),
    tokenize, hlast, tokenize, ← hdown, Nat.add_assoc, Nat.zero_add]

theorem tokenize_append_newline {a : String} (h : a.toList.getLast? ≠ some '\r') (b : String) :
    ∃ nl : Token, nl.kind = .newline ∧
      tokenize (a ++ "\n" ++ b) =
        tokenize a ++ nl :: (tokenize b).map
          (Token.move (Position.down (Text.lines a.toList).length)) := by
  obtain ⟨front, last, hlast⟩ := Text.exists_last_line a.toList
  refine ⟨Lexer.lineBreak front.length last, rfl, ?_⟩
  rw [tokenize_append_break h b hlast, hlast, List.length_append, List.length_singleton]

end PineScript
