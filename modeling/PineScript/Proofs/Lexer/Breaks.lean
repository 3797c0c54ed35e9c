import PineScript.Proofs.Lexer.Edited
import PineScript.Proofs.Lexer.Joined
import PineScript.Script

/-!
# Line breaks

Scanning sees the lines of a text and not how they are broken. So a script that is read from a file,
where every break becomes a line feed, has the same tokens as the text that an editor sends.

Main statement: `tokenize_line_by_line`.
-/

namespace PineScript

/-! ## Breaks of one kind -/

namespace Text

theorem unifyBreaks_append {line : List Char} (h : ∀ c ∈ line, c ≠ '\r' ∧ c ≠ '\n')
    (cs : List Char) : unifyBreaks (line ++ cs) = line ++ unifyBreaks cs := by
  induction line with
  | nil => rfl
  | cons c line ih =>
    obtain ⟨hc, hline⟩ := List.forall_mem_cons.1 h
    rw [List.cons_append, unifyBreaks, if_neg hc.1, ih hline, List.cons_append]
    exact fun _ hr => absurd hr hc.1

theorem unifyBreaks_mark {mark rest : List Char} (hmark : mark ∈ [['\r', '\n'], ['\r'], ['\n']])
    (hrest : mark = ['\r'] → rest.head? ≠ some '\n') :
    unifyBreaks (mark ++ rest) = '\n' :: unifyBreaks rest := by
  simp only [List.mem_cons, List.not_mem_nil, or_false] at hmark
  rcases hmark with rfl | rfl | rfl
  · rfl
  · rw [List.singleton_append, unifyBreaks, if_pos rfl]
    rintro more - rfl
    exact hrest rfl rfl
  · rw [List.singleton_append, unifyBreaks, if_neg (by decide)]
    exact fun _ hr => absurd hr (by decide)

/-- Unified, a text is its lines with line feeds between them. -/
theorem Split.unifyBreaks_eq {cs : List Char} {ls : List (List Char)} (h : Split cs ls) :
    unifyBreaks cs = ['\n'].intercalate ls := by
  induction h with
  | @last line hline =>
    have hunified := unifyBreaks_append hline []
    rw [List.append_nil] at hunified
    rw [hunified, unifyBreaks, List.append_nil, List.intercalate_singleton]
  | @cons line mark rest more hline hmark hrest hmore ih =>
    have hne : more ≠ [] := by
      cases hmore <;> exact List.cons_ne_nil _ _
    obtain ⟨next, later, rfl⟩ := List.exists_cons_of_ne_nil hne
    rw [List.append_assoc, unifyBreaks_append hline, unifyBreaks_mark hmark hrest, ih,
      List.intercalate_cons_cons, List.append_assoc, List.singleton_append]

theorem Split.no_breaks {cs : List Char} {ls : List (List Char)} (h : Split cs ls) :
    ∀ l ∈ ls, ∀ c ∈ l, c ≠ '\r' ∧ c ≠ '\n' := by
  induction h with
  | last hline => exact List.forall_mem_singleton.2 hline
  | cons line mark hline _ _ _ ih => exact List.forall_mem_cons.2 ⟨hline, ih⟩

/-- The lines of a text do not depend on how they are broken. -/
theorem lines_unifyBreaks (cs : List Char) : lines (unifyBreaks cs) = lines cs := by
  have hsplit := split_lines cs
  rw [hsplit.unifyBreaks_eq, lines_intercalate (lines_ne_nil cs) hsplit.no_breaks]

end Text

theorem tokenize_unifyBreaks (source : String) :
    tokenize (String.ofList (Text.unifyBreaks source.toList)) = tokenize source := by
  rw [tokenize, String.toList_ofList, Text.lines_unifyBreaks, tokenize]

/-- A file is read as the text that its bytes stand for, less the kinds of its line breaks. -/
theorem Script.read_of_decoded {tree : FileTree} {path : FilePath} {bytes : List UInt8}
    {raw : String} (hbytes : tree.read path = .ok bytes) (hraw : Text.decodeUtf8 bytes = .ok raw) :
    Script.read tree path = .ok (String.ofList (Text.unifyBreaks raw.toList)) := by
  rw [Script.read, hbytes]
  simp only [hraw]

/-! ## The break between two texts -/

namespace Lexer

theorem markFirst_eq_nil_iff {indent : Nat} {ts : List Token} :
    markFirst indent ts = [] ↔ ts = [] := by
  cases ts <;> simp [markFirst]

/-- The last line of a text has no tokens if none of the text's tokens stands on it. -/
theorem lineTokens_last_eq_nil_iff {source : String} {front : List (List Char)} {last : List Char}
    (h : Text.lines source.toList = front ++ [last]) :
    lineTokens front.length last = [] ↔
      ∀ t ∈ tokenize source, t.range.start.line ≠ front.length := by
  have hline : (tokenize source).filter (·.range.start.line == ((0 : Nat) + front.length : Int)) =
      markedLine front.length last false := by
    have hlength : front.length < (front ++ [last]).length := by simp
    rw [tokenize, h, filter_line_documentTokens hlength 0]
    simp
  have hmarked : markedLine front.length last false = [] ↔ lineTokens front.length last = [] := by
    simp only [markedLine, Bool.false_eq_true, if_false, List.append_nil, markFirst_eq_nil_iff]
  rw [← hmarked, ← hline, List.filter_eq_nil_iff]
  simp

theorem isLineLeading_lineBreak (number : Nat) (line : List Char) :
    (lineBreak number line).isLineLeading = true ↔ lineTokens number line = [] := by
  rw [lineBreak, Token.isLineLeading]
  split <;> simp_all

theorem indent_of_lineBreak {number : Nat} {line : List Char} {i : Int}
    (h : (lineBreak number line).indent = some i) : i = indentOf line := by
  rw [lineBreak] at h
  split at h
  · exact (Option.some.inj h).symm
  · cases h

end Lexer

/-- Every line is scanned on its own, however it is broken. A text has the tokens that it has with
all breaks replaced by line feeds, and so a file has those of its text as it is. Two texts with a
line feed between them have the tokens of the first, a line break at the end of its last line, which
carries the indentation if that line has no token, and the tokens of the second, moved down. -/
theorem tokenize_line_by_line :
    (∀ source : String,
      tokenize (String.ofList (Text.unifyBreaks source.toList)) = tokenize source) ∧
    (∀ (tree : FileTree) (path : FilePath) (bytes : List UInt8) (raw : String),
      tree.read path = .ok bytes → Text.decodeUtf8 bytes = .ok raw →
      ∃ text, Script.read tree path = .ok text ∧ tokenize text = tokenize raw) ∧
    ∀ a b : String, a.toList.getLast? ≠ some '\r' →
      ∃ (front : List (List Char)) (last : List Char) (seam : Token),
        Text.lines a.toList = front ++ [last] ∧
        tokenize (a ++ "\n" ++ b) = tokenize a ++ seam ::
          (tokenize b).map (Token.move (Position.down (Text.lines a.toList).length)) ∧
        seam.kind = .newline ∧ seam.text = "\n" ∧
        seam.range = ⟨⟨front.length, last.length⟩, ⟨front.length, last.length + 1⟩⟩ ∧
        (seam.isLineLeading = true ↔ ∀ t ∈ tokenize a, t.range.start.line ≠ front.length) ∧
        ∀ i, seam.indent = some i → i = (last.takeWhile Lexer.isSpace).length := by
  refine ⟨tokenize_unifyBreaks, fun tree path bytes raw hbytes hraw => ?_, fun a b h => ?_⟩
  · exact ⟨_, Script.read_of_decoded hbytes hraw, tokenize_unifyBreaks raw⟩
  · obtain ⟨front, last, hlast⟩ := Text.exists_last_line a.toList
    refine ⟨front, last, Lexer.lineBreak front.length last, hlast, ?_, rfl, rfl, rfl, ?_, ?_⟩
    · rw [tokenize_append_break h b hlast, hlast, List.length_append, List.length_singleton]
    · rw [Lexer.isLineLeading_lineBreak, Lexer.lineTokens_last_eq_nil_iff hlast]
    · exact fun i => Lexer.indent_of_lineBreak

/-- The break behind a blank line opens this line. A file has the tokens of its text. -/
theorem tokenize_line_by_line_blank :
    (∃ seam : Token, tokenize ("x\r\n  " ++ "\n" ++ "y\rz") =
      tokenize "x\r\n  " ++ seam :: (tokenize "y\rz").map (Token.move (Position.down 2)) ∧
      seam.range = ⟨⟨1, 2⟩, ⟨1, 3⟩⟩ ∧ seam.isLineLeading = true) ∧
    ∃ text, Script.read ⟨[], [(["a.pine"], .file [120, 13, 10, 121])]⟩ ⟨"", ["a.pine"]⟩ =
      .ok text ∧ tokenize text = tokenize "x\r\ny" := by
  obtain ⟨-, hread, hjoin⟩ := tokenize_line_by_line
  refine ⟨?_, hread _ _ [120, 13, 10, 121] "x\r\ny" (by decide +kernel) (by decide +kernel)⟩
  obtain ⟨front, last, seam, hlines, htokens, -, -, hrange, hlead, -⟩ :=
    hjoin "x\r\n  " "y\rz" (by decide)
  have htwo : Text.lines "x\r\n  ".toList = [['x']] ++ [[' ', ' ']] := by decide +kernel
  obtain ⟨rfl, rfl⟩ := List.append_singleton_inj.1 (htwo.symm.trans hlines)
  rw [htwo] at htokens
  exact ⟨seam, htokens, hrange, hlead.2 (by decide +kernel)⟩

end PineScript
