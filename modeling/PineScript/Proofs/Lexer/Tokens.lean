import PineScript.Proofs.Lexer.Lexeme

/-!
# The tokens of a document

A token of a document is scanned in one of its lines or is the break behind it. What scanning
promises of every token, whatever the document: its kind agrees with its spelling.
-/

namespace PineScript

/-- What scanning promises of a token: key words and operators can be told apart by their spelling,
and there is no mark of the end. -/
structure Token.Scanned (t : Token) : Prop where
  keyword : t.kind = .keyword → t.text ∈ keywords
  operator : t.kind = .operator → t.text ∉ keywords
  ne_eof : t.kind ≠ .eof

namespace Lexer

theorem Form.scanned {c : Char} {rest text left : List Char} {kind : TokenKind}
    (h : Form c rest kind ⟨text, left⟩) (line column : Nat) :
    (place line kind column text).Scanned := by
  cases h with
  | name h =>
    rcases wordKind_cases text with ⟨hkind, hmem⟩ | ⟨hkind, -⟩
    · refine ⟨fun _ => hmem, ?_, ?_⟩ <;> simp [place, hkind]
    · refine ⟨?_, ?_, ?_⟩ <;> simp [place, hkind]
  | operator h =>
    refine ⟨by simp [place], fun _ => ?_, by simp [place]⟩
    change String.ofList text ∉ keywords
    have hlong : longOperators.all (String.ofList · ∉ keywords) = true := by decide
    have hshort : shortOperators.all (String.ofList [·] ∉ keywords) = true := by decide
    rcases operator?_text h with hmem | ⟨a, ha, heq⟩
    · exact of_decide_eq_true (List.all_eq_true.1 hlong text hmem)
    · simp only at heq
      rw [heq]
      exact of_decide_eq_true (List.all_eq_true.1 hshort a ha)
  | _ => refine ⟨?_, ?_, ?_⟩ <;> simp [place]

/-- Every scanned piece is a lexeme. -/
theorem form_of_mem_scan {rounds column : Nat} {cs : List Char} {x : TokenKind × Nat × List Char}
    (h : x ∈ scan rounds column cs) : ∃ c rest left, Form c rest x.1 ⟨x.2.2, left⟩ := by
  obtain ⟨c, rest, left, hlex, -⟩ := lexeme_of_mem_scan h
  have hform := lexeme_form c rest
  rw [hlex] at hform
  exact ⟨c, rest, left, hform⟩

theorem mem_markFirst {indent : Nat} {ts : List Token} {t : Token} (h : t ∈ markFirst indent ts) :
    ∃ u ∈ ts, ∃ i, t = { u with indent := i } := by
  cases ts with
  | nil => cases h
  | cons u ts =>
    rcases List.mem_cons.1 h with rfl | h
    · exact ⟨u, List.mem_cons_self, _, rfl⟩
    · exact ⟨t, List.mem_cons_of_mem u h, t.indent, rfl⟩

/-- The tokens of one line, which a break may close. -/
def markedLine (number : Nat) (line : List Char) (closed : Bool) : List Token :=
  markFirst (indentOf line)
    (lineTokens number line ++ if closed then [breakToken number line] else [])

/-- The tokens of a line with its break, before the indentation is handed over. -/
theorem mem_closed {number : Nat} {line : List Char} {closed : Bool} {t : Token}
    (h : t ∈ lineTokens number line ++ if closed then [breakToken number line] else []) :
    (∃ x ∈ scan line.length 0 line, t = place number x.1 x.2.1 x.2.2) ∨
      closed = true ∧ t = breakToken number line := by
  rcases List.mem_append.1 h with h | h
  · obtain ⟨x, hx, rfl⟩ := List.mem_map.1 h
    exact .inl ⟨x, hx, rfl⟩
  · obtain ⟨hclosed, h⟩ := List.mem_ite_nil_right.1 h
    exact .inr ⟨hclosed, List.mem_singleton.1 h⟩

theorem indent_of_closed {number : Nat} {line : List Char} {closed : Bool} {t : Token}
    (h : t ∈ lineTokens number line ++ if closed then [breakToken number line] else []) :
    t.indent = none := by
  rcases mem_closed h with ⟨x, -, rfl⟩ | ⟨-, rfl⟩ <;> rfl

theorem documentTokens_eq_markedLine_append (number : Nat) (line : List Char)
    (more : List (List Char)) :
    documentTokens number (line :: more) =
      markedLine number line (!more.isEmpty) ++ documentTokens (number + 1) more := by
  cases more with
  | nil =>
    rw [documentTokens, documentTokens, markedLine]
    simp
  | cons next more => rfl

/-- A token of a document is one of a line of it. -/
theorem exists_line_of_mem_documentTokens {number : Nat} {lines : List (List Char)} {t : Token}
    (h : t ∈ documentTokens number lines) :
    ∃ i line closed, i < lines.length ∧ t ∈ markedLine (number + i) line closed := by
  induction lines generalizing number with
  | nil => cases h
  | cons line more ih =>
    rw [documentTokens_eq_markedLine_append] at h
    rcases List.mem_append.1 h with h | h
    · exact ⟨0, line, _, Nat.succ_pos _, h⟩
    · obtain ⟨i, line, closed, hi, ht⟩ := ih h
      rw [Nat.add_right_comm, Nat.add_assoc] at ht
      exact ⟨i + 1, line, closed, Nat.succ_lt_succ hi, ht⟩

theorem scanned_of_mem_documentTokens {number : Nat} {lines : List (List Char)} {t : Token}
    (h : t ∈ documentTokens number lines) : t.Scanned := by
  obtain ⟨i, line, closed, -, ht⟩ := exists_line_of_mem_documentTokens h
  obtain ⟨u, hu, indent, rfl⟩ := mem_markFirst ht
  have hscanned : u.Scanned := by
    rcases mem_closed hu with ⟨x, hx, rfl⟩ | ⟨-, rfl⟩
    · obtain ⟨c, rest, left, hform⟩ := form_of_mem_scan hx
      exact hform.scanned _ _
    · refine ⟨?_, ?_, ?_⟩ <;> simp [breakToken, place]
  exact ⟨hscanned.keyword, hscanned.operator, hscanned.ne_eof⟩

end Lexer

theorem scanned_of_mem_tokenize {source : String} {t : Token} (h : t ∈ tokenize source) :
    t.Scanned :=
  Lexer.scanned_of_mem_documentTokens h

end PineScript
