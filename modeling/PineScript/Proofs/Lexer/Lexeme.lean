import PineScript.Token.Lexer

/-!
# Lexemes

Every form of lexeme cuts the text in two without loss, and none is empty.
-/

namespace PineScript

/-- The kind and spelling of a token. -/
def Token.lexeme (t : Token) : TokenKind × String := (t.kind, t.text)

namespace Lexer

namespace Cut

/-- The two parts make up the text, and there is a lexeme. -/
structure Splits (cut : Cut) (cs : List Char) : Prop where
  append_eq : cut.lexeme ++ cut.rest = cs
  ne_nil : cut.lexeme ≠ []

theorem Splits.cons {cut : Cut} {cs : List Char} (h : cut.lexeme ++ cut.rest = cs) (c : Char) :
    (cut.cons c).Splits (c :: cs) :=
  ⟨by simp [Cut.cons, h], by simp [Cut.cons]⟩

theorem Splits.append {cut : Cut} {cs front : List Char} (h : cut.lexeme ++ cut.rest = cs)
    (hfront : front ≠ []) : (cut.append front).Splits (front ++ cs) :=
  ⟨by simp [Cut.append, h], by simp [Cut.append, hfront]⟩

theorem run_append_eq (p : Char → Bool) (cs : List Char) :
    (run p cs).lexeme ++ (run p cs).rest = cs :=
  List.takeWhile_append_dropWhile

theorem run?_splits {p : Char → Bool} {cs : List Char} {cut : Cut} (h : run? p cs = some cut) :
    cut.Splits cs := by
  unfold run? at h
  split at h
  · rename_i c rest
    split at h
    · rename_i hc
      cases h
      exact ⟨run_append_eq p _, by simp [run, hc]⟩
    · cases h
  · cases h

/-- The same lexeme with more text behind it. -/
def extend (cut : Cut) (tail : List Char) : Cut := ⟨cut.lexeme, cut.rest ++ tail⟩

theorem run_append {p : Char → Bool} {s : Char} (hs : p s = false) (cs tail : List Char) :
    run p (cs ++ s :: tail) = (run p cs).extend (s :: tail) := by
  induction cs with
  | nil => simp [run, extend, hs]
  | cons c cs ih =>
    simp only [run, extend, Cut.mk.injEq] at ih ⊢
    cases hc : p c <;> simp [hc, ih]

theorem run?_append {p : Char → Bool} {s : Char} (hs : p s = false) (cs tail : List Char) :
    run? p (cs ++ s :: tail) = (run? p cs).map (·.extend (s :: tail)) := by
  cases cs with
  | nil => simp [run?, hs]
  | cons c cs =>
    simp only [run?, List.cons_append]
    split
    · exact congrArg some (run_append hs (c :: cs) tail)
    · rfl

end Cut

/-! ## Nothing is lost -/

theorem comment?_splits {cs : List Char} {cut : Cut} (h : comment? cs = some cut) :
    cut.Splits cs := by
  unfold comment? at h
  split at h
  · cases h
    exact ⟨by simp, by simp⟩
  · cases h

theorem closeQuote?_append_eq {quote : Char} {cs : List Char} {cut : Cut}
    (h : closeQuote? quote cs = some cut) : cut.lexeme ++ cut.rest = cs := by
  fun_induction closeQuote? quote cs generalizing cut with
  | case1 => cases h
  | case2 => cases h; rfl
  | case3 => cases h
  | case4 d more _ ih =>
    obtain ⟨inner, hinner, rfl⟩ := Option.map_eq_some_iff.1 h
    simp [Cut.cons, ih hinner]
  | case5 c rest _ _ ih =>
    obtain ⟨inner, hinner, rfl⟩ := Option.map_eq_some_iff.1 h
    simp [Cut.cons, ih hinner]

theorem string?_splits {cs : List Char} {cut : Cut} (h : string? cs = some cut) :
    cut.Splits cs := by
  unfold string? at h
  split at h
  · cases h
  · split at h
    · obtain ⟨inner, hinner, rfl⟩ := Option.map_eq_some_iff.1 h
      exact .cons (closeQuote?_append_eq hinner) _
    · cases h

theorem unterminated?_splits {cs : List Char} {cut : Cut} (h : unterminated? cs = some cut) :
    cut.Splits cs := by
  unfold unterminated? at h
  split at h
  · cases h
  · split at h
    · cases h
      exact ⟨by simp, by simp⟩
    · cases h

theorem hexDigits?_append_eq {n : Nat} {cs : List Char} {cut : Cut} (h : hexDigits? n cs = some cut) :
    cut.lexeme ++ cut.rest = cs := by
  simp only [hexDigits?] at h
  split at h
  · cases h
    exact List.take_append_drop n cs
  · cases h

theorem color?_splits {cs : List Char} {cut : Cut} (h : color? cs = some cut) : cut.Splits cs := by
  unfold color? at h
  split at h
  · obtain ⟨inner, hinner, rfl⟩ := Option.map_eq_some_iff.1 h
    rcases Option.or_eq_some_iff.1 hinner with hinner | ⟨-, hinner⟩
    · exact .cons (hexDigits?_append_eq hinner) _
    · exact .cons (hexDigits?_append_eq hinner) _
  · cases h

theorem exponent?_splits {cs : List Char} {cut : Cut} (h : exponent? cs = some cut) :
    cut.Splits cs := by
  unfold exponent? at h
  split at h
  · split at h
    · split at h
      · split at h
        · obtain ⟨inner, hinner, rfl⟩ := Option.map_eq_some_iff.1 h
          exact .append (Cut.run?_splits hinner).append_eq (by simp)
        · obtain ⟨inner, hinner, rfl⟩ := Option.map_eq_some_iff.1 h
          exact .cons (Cut.run?_splits hinner).append_eq _
      · cases h
    · cases h
  · cases h

theorem mantissa?_splits {cs : List Char} {cut : Cut} (h : mantissa? cs = some cut) :
    cut.Splits cs := by
  unfold mantissa? at h
  split at h
  · rename_i whole rest hrun
    have hwhole := Cut.run?_splits hrun
    split at h
    · cases h
      refine ⟨?_, by simp [Cut.append]⟩
      have hmore := Cut.run_append_eq Text.isDigit ‹_›
      simp only [Cut.append, List.append_assoc, List.cons_append, hmore]
      exact hwhole.append_eq
    · cases h
      exact hwhole
  · split at h
    · obtain ⟨inner, hinner, rfl⟩ := Option.map_eq_some_iff.1 h
      exact .cons (Cut.run?_splits hinner).append_eq _
    · cases h

theorem number?_splits {cs : List Char} {cut : Cut} (h : number? cs = some cut) :
    cut.Splits cs := by
  obtain ⟨inner, hinner, rfl⟩ := Option.map_eq_some_iff.1 h
  have hmantissa := mantissa?_splits hinner
  split
  · rename_i power hpower
    have hsplit := Cut.Splits.append (exponent?_splits hpower).append_eq hmantissa.ne_nil
    rwa [hmantissa.append_eq] at hsplit
  · exact hmantissa

theorem word?_splits {cs : List Char} {cut : Cut} (h : word? cs = some cut) : cut.Splits cs := by
  unfold word? at h
  split at h
  · cases h
  · split at h
    · cases h
      exact .cons (Cut.run_append_eq _ _) _
    · cases h

theorem dottedWords_append_eq (cs : List Char) :
    (dottedWords cs).lexeme ++ (dottedWords cs).rest = cs := by
  fun_induction dottedWords cs with
  | case1 rest cut hword _ ih =>
    simp [Cut.append, ih, (word?_splits hword).append_eq]
  | case2 => rfl
  | case3 => rfl

theorem name?_splits {cs : List Char} {cut : Cut} (h : name? cs = some cut) : cut.Splits cs := by
  obtain ⟨inner, hinner, rfl⟩ := Option.map_eq_some_iff.1 h
  have hword := word?_splits hinner
  have hsplit := Cut.Splits.append (dottedWords_append_eq inner.rest) hword.ne_nil
  rwa [hword.append_eq] at hsplit

theorem operator?_splits {cs : List Char} {cut : Cut} (h : operator? cs = some cut) :
    cut.Splits cs := by
  unfold operator? at h
  split at h
  · split at h
    · cases h; exact ⟨rfl, by simp⟩
    · split at h
      · cases h; exact ⟨rfl, by simp⟩
      · cases h
  · split at h
    · cases h; exact ⟨rfl, by simp⟩
    · cases h
  · cases h

theorem punctuation?_splits {cs : List Char} {cut : Cut} (h : punctuation? cs = some cut) :
    cut.Splits cs := by
  unfold punctuation? at h
  split at h
  · split at h
    · cases h; exact ⟨rfl, by simp⟩
    · cases h
  · cases h

/-! ## Lexemes by form -/

/-- The form that applies, with its kind of token. -/
inductive Form (c : Char) (rest : List Char) : TokenKind → Cut → Prop
  | comment {cut : Cut} (h : comment? (c :: rest) = some cut) : Form c rest .comment cut
  | string {cut : Cut} (h : string? (c :: rest) = some cut) : Form c rest .string cut
  | unterminated {cut : Cut} (h : unterminated? (c :: rest) = some cut) : Form c rest .unknown cut
  | color {cut : Cut} (h : color? (c :: rest) = some cut) : Form c rest .color cut
  | number {cut : Cut} (h : number? (c :: rest) = some cut) : Form c rest .number cut
  | name {cut : Cut} (h : name? (c :: rest) = some cut) : Form c rest (wordKind cut.lexeme) cut
  | operator {cut : Cut} (h : operator? (c :: rest) = some cut) : Form c rest .operator cut
  | punctuation {cut : Cut} (h : punctuation? (c :: rest) = some cut) :
      Form c rest .punctuation cut
  | other : Form c rest .unknown ⟨[c], rest⟩

theorem lexeme_form (c : Char) (rest : List Char) :
    Form c rest (lexeme c rest).1 (lexeme c rest).2 := by
  simp only [lexeme]
  split
  · exact .comment ‹_›
  · split
    · exact .string ‹_›
    · split
      · exact .unterminated ‹_›
      · split
        · exact .color ‹_›
        · split
          · exact .number ‹_›
          · split
            · exact .name ‹_›
            · split
              · exact .operator ‹_›
              · split
                · exact .punctuation ‹_›
                · exact .other

theorem Form.splits {c : Char} {rest : List Char} {kind : TokenKind} {cut : Cut}
    (h : Form c rest kind cut) : cut.Splits (c :: rest) := by
  cases h with
  | comment h => exact comment?_splits h
  | string h => exact string?_splits h
  | unterminated h => exact unterminated?_splits h
  | color h => exact color?_splits h
  | number h => exact number?_splits h
  | name h => exact name?_splits h
  | operator h => exact operator?_splits h
  | punctuation h => exact punctuation?_splits h
  | other => exact ⟨rfl, by simp⟩

/-- A lexeme and what is left make up the text. -/
theorem lexeme_splits (c : Char) (rest : List Char) : (lexeme c rest).2.Splits (c :: rest) :=
  (lexeme_form c rest).splits

/-- What is scanned in a line is the lexeme of some end of the line. -/
theorem lexeme_of_mem_scan {rounds column : Nat} {cs : List Char} {x : TokenKind × Nat × List Char}
    (h : x ∈ scan rounds column cs) : ∃ c rest left, lexeme c rest = (x.1, ⟨x.2.2, left⟩) ∧
      isSpace c = false ∧ column ≤ x.2.1 ∧ c :: rest <:+ cs := by
  fun_induction scan rounds column cs with
  | case1 => cases h
  | case2 => cases h
  | case3 rounds column c rest _ ih =>
    obtain ⟨d, more, left, hlex, hd, hcolumn, hsuffix⟩ := ih h
    have hrun : (Cut.run isSpace rest).rest <:+ rest := ⟨_, Cut.run_append_eq isSpace rest⟩
    refine ⟨d, more, left, hlex, hd, by omega, hsuffix.trans (hrun.trans (List.suffix_cons c rest))⟩
  | case4 rounds column c rest hspace kind cut hlex ih =>
    rcases List.mem_cons.1 h with rfl | h
    · exact ⟨c, rest, cut.rest, hlex, Bool.eq_false_iff.2 hspace, Nat.le_refl _, List.suffix_refl _⟩
    · obtain ⟨d, more, left, hlex', hd, hcolumn, hsuffix⟩ := ih h
      have hsplits := (lexeme_splits c rest).append_eq
      rw [hlex] at hsplits
      exact ⟨d, more, left, hlex', hd, by omega, hsuffix.trans ⟨_, hsplits⟩⟩

theorem wordKind_cases (name : List Char) :
    wordKind name = .keyword ∧ String.ofList name ∈ keywords ∨
      wordKind name = .identifier ∧ String.ofList name ∉ keywords := by
  unfold wordKind
  split
  · exact .inl ⟨rfl, ‹_›⟩
  · exact .inr ⟨rfl, ‹_›⟩

/-- The spellings of operators. -/
theorem operator?_text {cs : List Char} {cut : Cut} (h : operator? cs = some cut) :
    cut.lexeme ∈ longOperators ∨ ∃ a ∈ shortOperators, cut.lexeme = [a] := by
  unfold operator? at h
  split at h
  · split at h
    · cases h; exact .inl ‹_›
    · split at h
      · cases h; exact .inr ⟨_, ‹_›, rfl⟩
      · cases h
  · split at h
    · cases h; exact .inr ⟨_, ‹_›, rfl⟩
    · cases h
  · cases h

end Lexer

end PineScript
