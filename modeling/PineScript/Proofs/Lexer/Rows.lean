import Mathlib.Data.List.Chain
import PineScript.Proofs.Lexer.Edited

/-!
# Physical lines

Every token stands on one line, behind those in front of it. Behind a line break the next line begins,
and on each line the first token alone has an indentation. A comment is the last lexeme of its line.
-/

namespace PineScript

/-- Tokens that follow each other line by line. -/
structure Token.Rows (ts : List Token) : Prop where
  flat : ∀ t ∈ ts, t.range.stop.line = t.range.start.line ∧ t.range.start < t.range.stop
  ordered : ts.Pairwise fun s t => s.range.stop ≤ t.range.start
  breaks : ts.Pairwise fun s t => s.kind = .newline → s.range.start.line < t.range.start.line
  leads : ∀ n t more, ts.filter (·.range.start.line == n) = t :: more →
    t.isLineLeading = true ∧ ∀ u ∈ more, u.isLineLeading = false

/-- Behind a line break all lines are later ones. -/
theorem Token.Rows.line_lt {ts front behind : List Token} {b : Token} (h : Token.Rows ts)
    (hts : ts = front ++ b :: behind) (hb : b.kind = .newline) :
    ∀ t ∈ front, ∀ u ∈ behind, t.range.start.line < u.range.start.line := by
  subst hts
  intro t ht u hu
  have hstop := (List.pairwise_append.1 h.ordered).2.2 t ht b List.mem_cons_self
  have hline := (List.pairwise_cons.1 (List.pairwise_append.1 h.breaks).2.1).1 u hu hb
  have hflat := (h.flat t (List.mem_append_left _ ht)).1
  rw [Position.le_def] at hstop
  omega

/-- A token with an indentation stands on a later line than what is in front of it. -/
theorem Token.Rows.line_lt_of_leading {ts : List Token} (h : Token.Rows ts) :
    ts.Pairwise fun s t => t.isLineLeading = true → s.range.start.line < t.range.start.line := by
  refine List.pairwise_iff_forall_sublist.2 fun {s t} hsub ht => ?_
  have hstop := List.pairwise_iff_forall_sublist.1 h.ordered hsub
  have hflat := (h.flat s (hsub.subset (by simp))).1
  have hle : s.range.start.line ≤ t.range.start.line := by
    rw [Position.le_def] at hstop
    omega
  refine (Int.lt_or_eq_of_le hle).resolve_right fun heq => ?_
  -- Of two tokens on one line the second has no indentation.
  have hline := hsub.filter (·.range.start.line == t.range.start.line)
  cases hon : ts.filter (·.range.start.line == t.range.start.line) with
  | nil => simp [hon, heq] at hline
  | cons u more =>
    have htail : [t].Sublist more := by simpa [hon, heq] using hline.tail
    simp [(h.leads _ u more hon).2 t (List.singleton_sublist.1 htail)] at ht

/-- A token with an indentation is the first of its line. -/
theorem Token.Rows.filter_line_of_leading {ts : List Token} {t : Token} (h : Token.Rows ts)
    (ht : t ∈ ts) (hlead : t.isLineLeading = true) :
    ∃ more, ts.filter (·.range.start.line == t.range.start.line) = t :: more := by
  have hmem : t ∈ ts.filter (·.range.start.line == t.range.start.line) := by simp [ht]
  cases hon : ts.filter (·.range.start.line == t.range.start.line) with
  | nil => simp [hon] at hmem
  | cons u more =>
    rw [hon] at hmem
    rcases List.mem_cons.1 hmem with rfl | hmore
    · exact ⟨more, rfl⟩
    · simp [(h.leads _ u more hon).2 t hmore] at hlead

/-- A token right behind another. It is on the same line, unless the other one breaks the line. -/
structure Token.Follows (s t : Token) : Prop where
  leads : s.kind = .newline → t.isLineLeading = true
  stays : s.kind ≠ .newline → t.range.start.line = s.range.start.line
  closes : s.kind = .comment → t.kind = .newline

namespace Lexer

theorem flat_of_mem_documentTokens {number : Nat} {lines : List (List Char)} {t : Token}
    (h : t ∈ documentTokens number lines) :
    t.range.stop.line = t.range.start.line ∧ t.range.start < t.range.stop := by
  obtain ⟨i, line, closed, -, ht⟩ := exists_line_of_mem_documentTokens h
  obtain ⟨start, stop, hlt, hrange, -⟩ := (covers_markedLine _ _ _).slice t ht
  rw [hrange]
  exact ⟨rfl, Position.lt_def.2 (.inr ⟨rfl, Int.ofNat_lt.2 hlt⟩)⟩

/-- The kinds of the tokens of a line are those of its lexemes, with the break at the end. -/
theorem pairwise_markedLine {R : TokenKind → TokenKind → Prop} {number : Nat} {line : List Char}
    {closed : Bool} (hline : (lineTokens number line).Pairwise fun s t => R s.kind t.kind)
    (hbreak : ∀ t ∈ lineTokens number line, R t.kind .newline) :
    (markedLine number line closed).Pairwise fun s t => R s.kind t.kind := by
  have hbare : (lineTokens number line ++ if closed then [breakToken number line] else []).Pairwise
      fun s t => R s.kind t.kind := by
    cases closed with
    | false => simpa using hline
    | true =>
      refine List.pairwise_append.2 ⟨hline, List.pairwise_singleton _ _, fun s hs t ht => ?_⟩
      rw [List.mem_singleton.1 ht]
      exact hbreak s hs
  rw [markedLine]
  cases hts : lineTokens number line ++ if closed then [breakToken number line] else [] with
  | nil => exact .nil
  | cons t ts =>
    rw [hts] at hbare
    exact .cons (List.pairwise_cons.1 hbare).1 (List.pairwise_cons.1 hbare).2

/-- A line break is the last token of its line. -/
theorem breaks_markedLine (number : Nat) (line : List Char) (closed : Bool) :
    (markedLine number line closed).Pairwise fun s _ => s.kind ≠ .newline :=
  pairwise_markedLine (R := fun kind _ => kind ≠ .newline)
    (.imp_of_mem (fun hs _ _ => ne_newline_of_mem_lineTokens hs)
      (List.pairwise_of_forall fun _ _ => trivial))
    fun _ => ne_newline_of_mem_lineTokens

/-- Only the line break stands behind a comment. -/
theorem comments_markedLine (number : Nat) (line : List Char) (closed : Bool) :
    (markedLine number line closed).Pairwise fun s t => s.kind = .comment → t.kind = .newline := by
  refine pairwise_markedLine (R := fun kind kind' => kind = .comment → kind' = .newline) ?_
    fun _ _ _ => rfl
  exact List.pairwise_map.2 ((free_scan _ 0 line).imp fun hfree hkind => absurd (.inl hkind) hfree)

theorem breaks_documentTokens (number : Nat) (lines : List (List Char)) :
    (documentTokens number lines).Pairwise fun s t =>
      s.kind = .newline → s.range.start.line < t.range.start.line := by
  induction lines generalizing number with
  | nil => exact .nil
  | cons line more ih =>
    rw [documentTokens_eq_markedLine_append]
    refine List.pairwise_append.2 ⟨?_, ih (number + 1), fun s hs t ht _ => ?_⟩
    · exact (breaks_markedLine number line _).imp fun hs hbreak => absurd hbreak hs
    · have hlater := le_line_of_mem_documentTokens ht
      rw [line_of_mem_markedLine hs]
      omega

theorem newline_of_getLast? {number : Nat} {line : List Char} {t : Token}
    (h : (markedLine number line true).getLast? = some t) : t.kind = .newline := by
  have hlast := getLast?_markFirst (indentOf line) (lineTokens number line ++ [breakToken number line])
  simp only [markedLine, ↓reduceIte] at h
  rw [h, List.getLast?_concat] at hlast
  exact congrArg Prod.fst (Option.some.inj hlast)

/-- The first token of a document opens its line. -/
theorem isLineLeading_of_head? {number : Nat} {lines : List (List Char)} {t : Token}
    (h : (documentTokens number lines).head? = some t) : t.isLineLeading = true := by
  cases lines with
  | nil => cases h
  | cons line more =>
    rw [documentTokens_eq_markedLine_append] at h
    cases hline : markedLine number line (!more.isEmpty) with
    | nil =>
      -- Without tokens, not even a break, the line is the last one.
      have hlast : more = [] := by
        have hbreaks := (covers_markedLine number line (!more.isEmpty)).breaks
        rw [hline] at hbreaks
        simpa using hbreaks
      rw [hline, hlast] at h
      cases h
    | cons u us =>
      rw [hline] at h
      cases h
      simp [Token.isLineLeading, ((covers_markedLine _ _ _).indents t us hline).1]

theorem follows_documentTokens (number : Nat) (lines : List (List Char)) :
    (documentTokens number lines).IsChain Token.Follows := by
  induction lines generalizing number with
  | nil => exact .nil
  | cons line more ih =>
    rw [documentTokens_eq_markedLine_append]
    refine List.isChain_append.2 ⟨?_, ih (number + 1), fun s hs t ht => ?_⟩
    · have hline :=
        (breaks_markedLine number line (!more.isEmpty)).and (comments_markedLine number line _)
      refine (hline.imp_of_mem fun hs ht h => ?_).isChain
      exact ⟨fun hbreak => absurd hbreak h.1,
        fun _ => (line_of_mem_markedLine ht).trans (line_of_mem_markedLine hs).symm, h.2⟩
    · have hclosed : (!more.isEmpty) = true := by
        cases more with
        | nil => cases ht
        | cons => rfl
      have hkind : s.kind = .newline := by
        rw [hclosed] at hs
        exact newline_of_getLast? hs
      exact ⟨fun _ => isLineLeading_of_head? ht, fun h => absurd hkind h,
        fun h => by cases h.symm.trans hkind⟩

theorem leads_documentTokens {lines : List (List Char)} {n : Int} {t : Token} {more : List Token}
    (h : (documentTokens 0 lines).filter (·.range.start.line == n) = t :: more) :
    t.isLineLeading = true ∧ ∀ u ∈ more, u.isLineLeading = false := by
  have hmem : t ∈ (documentTokens 0 lines).filter (·.range.start.line == n) := h ▸ List.mem_cons_self
  obtain ⟨ht, hline⟩ := List.mem_filter.1 hmem
  obtain ⟨i, -, hi, hon, -⟩ := on_of_mem_documentTokens ht
  obtain rfl : n = (0 : Nat) + i := by
    have := eq_of_beq hline
    omega
  rw [filter_line_documentTokens (by omega)] at h
  obtain ⟨hindent, -, hothers⟩ := (covers_markedLine _ _ _).indents t more h
  refine ⟨by simp [Token.isLineLeading, hindent], fun u hu => ?_⟩
  simp [Token.isLineLeading, hothers u hu]

end Lexer

theorem rows_tokenize (source : String) : Token.Rows (tokenize source) where
  flat _ := Lexer.flat_of_mem_documentTokens
  ordered := List.pairwise_map.1 (chain_tokenize source).pairwise
  breaks := Lexer.breaks_documentTokens 0 _
  leads _ _ _ := Lexer.leads_documentTokens

theorem follows_tokenize (source : String) : (tokenize source).IsChain Token.Follows :=
  Lexer.follows_documentTokens 0 _

end PineScript
