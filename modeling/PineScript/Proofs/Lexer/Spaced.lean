import PineScript.Proofs.Lexer.Lexeme
import PineScript.Tree.Fault

/-!
# Words with blanks between them

What stands behind a blank is not looked at: text in front of a blank is cut as if it stood alone,
unless a comment or an open quote would take the blank along. So words that are lexemes of their own
are scanned one by one if blanks stand between them.
-/

namespace PineScript.Lexer

/-- A comment, or a quote that nothing closes. -/
def Swallows (kind : TokenKind) (text : String) : Prop :=
  kind = .comment ∨ kind = .unknown ∧ Fault.opensQuote text = true

theorem opensQuote_of_splits {c : Char} {rest : List Char} {cut : Cut}
    (h : cut.Splits (c :: rest)) : Fault.opensQuote (String.ofList cut.lexeme) = isQuote c := by
  obtain ⟨d, text, htext⟩ := List.exists_cons_of_ne_nil h.ne_nil
  have hsplit := h.append_eq
  rw [htext] at hsplit
  obtain ⟨rfl, -⟩ := List.cons.inj hsplit
  rw [htext, Fault.opensQuote, String.toList_ofList]
  rfl

/-! ## Forms in front of a space -/

theorem closeQuote?_append {quote : Char} {cs : List Char} {cut : Cut} (tail : List Char)
    (h : closeQuote? quote cs = some cut) :
    closeQuote? quote (cs ++ tail) = some (cut.extend tail) := by
  fun_induction closeQuote? quote cs generalizing cut with
  | case1 => cases h
  | case2 rest =>
    cases h
    rw [List.cons_append]
    unfold closeQuote?
    rw [if_pos rfl]
    rfl
  | case3 => cases h
  | case4 d more hquote ih =>
    obtain ⟨inner, hinner, rfl⟩ := Option.map_eq_some_iff.1 h
    simp [closeQuote?, hquote, ih hinner, Cut.cons, Cut.extend]
  | case5 c rest hquote hslash ih =>
    obtain ⟨inner, hinner, rfl⟩ := Option.map_eq_some_iff.1 h
    rw [List.cons_append]
    unfold closeQuote?
    rw [if_neg hquote, if_neg hslash, ih hinner]
    rfl

theorem string?_append {cs : List Char} {cut : Cut} (tail : List Char) (h : string? cs = some cut) :
    string? (cs ++ tail) = some (cut.extend tail) := by
  match cs with
  | [] => cases h
  | c :: rest =>
    simp only [string?, List.cons_append] at h ⊢
    split at h
    · obtain ⟨inner, hinner, rfl⟩ := Option.map_eq_some_iff.1 h
      rw [if_pos ‹_›, closeQuote?_append tail hinner]
      rfl
    · cases h

section

variable {s : Char} (hspace : isSpace s = true)
include hspace

theorem eq_of_isSpace : s = ' ' ∨ s = '\t' ∨ s = '\x0c' := by
  simpa [isSpace, or_assoc] using hspace

theorem isDigit_of_isSpace : Text.isDigit s = false := by
  rcases eq_of_isSpace hspace with rfl | rfl | rfl <;> decide

theorem isWordChar_of_isSpace : Text.isWordChar s = false := by
  rcases eq_of_isSpace hspace with rfl | rfl | rfl <;> decide

theorem exponent?_append (cs tail : List Char) :
    exponent? (cs ++ s :: tail) = (exponent? cs).map (·.extend (s :: tail)) := by
  have hdigit := isDigit_of_isSpace hspace
  match cs with
  | [] => rcases eq_of_isSpace hspace with rfl | rfl | rfl <;> rfl
  | [c] =>
    have hsign : ¬(s = '+' ∨ s = '-') := by
      rcases eq_of_isSpace hspace with rfl | rfl | rfl <;> decide
    simp only [exponent?, List.cons_append, List.nil_append]
    split
    · simp [Cut.run?, hdigit]
    · rfl
  | c :: d :: more =>
    simp only [exponent?, List.cons_append]
    split
    · split
      · rw [Cut.run?_append hdigit, Option.map_map, Option.map_map]
        rfl
      · rw [← List.cons_append, Cut.run?_append hdigit, Option.map_map, Option.map_map]
        rfl
    · rfl

theorem mantissa?_append (cs tail : List Char) :
    mantissa? (cs ++ s :: tail) = (mantissa? cs).map (·.extend (s :: tail)) := by
  have hdigit := isDigit_of_isSpace hspace
  unfold mantissa?
  rw [Cut.run?_append hdigit]
  cases Cut.run? Text.isDigit cs with
  | some cut =>
    obtain ⟨whole, rest⟩ := cut
    match rest with
    | [] => rcases eq_of_isSpace hspace with rfl | rfl | rfl <;> rfl
    | d :: more =>
      by_cases hd : d = '.'
      · subst hd
        simp [Cut.extend, Cut.append, Cut.run_append hdigit]
      · simp [Cut.extend, hd]
  | none =>
    match cs with
    | [] => rcases eq_of_isSpace hspace with rfl | rfl | rfl <;> rfl
    | d :: more =>
      by_cases hd : d = '.'
      · subst hd
        simp only [Option.map_none, List.cons_append, Cut.run?_append hdigit, Option.map_map]
        rfl
      · simp [hd]

theorem number?_append (cs tail : List Char) :
    number? (cs ++ s :: tail) = (number? cs).map (·.extend (s :: tail)) := by
  unfold number?
  rw [mantissa?_append hspace, Option.map_map, Option.map_map]
  congr 1
  funext cut
  simp only [Function.comp_apply, Cut.extend, exponent?_append hspace]
  cases exponent? cut.rest <;> rfl

theorem word?_append (cs tail : List Char) :
    word? (cs ++ s :: tail) = (word? cs).map (·.extend (s :: tail)) := by
  have hword := isWordChar_of_isSpace hspace
  match cs with
  | [] => rcases eq_of_isSpace hspace with rfl | rfl | rfl <;> rfl
  | c :: rest =>
    simp only [word?, List.cons_append, Cut.run_append hword]
    split <;> rfl

theorem dottedWords_append (cs tail : List Char) :
    dottedWords (cs ++ s :: tail) = (dottedWords cs).extend (s :: tail) := by
  fun_induction dottedWords cs with
  | case1 rest cut hword _ ih =>
    rw [List.cons_append, dottedWords]
    split
    · rename_i cut' hcut'
      rw [word?_append hspace, hword] at hcut'
      cases hcut'
      simp only [Cut.extend] at ih ⊢
      rw [ih]
      rfl
    · rename_i hnone
      rw [word?_append hspace, hword] at hnone
      cases hnone
  | case2 rest hword =>
    rw [List.cons_append, dottedWords]
    split
    · rename_i cut' hcut'
      rw [word?_append hspace, hword] at hcut'
      cases hcut'
    · rfl
  | case3 cs hcs =>
    match cs with
    | [] =>
      rw [List.nil_append, dottedWords]
      · rfl
      · rcases eq_of_isSpace hspace with rfl | rfl | rfl <;> simp
    | d :: more =>
      have hd : d ≠ '.' := by
        rintro rfl
        exact hcs more rfl
      rw [List.cons_append, dottedWords]
      · rfl
      · simp [hd]

theorem name?_append (cs tail : List Char) :
    name? (cs ++ s :: tail) = (name? cs).map (·.extend (s :: tail)) := by
  unfold name?
  rw [word?_append hspace, Option.map_map, Option.map_map]
  congr 1
  funext cut
  simp only [Function.comp_apply, Cut.extend, dottedWords_append hspace]
  rfl

theorem hexDigits?_append (n : Nat) (cs tail : List Char) :
    hexDigits? n (cs ++ s :: tail) = (hexDigits? n cs).map (·.extend (s :: tail)) := by
  by_cases hlen : n ≤ cs.length
  · have hword : startsAsciiWord (cs.drop n ++ s :: tail) = startsAsciiWord (cs.drop n) := by
      cases cs.drop n with
      | nil => rcases eq_of_isSpace hspace with rfl | rfl | rfl <;> rfl
      | cons => rfl
    simp only [hexDigits?, List.take_append_of_le_length hlen, List.drop_append_of_le_length hlen,
      hword]
    split <;> rfl
  · -- The space would have to be one of the digits.
    obtain ⟨k, rfl⟩ : ∃ k, n = cs.length + (k + 1) := ⟨n - cs.length - 1, by omega⟩
    have hdigits : ((cs ++ s :: tail).take (cs.length + (k + 1))).all isHexDigit = false := by
      rw [List.take_length_add_append, List.take_succ_cons, List.all_append, List.all_cons]
      rcases eq_of_isSpace hspace with rfl | rfl | rfl <;> simp [isHexDigit]
    have hshort : (cs.take (cs.length + (k + 1))).length ≠ cs.length + (k + 1) := by
      rw [List.length_take]
      omega
    simp only [hexDigits?, hdigits, hshort, Bool.false_eq_true, false_and, and_false, if_false,
      Option.map_none]

theorem color?_append (cs tail : List Char) :
    color? (cs ++ s :: tail) = (color? cs).map (·.extend (s :: tail)) := by
  match cs with
  | [] => rcases eq_of_isSpace hspace with rfl | rfl | rfl <;> rfl
  | c :: rest =>
    by_cases hc : c = '#'
    · subst hc
      simp only [color?, List.cons_append, hexDigits?_append hspace]
      cases hexDigits? 8 rest <;> cases hexDigits? 6 rest <;> rfl
    · simp [color?, hc]

theorem operator?_append (cs tail : List Char) :
    operator? (cs ++ s :: tail) = (operator? cs).map (·.extend (s :: tail)) := by
  have hlong : ∀ a : Char, [a, s] ∉ longOperators := by
    rcases eq_of_isSpace hspace with rfl | rfl | rfl <;> simp [longOperators]
  match cs with
  | [] =>
    rcases eq_of_isSpace hspace with rfl | rfl | rfl <;> cases tail <;>
      simp [operator?, longOperators, shortOperators]
  | [a] =>
    simp only [operator?, List.cons_append, List.nil_append, hlong, if_false]
    split <;> rfl
  | a :: b :: rest =>
    simp only [operator?, List.cons_append]
    split
    · rfl
    · split <;> rfl

theorem punctuation?_append (cs tail : List Char) :
    punctuation? (cs ++ s :: tail) = (punctuation? cs).map (·.extend (s :: tail)) := by
  match cs with
  | [] => rcases eq_of_isSpace hspace with rfl | rfl | rfl <;> rfl
  | c :: rest =>
    simp only [punctuation?, List.cons_append]
    split <;> rfl

theorem comment?_append {c : Char} {rest : List Char} (tail : List Char)
    (h : comment? (c :: rest) = none) : comment? (c :: (rest ++ s :: tail)) = none := by
  match rest with
  | [] => rcases eq_of_isSpace hspace with rfl | rfl | rfl <;> simp [comment?]
  | d :: more =>
    by_cases hslash : c = '/' ∧ d = '/'
    · obtain ⟨rfl, rfl⟩ := hslash
      cases h
    · unfold comment?
      split
      · rename_i heq
        cases heq
        exact absurd ⟨rfl, rfl⟩ hslash
      · rfl

/-- A lexeme in front of a space is cut off as if it stood alone. -/
theorem lexeme_append {c : Char} {rest : List Char} {kind : TokenKind} {cut : Cut}
    (tail : List Char) (h : lexeme c rest = (kind, cut))
    (hfree : ¬Swallows kind (String.ofList cut.lexeme)) :
    lexeme c (rest ++ s :: tail) = (kind, cut.extend (s :: tail)) := by
  have hsplits := lexeme_splits c rest
  rw [h] at hsplits
  cases hc : comment? (c :: rest) with
  | some comment =>
    simp only [lexeme, hc, Prod.mk.injEq] at h
    exact absurd (.inl h.1.symm) hfree
  | none =>
    have hc' := comment?_append hspace tail hc
    cases hs : string? (c :: rest) with
    | some string =>
      have hs' := string?_append (s :: tail) hs
      rw [List.cons_append] at hs'
      simp only [lexeme, hc, hs, Prod.mk.injEq] at h
      obtain ⟨rfl, rfl⟩ := h
      simp only [lexeme, hc', hs']
    | none =>
      -- A quote that nothing closes would be an unknown token.
      have hquote : isQuote c = false := by
        cases hq : isQuote c with
        | false => rfl
        | true =>
          simp only [lexeme, hc, hs, unterminated?, hq, if_true, Prod.mk.injEq] at h
          exact absurd (.inr ⟨h.1.symm, (opensQuote_of_splits hsplits).trans hq⟩) hfree
      have hs' : string? (c :: (rest ++ s :: tail)) = none := by simp [string?, hquote]
      have hu : ∀ cs, unterminated? (c :: cs) = none := by simp [unterminated?, hquote]
      simp only [lexeme, hc, hs, hu] at h
      simp only [lexeme, hc', hs', hu]
      simp only [← List.cons_append, color?_append hspace, number?_append hspace, name?_append hspace,
        operator?_append hspace, punctuation?_append hspace]
      revert h
      cases color? (c :: rest) with
      | some cut => rintro ⟨⟩; rfl
      | none =>
        cases number? (c :: rest) with
        | some cut => rintro ⟨⟩; rfl
        | none =>
          cases name? (c :: rest) with
          | some cut => rintro ⟨⟩; rfl
          | none =>
            cases operator? (c :: rest) with
            | some cut => rintro ⟨⟩; rfl
            | none =>
              cases punctuation? (c :: rest) with
              | some cut => rintro ⟨⟩; rfl
              | none => rintro ⟨⟩; rfl

end

/-! ## Words that are lexemes of their own -/

/-- The kind and spelling of what was scanned. -/
def piece (x : TokenKind × Nat × List Char) : TokenKind × List Char := (x.1, x.2.2)

theorem markFirst_lexeme (indent : Nat) (ts : List Token) :
    (markFirst indent ts).map Token.lexeme = ts.map Token.lexeme := by
  cases ts <;> rfl

theorem lineTokens_lexeme (number : Nat) (line : List Char) :
    (lineTokens number line).map Token.lexeme =
      ((scan line.length 0 line).map piece).map fun x => (x.1, String.ofList x.2) := by
  simp only [lineTokens, List.map_map]
  rfl

/-- The text is one lexeme of its kind. -/
def Whole (kind : TokenKind) (cs : List Char) : Prop :=
  ∃ c rest, cs = c :: rest ∧ isSpace c = false ∧ lexeme c rest = (kind, ⟨cs, []⟩)

/-- The text is one lexeme, and more may follow behind a space. -/
structure Alone (kind : TokenKind) (cs : List Char) : Prop where
  whole : Whole kind cs
  free : ¬Swallows kind (String.ofList cs)

/-- The text is made of the lexemes, with blanks in front of them and between any two of them.
Behind the last one there may be blanks, unless it would take them along. -/
inductive Spaced : List (TokenKind × List Char) → List Char → Prop
  | blanks {blanks : List Char} (hblanks : ∀ c ∈ blanks, isSpace c = true) : Spaced [] blanks
  | last {blanks cs : List Char} {kind : TokenKind} (hblanks : ∀ c ∈ blanks, isSpace c = true)
      (hwhole : Whole kind cs) : Spaced [(kind, cs)] (blanks ++ cs)
  | more {blanks cs rest : List Char} {kind : TokenKind} {s : Char}
      {pieces : List (TokenKind × List Char)} (hblanks : ∀ c ∈ blanks, isSpace c = true)
      (halone : Alone kind cs) (hs : isSpace s = true) (hmore : Spaced pieces (s :: rest)) :
      Spaced ((kind, cs) :: pieces) (blanks ++ (cs ++ s :: rest))

theorem scan_nil (rounds column : Nat) : scan rounds column [] = [] := by
  cases rounds <;> rfl

/-- Nothing of a run of spaces is left in front of a word. -/
theorem run_isSpace_of_code {c : Char} {rest : List Char} (hc : isSpace c = false) :
    Cut.run isSpace (c :: rest) = ⟨[], c :: rest⟩ := by
  simp [Cut.run, hc]

/-- A run of blanks takes one round at most. -/
theorem scan_behind_blanks {blanks cs : List Char} (hblanks : ∀ c ∈ blanks, isSpace c = true)
    (hcs : ∀ c ∈ cs.head?, isSpace c = false) {rounds : Nat}
    (hrounds : (blanks ++ cs).length ≤ rounds) (column : Nat) :
    ∃ rounds', cs.length ≤ rounds' ∧
      scan rounds column (blanks ++ cs) = scan rounds' (column + blanks.length) cs := by
  have hrun : ∀ bs : List Char, (∀ c ∈ bs, isSpace c = true) →
      Cut.run isSpace (bs ++ cs) = ⟨bs, cs⟩ := by
    intro bs hbs
    rw [Cut.run, List.takeWhile_append_of_pos hbs, List.dropWhile_append_of_pos hbs]
    cases cs with
    | nil => simp
    | cons c rest => simp [hcs c rfl]
  cases blanks with
  | nil => exact ⟨rounds, hrounds, rfl⟩
  | cons b blanks =>
    rw [List.forall_mem_cons] at hblanks
    rw [List.cons_append, List.length_cons, List.length_append] at hrounds
    obtain ⟨rounds, rfl⟩ := Nat.exists_eq_add_of_le' (Nat.le_of_add_left_le hrounds)
    refine ⟨rounds, by omega, ?_⟩
    rw [List.cons_append, scan, if_pos hblanks.1, hrun blanks hblanks.2, List.length_cons,
      Nat.add_assoc]

theorem Whole.head {kind : TokenKind} {cs : List Char} (h : Whole kind cs) (tail : List Char) :
    ∀ c ∈ (cs ++ tail).head?, isSpace c = false := by
  obtain ⟨c, rest, rfl, hc, -⟩ := h
  simpa using hc

/-- Lexemes with blanks between them are scanned one by one. -/
theorem Spaced.scan_eq {pieces : List (TokenKind × List Char)} {cs : List Char}
    (h : Spaced pieces cs) {rounds : Nat} (hrounds : cs.length ≤ rounds) (column : Nat) :
    (scan rounds column cs).map piece = pieces := by
  induction h generalizing rounds column with
  | @blanks blanks hblanks =>
    rw [← List.append_nil blanks] at hrounds ⊢
    obtain ⟨rounds', -, hscan⟩ := scan_behind_blanks hblanks (by simp) hrounds column
    rw [hscan, scan_nil]
    rfl
  | @last blanks cs kind hblanks hwhole =>
    have hhead := hwhole.head []
    rw [List.append_nil] at hhead
    obtain ⟨rounds', hrounds', hscan⟩ := scan_behind_blanks hblanks hhead hrounds column
    obtain ⟨c, rest, rfl, hc, hlex⟩ := hwhole
    obtain ⟨rounds', rfl⟩ := Nat.exists_eq_add_of_le' (Nat.le_of_add_left_le hrounds')
    simp [hscan, scan, hc, hlex, scan_nil, piece]
  | @more blanks cs rest kind s pieces hblanks halone hs hmore ih =>
    obtain ⟨rounds', hrounds', hscan⟩ :=
      scan_behind_blanks hblanks (halone.whole.head _) hrounds column
    obtain ⟨c, text, rfl, hc, hlex⟩ := halone.whole
    rw [List.cons_append, List.length_cons, List.length_append] at hrounds'
    obtain ⟨rounds', rfl⟩ := Nat.exists_eq_add_of_le' (Nat.le_of_add_left_le hrounds')
    have hlex' := lexeme_append hs rest hlex halone.free
    have hbehind := @ih rounds' (by omega) (column + blanks.length + (c :: text).length)
    rw [hscan, List.cons_append, scan, if_neg (by simp [hc]), hlex']
    simp only [Cut.extend, List.nil_append, List.map_cons, hbehind]
    rfl

/-- Words with one space between them. -/
theorem spaced_intercalate {pieces : List (TokenKind × List Char)} (h : ∀ x ∈ pieces, Alone x.1 x.2)
    {blanks : List Char} (hblanks : ∀ c ∈ blanks, isSpace c = true) :
    Spaced pieces (blanks ++ [' '].intercalate (pieces.map (·.2))) := by
  induction pieces generalizing blanks with
  | nil => simpa using Spaced.blanks hblanks
  | cons x more ih =>
    obtain ⟨halone, hmore⟩ := List.forall_mem_cons.1 h
    cases more with
    | nil => simpa using Spaced.last hblanks halone.whole
    | cons y more =>
      have hrest := @ih hmore [' '] (by simp [isSpace])
      rw [List.map_cons, List.map_cons, List.intercalate_cons_cons, List.append_assoc,
        ← List.map_cons]
      exact .more hblanks halone rfl hrest

/-- Spaces in front of the words are their indentation. -/
theorem scan_indented {pieces : List (TokenKind × List Char)} (h : ∀ x ∈ pieces, Alone x.1 x.2)
    (hne : pieces ≠ []) (indent : Nat) :
    (scan (List.replicate indent ' ' ++ [' '].intercalate (pieces.map (·.2))).length 0
        (List.replicate indent ' ' ++ [' '].intercalate (pieces.map (·.2)))).map piece = pieces ∧
      indentOf (List.replicate indent ' ' ++ [' '].intercalate (pieces.map (·.2))) = indent := by
  have hspaces : ∀ a ∈ List.replicate indent ' ', isSpace a = true := by
    intro a ha
    rw [List.eq_of_mem_replicate ha]
    rfl
  refine ⟨(spaced_intercalate h hspaces).scan_eq (Nat.le_refl _) 0, ?_⟩
  obtain ⟨x, more, rfl⟩ := List.exists_cons_of_ne_nil hne
  obtain ⟨c, rest, hx, hc, -⟩ := (h x List.mem_cons_self).whole
  have hcode : ∃ tail, [' '].intercalate ((x :: more).map (·.2)) = c :: tail := by
    rw [List.map_cons, hx]
    cases more with
    | nil => exact ⟨rest, List.intercalate_singleton⟩
    | cons y more => exact ⟨_, by rw [List.map_cons, List.intercalate_cons_cons]; rfl⟩
  obtain ⟨tail, htail⟩ := hcode
  rw [htail, indentOf, List.takeWhile_append_of_pos hspaces]
  simp [hc]

/-! ## One token alone -/

theorem length_of_mem_scan {rounds column : Nat} {cs : List Char} {x : TokenKind × Nat × List Char}
    (h : x ∈ scan rounds column cs) : x.2.2.length ≤ cs.length := by
  obtain ⟨c, rest, left, hlex, -, -, hsuffix⟩ := lexeme_of_mem_scan h
  have hsplits := (lexeme_splits c rest).append_eq
  rw [hlex] at hsplits
  rw [← hsplits] at hsuffix
  exact Nat.le_trans (List.prefix_append x.2.2 left).length_le hsuffix.length_le

/-- A line that is one token without spaces around it is a lexeme of its own. -/
theorem alone_of_scan {kind : TokenKind} {cs : List Char} (hcomment : kind ≠ .comment)
    (hunknown : kind ≠ .unknown) (h : (scan cs.length 0 cs).map piece = [(kind, cs)]) :
    Alone kind cs := by
  refine ⟨?_, fun hswallows => hswallows.elim hcomment fun h => hunknown h.1⟩
  cases cs with
  | nil => simp [scan_nil] at h
  | cons c rest =>
    rw [List.length_cons, scan] at h
    cases hc : isSpace c with
    | true =>
      -- What is behind a space is shorter than the whole line.
      rw [if_pos hc] at h
      obtain ⟨x, hx, hpiece⟩ := List.mem_map.1 (h ▸ List.mem_singleton_self (kind, c :: rest))
      have hlen := length_of_mem_scan hx
      have hrest := congrArg List.length (Cut.run_append_eq isSpace rest)
      rw [List.length_append] at hrest
      have htext : x.2.2 = c :: rest := congrArg Prod.snd hpiece
      rw [htext, List.length_cons] at hlen
      omega
    | false =>
      rw [if_neg (by simp [hc])] at h
      have hsplit := (lexeme_splits c rest).append_eq
      obtain ⟨⟨k, text, left⟩, hlex⟩ : ∃ x : TokenKind × Cut, lexeme c rest = x := ⟨_, rfl⟩
      rw [hlex] at h hsplit
      simp only [List.map_cons, List.cons.injEq, piece, Prod.mk.injEq] at h
      obtain ⟨⟨rfl, rfl⟩, -⟩ := h
      have hleft : left = [] := by simpa using hsplit
      exact ⟨c, rest, rfl, hc, by rw [hlex, hleft]⟩

end PineScript.Lexer

namespace PineScript.Text

/-! ## Lines -/

theorem lines_ne_nil (cs : List Char) : lines cs ≠ [] := by
  fun_cases lines cs <;> simp_all

/-- There are no line breaks in a text of one line. -/
theorem eq_of_lines_singleton {cs line : List Char} (h : lines cs = [line]) :
    cs = line ∧ ∀ c ∈ cs, c ≠ '\r' ∧ c ≠ '\n' := by
  fun_induction lines cs generalizing line with
  | case1 =>
    cases h
    exact ⟨rfl, fun c hc => absurd hc List.not_mem_nil⟩
  | case2 rest _ => exact absurd (List.cons.inj h).2 (lines_ne_nil rest)
  | case3 c rest _ _ _ => exact absurd (List.cons.inj h).2 (lines_ne_nil rest)
  | case4 c rest _ _ hnil _ => exact absurd hnil (lines_ne_nil rest)
  | case5 c rest _ hc first more hmore ih =>
    obtain ⟨rfl, rfl⟩ := List.cons.inj h
    obtain ⟨rfl, hrest⟩ := ih hmore
    refine ⟨rfl, fun d hd => ?_⟩
    rcases List.mem_cons.1 hd with rfl | hd
    · exact not_or.1 hc
    · exact hrest d hd

theorem lines_append_break {line : List Char} (h : ∀ c ∈ line, c ≠ '\r' ∧ c ≠ '\n')
    (tail : List Char) : lines (line ++ '\n' :: tail) = line :: lines tail := by
  induction line with
  | nil => simp [lines]
  | cons c line ih =>
    have hc := h c List.mem_cons_self
    simp [lines, hc, ih fun d hd => h d (List.mem_cons_of_mem c hd)]

theorem lines_of_no_break {line : List Char} (h : ∀ c ∈ line, c ≠ '\r' ∧ c ≠ '\n') :
    lines line = [line] := by
  induction line with
  | nil => rfl
  | cons c line ih =>
    have hc := h c List.mem_cons_self
    simp [lines, hc, ih fun d hd => h d (List.mem_cons_of_mem c hd)]

theorem mem_intercalate {mark : List Char} {ls : List (List Char)} {c : Char}
    (h : c ∈ mark.intercalate ls) : c ∈ mark ∨ ∃ l ∈ ls, c ∈ l := by
  obtain ⟨l, hl, hc⟩ := List.mem_flatten.1 h
  obtain ⟨i, hi⟩ := List.getElem?_of_mem hl
  rw [List.getElem?_intersperse] at hi
  split at hi
  · exact .inr ⟨l, List.mem_of_getElem? hi, hc⟩
  · obtain rfl : mark = l := by simpa using (Option.ite_none_right_eq_some.1 hi).2
    exact .inl hc

/-- Lines with breaks between them are told apart. -/
theorem lines_intercalate {ls : List (List Char)} (hne : ls ≠ [])
    (h : ∀ l ∈ ls, ∀ c ∈ l, c ≠ '\r' ∧ c ≠ '\n') : lines (['\n'].intercalate ls) = ls := by
  induction ls with
  | nil => exact absurd rfl hne
  | cons l more ih =>
    have hl := h l List.mem_cons_self
    cases more with
    | nil => rw [List.intercalate_singleton, lines_of_no_break hl]
    | cons l' more =>
      rw [List.intercalate_cons_cons, List.append_assoc, List.singleton_append,
        lines_append_break hl, ih (by simp) fun k hk => h k (List.mem_cons_of_mem l hk)]

end PineScript.Text
