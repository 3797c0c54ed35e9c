import PineScript.Proofs.Lexer.Edited

/-!
# Other blanks between the lexemes

A lexeme that was cut off from a line is a lexeme of its own: what stood directly behind it had no
part in it. So the blanks of a line say nothing but where its lexemes end, and with any other blanks
in their places the line has the same lexemes: main statement `tokenize_respaced`.
-/

namespace PineScript.Lexer

/-! ## Forms that are cut off stand alone -/

theorem Cut.run_self {p : Char → Bool} {tail : List Char} (htail : ∀ c ∈ tail.head?, p c = false)
    (cs : List Char) :
    Cut.run p ((Cut.run p cs).lexeme ++ tail) = ⟨(Cut.run p cs).lexeme, tail⟩ := by
  have hinside : ∀ c ∈ cs.takeWhile p, p c = true := fun _ => List.mem_takeWhile_imp
  rw [Cut.run, Cut.run, List.takeWhile_append_of_pos hinside, List.dropWhile_append_of_pos hinside]
  cases tail with
  | nil => simp
  | cons c tail => simp [htail c rfl]

theorem Cut.run?_self {p : Char → Bool} {tail cs : List Char} {cut : Cut}
    (htail : ∀ c ∈ tail.head?, p c = false) (h : Cut.run? p cs = some cut) :
    Cut.run? p (cut.lexeme ++ tail) = some ⟨cut.lexeme, tail⟩ := by
  cases cs with
  | nil => cases h
  | cons c rest =>
    simp only [Cut.run?] at h
    split at h
    · rename_i hc
      cases h
      have hself := Cut.run_self htail (c :: rest)
      have hfirst : (Cut.run p (c :: rest)).lexeme = c :: rest.takeWhile p := by simp [Cut.run, hc]
      rw [hfirst] at hself ⊢
      simp only [Cut.run?, List.cons_append, hc, if_true] at hself ⊢
      rw [hself]
    · cases h

theorem closeQuote?_self {quote : Char} {cs : List Char} {cut : Cut}
    (h : closeQuote? quote cs = some cut) :
    closeQuote? quote cut.lexeme = some ⟨cut.lexeme, []⟩ := by
  fun_induction closeQuote? quote cs generalizing cut with
  | case1 => cases h
  | case2 rest =>
    cases h
    simp [closeQuote?]
  | case3 => cases h
  | case4 d more hquote ih =>
    obtain ⟨inner, hinner, rfl⟩ := Option.map_eq_some_iff.1 h
    simp [closeQuote?, hquote, ih hinner, Cut.cons]
  | case5 c rest hquote hslash ih =>
    obtain ⟨inner, hinner, rfl⟩ := Option.map_eq_some_iff.1 h
    rw [Cut.cons]
    unfold closeQuote?
    rw [if_neg hquote, if_neg hslash, ih hinner]
    rfl

theorem hexDigits?_self {n : Nat} {cs : List Char} {cut : Cut} (h : hexDigits? n cs = some cut) :
    cut.lexeme.length = n ∧ hexDigits? n cut.lexeme = some ⟨cut.lexeme, []⟩ := by
  simp only [hexDigits?] at h
  split at h
  · rename_i hdigits
    cases h
    have htake : (cs.take n).take n = cs.take n := by rw [List.take_take, Nat.min_self]
    have hdrop : (cs.take n).drop n = [] := List.drop_eq_nil_of_le (Nat.le_of_eq hdigits.1)
    refine ⟨hdigits.1, ?_⟩
    simp only [hexDigits?, htake, hdrop]
    rw [if_pos ⟨hdigits.1, hdigits.2.1, rfl⟩]
  · cases h

theorem color?_self {cs : List Char} {cut : Cut} (h : color? cs = some cut) :
    color? cut.lexeme = some ⟨cut.lexeme, []⟩ := by
  unfold color? at h
  split at h
  · obtain ⟨inner, hinner, rfl⟩ := Option.map_eq_some_iff.1 h
    rcases Option.or_eq_some_iff.1 hinner with hinner | ⟨-, hinner⟩
    · simp [color?, Cut.cons, (hexDigits?_self hinner).2]
    · -- Six digits alone are not eight.
      obtain ⟨hlen, hself⟩ := hexDigits?_self hinner
      have hshort : hexDigits? 8 inner.lexeme = none := by simp [hexDigits?, hlen]
      simp [color?, Cut.cons, hshort, hself]
  · cases h

theorem exponent?_self {cs : List Char} {cut : Cut} (h : exponent? cs = some cut) :
    (∀ c ∈ cut.lexeme.head?, c = 'e' ∨ c = 'E') ∧
      exponent? cut.lexeme = some ⟨cut.lexeme, []⟩ := by
  have hend : ∀ c ∈ ([] : List Char).head?, Text.isDigit c = false := by simp
  unfold exponent? at h
  split at h
  · split at h
    · rename_i c rest he
      split at h
      · split at h
        · rename_i d more hsign
          obtain ⟨inner, hinner, rfl⟩ := Option.map_eq_some_iff.1 h
          have hself := Cut.run?_self hend hinner
          rw [List.append_nil] at hself
          refine ⟨by simpa [Cut.append] using he, ?_⟩
          simp [exponent?, Cut.append, he, hsign, hself]
        · rename_i d more hsign
          obtain ⟨inner, hinner, rfl⟩ := Option.map_eq_some_iff.1 h
          have hself := Cut.run?_self hend hinner
          rw [List.append_nil] at hself
          refine ⟨by simpa [Cut.cons] using he, ?_⟩
          obtain ⟨a, as, hlexeme⟩ := List.exists_cons_of_ne_nil (Cut.run?_splits hinner).ne_nil
          have hfirst := (Cut.run?_splits hinner).append_eq
          rw [hlexeme] at hfirst
          obtain ⟨rfl, -⟩ := List.cons.inj hfirst
          simp only [Cut.cons]
          rw [hlexeme] at hself ⊢
          simp [exponent?, he, hsign, hself, Cut.cons]
      · cases h
    · cases h
  · cases h

theorem mantissa?_self {cs tail : List Char} {cut : Cut}
    (htail : ∀ c ∈ tail.head?, Text.isDigit c = false ∧ c ≠ '.') (h : mantissa? cs = some cut) :
    mantissa? (cut.lexeme ++ tail) = some ⟨cut.lexeme, tail⟩ := by
  have hdigit : ∀ c ∈ tail.head?, Text.isDigit c = false := fun c hc => (htail c hc).1
  have hpoint : Text.isDigit '.' = false := by decide
  unfold mantissa? at h
  split at h
  · rename_i whole rest hwhole
    split at h
    · rename_i more
      cases h
      -- The point ends the digits in front of it, and the tail those behind it.
      have hfirst := @Cut.run?_self Text.isDigit ('.' :: ((Cut.run Text.isDigit more).lexeme ++ tail))
        _ _ (by simpa using hpoint) hwhole
      have hsecond := Cut.run_self hdigit more
      simp only [mantissa?, Cut.append, List.append_assoc, List.cons_append, List.nil_append]
      rw [hfirst]
      simp only [hsecond]
    · cases h
      have hfirst := Cut.run?_self hdigit hwhole
      simp only [mantissa?]
      rw [hfirst]
      match tail, htail with
      | [], _ => rfl
      | c :: tail, htail =>
        have hc := (htail c rfl).2
        simp [hc]
  · rename_i hnone
    split at h
    · rename_i more
      obtain ⟨inner, hinner, rfl⟩ := Option.map_eq_some_iff.1 h
      have hnodigit : ∀ us, Cut.run? Text.isDigit ('.' :: us) = none := by
        intro us
        simp [Cut.run?, hpoint]
      simp only [mantissa?, Cut.cons, List.cons_append, hnodigit, Cut.run?_self hdigit hinner,
        Option.map_some]
    · cases h

theorem number?_self {cs : List Char} {cut : Cut} (h : number? cs = some cut) :
    number? cut.lexeme = some ⟨cut.lexeme, []⟩ := by
  obtain ⟨inner, hinner, rfl⟩ := Option.map_eq_some_iff.1 h
  split
  · rename_i power hpower
    obtain ⟨hhead, hself⟩ := exponent?_self hpower
    have hletter : ∀ c ∈ power.lexeme.head?, Text.isDigit c = false ∧ c ≠ '.' := by
      intro c hc
      rcases hhead c hc with rfl | rfl <;> decide
    simp [number?, Cut.append, mantissa?_self hletter hinner, hself]
  · have hself := @mantissa?_self cs [] _ (by simp) hinner
    rw [List.append_nil] at hself
    simp [number?, hself, exponent?]

theorem word?_self {cs tail : List Char} {cut : Cut}
    (htail : ∀ c ∈ tail.head?, Text.isWordChar c = false) (h : word? cs = some cut) :
    word? (cut.lexeme ++ tail) = some ⟨cut.lexeme, tail⟩ := by
  unfold word? at h
  split at h
  · cases h
  · split at h
    · rename_i c rest hc
      cases h
      simp only [word?, Cut.cons, List.cons_append, hc, if_true, Cut.run_self htail]
    · cases h

/-- What follows the first word of a name begins with a point. -/
theorem head?_dottedWords (cs : List Char) :
    ∀ c ∈ (dottedWords cs).lexeme.head?, Text.isWordChar c = false := by
  fun_cases dottedWords cs with
  | case1 rest cut hword _ =>
    intro c hc
    obtain rfl : '.' = c := by simpa [Cut.append] using hc
    decide
  | case2 | case3 => simp

theorem dottedWords_self (cs : List Char) :
    dottedWords (dottedWords cs).lexeme = ⟨(dottedWords cs).lexeme, []⟩ := by
  fun_induction dottedWords cs with
  | case1 rest cut hword _ ih =>
    have hself := word?_self (head?_dottedWords cut.rest) hword
    rw [Cut.append, List.cons_append, dottedWords]
    split
    · rename_i cut' hcut'
      rw [hself] at hcut'
      cases hcut'
      simp only [ih, Cut.append, List.cons_append]
    · rename_i hnone
      rw [hself] at hnone
      cases hnone
  | case2 | case3 =>
    rw [dottedWords]
    simp

theorem name?_self {cs : List Char} {cut : Cut} (h : name? cs = some cut) :
    name? cut.lexeme = some ⟨cut.lexeme, []⟩ := by
  obtain ⟨inner, hinner, rfl⟩ := Option.map_eq_some_iff.1 h
  have hself := word?_self (head?_dottedWords inner.rest) hinner
  simp only [name?, Cut.append, hself, Option.map_some, dottedWords_self]

/-! ## Lexemes that are cut off stand alone -/

section

variable {c : Char} {rest : List Char} {kind : TokenKind} {cut : Cut}

/-- A lexeme that takes all that is left. -/
theorem whole_of_rest (hc : isSpace c = false) (h : lexeme c rest = (kind, cut))
    (hrest : cut.rest = []) : Whole kind cut.lexeme := by
  have hsplit := (lexeme_splits c rest).append_eq
  obtain ⟨text, left⟩ := cut
  rw [h] at hsplit
  cases hrest
  obtain rfl : text = c :: rest := by simpa using hsplit
  exact ⟨c, rest, rfl, hc, h⟩

theorem eq_of_isQuote (h : isQuote c = true) : c = '"' ∨ c = '\x27' := by
  simpa [isQuote] using h

theorem toNat_of_isAlpha (h : c.isAlpha = true) : 65 ≤ c.toNat ∧ c.toNat ≤ 122 := by
  rcases Bool.or_eq_true_iff.1 h with hupper | hlower
  · obtain ⟨hlo, hhi⟩ := of_decide_eq_true hupper
    exact ⟨UInt32.le_iff_toNat_le.1 hlo, Nat.le_trans (UInt32.le_iff_toNat_le.1 hhi) (by decide)⟩
  · obtain ⟨hlo, hhi⟩ := Bool.and_eq_true_iff.1 hlower
    have hlo := UInt32.le_iff_toNat_le.1 (of_decide_eq_true hlo)
    exact ⟨Nat.le_trans (by decide) hlo, UInt32.le_iff_toNat_le.1 (of_decide_eq_true hhi)⟩

theorem isDigit_of_isNameStart (h : Text.isNameStart c = true) : Text.isDigit c = false := by
  simp only [Text.isNameStart, Bool.or_eq_true, beq_iff_eq] at h
  rcases h with rfl | h
  · decide
  · have hletter := toNat_of_isAlpha h
    have hnine : ¬c.toNat ≤ 57 := by omega
    rw [Text.isDigit, if_pos (by omega)]
    simp only [Char.isDigit, UInt32.le_iff_toNat_le]
    simpa using fun _ => hnine

/-- No other form begins with a quote. -/
theorem lexeme_of_string (h : string? (c :: rest) = some cut) : lexeme c rest = (.string, cut) := by
  have hslash : c ≠ '/' := by rintro rfl; cases h
  simp [lexeme, comment?, hslash, h]

theorem lexeme_of_color (h : color? (c :: rest) = some cut) : lexeme c rest = (.color, cut) := by
  obtain rfl : c = '#' := by
    by_contra hc
    simp [color?, hc] at h
  simp [lexeme, comment?, string?, unterminated?, isQuote, h]

/-- A number begins with a digit or a point, with which no form begins that is tried before. -/
theorem lexeme_of_number (h : number? (c :: rest) = some cut) :
    lexeme c rest = (.number, cut) := by
  have hslash : c ≠ '/' := by rintro rfl; cases h
  have hmark : c ≠ '#' := by rintro rfl; cases h
  have hquote : isQuote c ≠ true := fun hquote => by
    rcases eq_of_isQuote hquote with rfl | rfl <;> cases h
  simp [lexeme, comment?, string?, unterminated?, color?, hslash, hmark, hquote, h]

theorem lexeme_of_name (h : name? (c :: rest) = some cut) :
    lexeme c rest = (wordKind cut.lexeme, cut) := by
  have hstart : Text.isNameStart c = true := by
    by_contra hstart
    simp [name?, word?, hstart] at h
  have hdigit := isDigit_of_isNameStart hstart
  have hslash : c ≠ '/' := by rintro rfl; cases hstart
  have hmark : c ≠ '#' := by rintro rfl; cases hstart
  have hpoint : c ≠ '.' := by rintro rfl; cases hstart
  have hquote : isQuote c ≠ true := fun hquote => by
    rcases eq_of_isQuote hquote with rfl | rfl <;> cases hstart
  have hnumber : number? (c :: rest) = none := by
    simp [number?, mantissa?, Cut.run?, hdigit, hpoint]
  simp [lexeme, comment?, string?, unterminated?, color?, hslash, hmark, hquote, hnumber, h]

/-- The lexemes with a fixed text. -/
theorem whole_of_fixed {text : List Char}
    (h : (kind, text) ∈ longOperators.map (TokenKind.operator, ·) ++
      shortOperators.map (TokenKind.operator, [·]) ++
      ['(', ')', '[', ']', ','].map (TokenKind.punctuation, [·])) : Whole kind text := by
  have hall : (longOperators.map (TokenKind.operator, ·) ++
      shortOperators.map (TokenKind.operator, [·]) ++
      ['(', ')', '[', ']', ','].map (TokenKind.punctuation, [·])).all (fun x => x.2.head?.any
      fun c => !isSpace c && lexeme c x.2.tail = (x.1, ⟨x.2, []⟩)) = true := by decide
  have hfirst := List.all_eq_true.1 hall _ h
  cases text with
  | nil => cases hfirst
  | cons c rest =>
    obtain ⟨hspace, hlex⟩ := Bool.and_eq_true_iff.1 hfirst
    exact ⟨c, rest, rfl, by simpa using hspace, of_decide_eq_true hlex⟩

/-- Without a quote, what is not known has no form. -/
theorem none_of_unknown (hquote : isQuote c = false) (h : lexeme c rest = (.unknown, cut)) :
    number? (c :: rest) = none ∧ name? (c :: rest) = none ∧ operator? (c :: rest) = none ∧
      punctuation? (c :: rest) = none := by
  have hcolor : color? (c :: rest) = none := Option.eq_none_iff_forall_ne_some.2 fun k hk => by
    cases (lexeme_of_color hk).symm.trans h
  have hnumber : number? (c :: rest) = none := Option.eq_none_iff_forall_ne_some.2 fun k hk => by
    cases (lexeme_of_number hk).symm.trans h
  have hname : name? (c :: rest) = none := Option.eq_none_iff_forall_ne_some.2 fun k hk => by
    have hkind := congrArg Prod.fst ((lexeme_of_name hk).symm.trans h)
    rcases wordKind_cases k.lexeme with ⟨hword, -⟩ | ⟨hword, -⟩ <;> rw [hword] at hkind <;>
      cases hkind
  refine ⟨hnumber, hname, ?_⟩
  simp only [lexeme, string?, unterminated?, hquote, hcolor, hnumber, hname] at h
  cases hcomment : comment? (c :: rest) <;> cases hoperator : operator? (c :: rest) <;>
    cases hpunctuation : punctuation? (c :: rest) <;> simp_all

/-- A character that is taken because no form applies is taken on its own too. -/
theorem whole_of_other (hc : isSpace c = false) (h : lexeme c rest = (.unknown, ⟨[c], rest⟩)) :
    Whole .unknown [c] := by
  refine ⟨c, [], rfl, hc, ?_⟩
  cases hquote : isQuote c with
  | true => simp [lexeme, comment?, string?, closeQuote?, unterminated?, hquote]
  | false =>
    obtain ⟨hnumber, hname, hoperator, hpunctuation⟩ := none_of_unknown hquote h
    have hcolor' : color? [c] = none := by
      by_cases hc : c = '#'
      · subst hc
        decide
      · simp [color?, hc]
    have hnumber' : number? [c] = none := by
      have hdigit : Text.isDigit c = false := by
        cases hdigit : Text.isDigit c with
        | false => rfl
        | true =>
          simp only [number?, mantissa?, Cut.run?, hdigit, if_true, Cut.run] at hnumber
          split at hnumber <;> simp at hnumber
      by_cases hc : c = '.'
      · subst hc
        decide
      · simp [number?, mantissa?, Cut.run?, hdigit, hc]
    have hname' : name? [c] = none := by simpa [name?, word?] using hname
    have hoperator' : operator? [c] = none := by
      cases rest with
      | nil => exact hoperator
      | cons d rest =>
        simp only [operator?] at hoperator ⊢
        split at hoperator
        · cases hoperator
        · simpa using hoperator
    have hpunctuation' : punctuation? [c] = none := by simpa [punctuation?] using hpunctuation
    simp [lexeme, comment?, string?, unterminated?, hquote, hcolor', hnumber', hname', hoperator',
      hpunctuation']

/-- A lexeme that is cut off from a text is the whole of its own text. -/
theorem lexeme_whole (hc : isSpace c = false) (h : lexeme c rest = (kind, cut)) :
    Whole kind cut.lexeme := by
  have hform : Form c rest kind cut := by simpa [h] using lexeme_form c rest
  have hfirst : ∃ text, cut.lexeme = c :: text := by
    obtain ⟨a, text, htext⟩ := List.exists_cons_of_ne_nil hform.splits.ne_nil
    have hsplit := hform.splits.append_eq
    rw [htext] at hsplit
    exact ⟨text, by rw [htext, (List.cons.inj hsplit).1]⟩
  obtain ⟨text, htext⟩ := hfirst
  cases hform with
  | comment hsome => exact whole_of_rest hc h (rest_of_comment? hsome)
  | string hsome =>
    refine ⟨c, text, htext, hc, lexeme_of_string ?_⟩
    simp only [string?] at hsome ⊢
    split at hsome
    · obtain ⟨inner, hinner, rfl⟩ := Option.map_eq_some_iff.1 hsome
      cases htext
      simp [closeQuote?_self hinner, Cut.cons, *]
    · cases hsome
  | unterminated hsome =>
    refine whole_of_rest hc h ?_
    simp only [unterminated?] at hsome
    split at hsome
    · cases hsome
      rfl
    · cases hsome
  | color hsome => exact ⟨c, text, htext, hc, lexeme_of_color (htext ▸ color?_self hsome)⟩
  | number hsome => exact ⟨c, text, htext, hc, lexeme_of_number (htext ▸ number?_self hsome)⟩
  | name hsome =>
    refine ⟨c, text, htext, hc, ?_⟩
    rw [htext]
    exact lexeme_of_name (htext ▸ name?_self hsome)
  | operator hsome =>
    rcases operator?_text hsome with hlong | ⟨a, ha, hshort⟩
    · exact whole_of_fixed (by simp [hlong])
    · exact whole_of_fixed (by simp [hshort, ha])
  | punctuation hsome =>
    simp only [punctuation?] at hsome
    split at hsome
    · rename_i hmem
      cases hsome
      exact whole_of_fixed (by simpa using hmem)
    · cases hsome
  | other => exact whole_of_other hc h

end

/-! ## The lexemes of a line -/

theorem free_of_mem_scan {rounds column : Nat} {cs : List Char} {x : TokenKind × Nat × List Char}
    (h : x ∈ (scan rounds column cs).dropLast) : ¬Swallows x.1 (String.ofList x.2.2) := by
  have hne : scan rounds column cs ≠ [] := by
    intro hnil
    rw [hnil] at h
    cases h
  have hfree := free_scan rounds column cs
  rw [← List.dropLast_concat_getLast hne] at hfree
  exact (List.pairwise_append.1 hfree).2.2 x h _ List.mem_cons_self

/-! ## Lines with other blanks -/

/-- The texts in their order, each behind its gap, and the last gap at the end. -/
def interleave : List (List Char) → List (List Char) → List Char
  | gap :: gaps, text :: texts => gap ++ (text ++ interleave gaps texts)
  | gap :: _, [] => gap
  | [], _ => []

/-- A run of blanks in front of each token and one behind the last. Any two tokens are kept apart,
and nothing stands behind a token that takes all that is left of its line. -/
structure Gaps (tokens : List Token) (gaps : List (List Char)) : Prop where
  length_eq : gaps.length = tokens.length + 1
  blank : ∀ gap ∈ gaps, ∀ c ∈ gap, isSpace c = true
  between : ∀ gap ∈ gaps.tail.dropLast, gap ≠ []
  closing : ∀ t ∈ tokens.getLast?, Swallows t.kind t.text → gaps.getLast? = some []

theorem Gaps.spaced {tokens : List Token} {gaps : List (List Char)} (h : Gaps tokens gaps)
    (hwhole : ∀ t ∈ tokens, Whole t.kind t.text.toList)
    (hfree : ∀ t ∈ tokens.dropLast, ¬Swallows t.kind t.text) :
    Spaced (tokens.map fun t => (t.kind, t.text.toList))
      (interleave gaps (tokens.map (·.text.toList))) := by
  obtain ⟨hlength, hblank, hbetween, hclosing⟩ := h
  induction tokens generalizing gaps with
  | nil =>
    obtain ⟨gap, rfl⟩ := List.length_eq_one_iff.1 hlength
    exact .blanks (hblank gap List.mem_cons_self)
  | cons t tokens ih =>
    obtain ⟨hfirst, hmore⟩ := List.forall_mem_cons.1 hwhole
    obtain ⟨gap, gaps, rfl⟩ := List.exists_cons_of_length_eq_add_one hlength
    obtain ⟨hgap, hgaps⟩ := List.forall_mem_cons.1 hblank
    rw [List.length_cons, Nat.add_right_cancel_iff] at hlength
    cases tokens with
    | nil =>
      obtain ⟨last, rfl⟩ := List.length_eq_one_iff.1 hlength
      cases last with
      | nil => simpa [interleave] using Spaced.last hgap hfirst
      | cons s blanks =>
        have hlast := hgaps _ List.mem_cons_self
        have halone : Alone t.kind t.text.toList := ⟨hfirst, fun hswallows => by
          rw [String.ofList_toList] at hswallows
          simpa using hclosing t rfl hswallows⟩
        exact .more hgap halone (hlast s List.mem_cons_self) (.blanks hlast)
    | cons u tokens =>
      obtain ⟨next, gaps, rfl⟩ := List.exists_cons_of_length_eq_add_one hlength
      rw [List.length_cons, List.length_cons, Nat.add_right_cancel_iff] at hlength
      obtain ⟨after, gaps, rfl⟩ := List.exists_cons_of_length_eq_add_one hlength
      obtain ⟨hnext, hothers⟩ := List.forall_mem_cons.1 hbetween
      have halone : Alone t.kind t.text.toList := ⟨hfirst, by
        rw [String.ofList_toList]
        exact hfree t List.mem_cons_self⟩
      have hspaced := ih hmore (fun v hv => hfree v (List.mem_cons_of_mem t hv))
        (by rw [List.length_cons, hlength]) hgaps hothers hclosing
      obtain ⟨s, blanks, rfl⟩ := List.exists_cons_of_ne_nil hnext
      exact .more hgap halone (hgaps _ List.mem_cons_self s List.mem_cons_self) hspaced

theorem mem_interleave {gaps texts : List (List Char)} {c : Char} (h : c ∈ interleave gaps texts) :
    (∃ gap ∈ gaps, c ∈ gap) ∨ ∃ text ∈ texts, c ∈ text := by
  fun_induction interleave gaps texts with
  | case1 gap gaps text texts ih =>
    simp only [List.mem_append] at h
    simp only [List.mem_cons, exists_eq_or_imp]
    rcases h with h | h | h
    · exact .inl (.inl h)
    · exact .inr (.inl h)
    · exact (ih h).imp .inr .inr
  | case2 gap gaps => exact .inl ⟨gap, List.mem_cons_self, h⟩
  | case3 => cases h

theorem exists_scanned {indent number : Nat} {xs : List (TokenKind × Nat × List Char)} {t : Token}
    (h : t ∈ markFirst indent (xs.map fun (kind, column, text) => place number kind column text)) :
    ∃ x ∈ xs, t.kind = x.1 ∧ t.text = String.ofList x.2.2 := by
  obtain ⟨u, hu, i, rfl⟩ := mem_markFirst h
  obtain ⟨x, hx, rfl⟩ := List.mem_map.1 hu
  exact ⟨x, hx, rfl, rfl⟩

theorem dropLast_markFirst (indent : Nat) (ts : List Token) :
    (markFirst indent ts).dropLast = markFirst indent ts.dropLast := by
  match ts with
  | [] => rfl
  | [t] => rfl
  | t :: u :: ts => rfl

theorem tokenize_of_no_break {source : String} (h : ∀ c ∈ source.toList, c ≠ '\r' ∧ c ≠ '\n') :
    tokenize source = markFirst (indentOf source.toList) (lineTokens 0 source.toList) := by
  rw [tokenize, Text.lines_of_no_break h, documentTokens]

/-- The lexemes of a line with other blanks between them. -/
theorem Gaps.spaced_tokenize {source : String} {gaps : List (List Char)}
    (hline : ∀ c ∈ source.toList, c ≠ '\r' ∧ c ≠ '\n') (h : Gaps (tokenize source) gaps) :
    Spaced ((tokenize source).map fun t => (t.kind, t.text.toList))
      (interleave gaps ((tokenize source).map (·.text.toList))) := by
  rw [tokenize_of_no_break hline] at h ⊢
  refine h.spaced (fun t ht => ?_) fun t ht => ?_
  · obtain ⟨x, hx, hkind, htext⟩ := exists_scanned ht
    rw [hkind, htext, String.toList_ofList]
    obtain ⟨c, rest, left, hlex, hc, -⟩ := lexeme_of_mem_scan hx
    exact lexeme_whole hc hlex
  · rw [dropLast_markFirst, lineTokens, ← List.map_dropLast] at ht
    obtain ⟨x, hx, hkind, htext⟩ := exists_scanned ht
    rw [hkind, htext]
    exact free_of_mem_scan hx

/-- Blanks are no line breaks. -/
theorem Gaps.no_break {source : String} {gaps : List (List Char)}
    (hline : ∀ c ∈ source.toList, c ≠ '\r' ∧ c ≠ '\n') (h : Gaps (tokenize source) gaps) :
    ∀ c ∈ interleave gaps ((tokenize source).map (·.text.toList)), c ≠ '\r' ∧ c ≠ '\n' := by
  intro c hc
  rcases mem_interleave hc with ⟨gap, hgap, hc⟩ | ⟨text, htext, hc⟩
  · rcases eq_of_isSpace (h.blank gap hgap c hc) with rfl | rfl | rfl <;> decide
  · obtain ⟨t, ht, rfl⟩ := List.mem_map.1 htext
    rw [tokenize_of_no_break hline] at ht
    obtain ⟨x, hx, -, htext⟩ := exists_scanned ht
    rw [htext, String.toList_ofList] at hc
    obtain ⟨i, -, -, -, hslice⟩ := (tiles_scan (Nat.le_refl _)).slice hx
    rw [hslice] at hc
    exact hline c (List.mem_of_mem_drop (List.mem_of_mem_take hc))

/-- The tokens of a line do not change with the blanks in front of the line and between its
tokens. -/
theorem tokenize_respaced (source : String) (gaps : List (List Char))
    (hline : ∀ c ∈ source.toList, c ≠ '\r' ∧ c ≠ '\n') (hgaps : Gaps (tokenize source) gaps) :
    (tokenize (String.ofList
        (interleave gaps ((tokenize source).map (·.text.toList))))).map Token.lexeme =
      (tokenize source).map Token.lexeme := by
  have hbreaks := hgaps.no_break hline
  have hscan := (hgaps.spaced_tokenize hline).scan_eq (Nat.le_refl _) 0
  rw [← String.toList_ofList (l := interleave gaps _)] at hbreaks hscan
  rw [tokenize_of_no_break hbreaks, markFirst_lexeme, lineTokens_lexeme, hscan, List.map_map]
  refine List.map_congr_left fun t _ => ?_
  simp [Token.lexeme]

theorem tokenize_respaced_assignment :
    Gaps (tokenize " a.b:=1.5e3+.5\t'x y'// c")
      [['\t'], [' '], ['\x0c', ' '], [' '], ['\t'], [' '], [' ', ' '], []] ∧
    (tokenize (String.ofList
        (interleave [['\t'], [' '], ['\x0c', ' '], [' '], ['\t'], [' '], [' ', ' '], []]
          ((tokenize " a.b:=1.5e3+.5\t'x y'// c").map (·.text.toList))))).map Token.lexeme =
      (tokenize " a.b:=1.5e3+.5\t'x y'// c").map Token.lexeme := by
  have hgaps : Gaps (tokenize " a.b:=1.5e3+.5\t'x y'// c")
      [['\t'], [' '], ['\x0c', ' '], [' '], ['\t'], [' '], [' ', ' '], []] :=
    ⟨by decide +kernel, by simp [isSpace], by simp, fun _ _ _ => rfl⟩
  exact ⟨hgaps, tokenize_respaced _ _ (by simp) hgaps⟩

end PineScript.Lexer
