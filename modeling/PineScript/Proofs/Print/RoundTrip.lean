import PineScript.Proofs.Lexer.Spaced
import PineScript.Proofs.Print.Read

/-!
# Printing and reading

A tree that can be printed is read back from its text without a fault, and nothing but its ranges
is lost.
-/

namespace PineScript

/-! ## Words are scanned as what they are -/

namespace Lexer

/-- What is scanned as one token is a lexeme of its own and holds no line break. -/
theorem alone_of_tokenize {kind : TokenKind} {text : String}
    (hkind : kind ≠ .newline ∧ kind ≠ .comment ∧ kind ≠ .unknown)
    (h : (tokenize text).map Token.lexeme = [(kind, text)]) :
    Alone kind text.toList ∧ ∀ c ∈ text.toList, c ≠ '\r' ∧ c ≠ '\n' := by
  obtain ⟨line, more, hlines⟩ := List.exists_cons_of_ne_nil (Text.lines_ne_nil text.toList)
  cases more with
  | nil =>
    obtain ⟨hline, hbreaks⟩ := Text.eq_of_lines_singleton hlines
    refine ⟨alone_of_scan hkind.2.1 hkind.2.2 ?_, hbreaks⟩
    rw [tokenize, hlines, documentTokens, markFirst_lexeme, lineTokens_lexeme, ← hline] at h
    obtain ⟨x, xs, hx, hpiece, hnil⟩ := List.map_eq_cons_iff.1 h
    obtain rfl := List.map_eq_nil_iff.1 hnil
    obtain ⟨k, cs⟩ := x
    simp only [Prod.mk.injEq] at hpiece
    obtain ⟨rfl, htext⟩ := hpiece
    rw [hx, ← htext, String.toList_ofList]
  | cons next more =>
    -- A second line would bring a token for the line break.
    rw [tokenize, hlines, documentTokens, List.map_append, markFirst_lexeme, List.map_append] at h
    · have hmem : (TokenKind.newline, "\n") ∈ [(kind, text)] := by
        rw [← h]
        simp [breakToken, place, Token.lexeme]
      have heq := List.mem_singleton.1 hmem
      exact absurd (congrArg Prod.fst heq).symm hkind.1
    · simp

end Lexer

namespace Word

theorem kind_ne (w : Word) : w.kind ≠ .newline ∧ w.kind ≠ .comment ∧ w.kind ≠ .unknown := by
  cases w with
  | literal v => cases v <;> simp [kind, Literal.kind]
  | unary op => cases op <;> simp [kind, UnaryOp.kind]
  | binary op => cases op <;> simp [kind, BinaryOp.kind]
  | mark m => cases m <;> simp [kind, Mark.kind]
  | _ => simp [kind]

/-- Every word that is spelled right is scanned as one token. -/
theorem tokenize_text {w : Word} (h : w.isSpelled) :
    (tokenize w.text).map Token.lexeme = [(w.kind, w.text)] := by
  cases w with
  | name s => exact beq_iff_eq.1 h
  | literal v => exact beq_iff_eq.1 h
  | unary op => cases op <;> decide +kernel
  | binary op => cases op <;> decide +kernel
  | assign op => cases op <;> decide +kernel
  | modifier m => cases m <;> decide +kernel
  | jump k => cases k <;> decide +kernel
  | keyword k => cases k <;> decide +kernel
  | mark m => cases m <;> decide +kernel

end Word

/-! ## Lines are scanned as their words -/

namespace Line

theorem text_eq (line : Line) :
    line.text = List.replicate (4 * line.level) ' ' ++
      [' '].intercalate ((line.words.map fun w => (w.kind, w.text.toList)).map (·.2)) := by
  rw [text, List.map_map]
  rfl

variable {line : Line}

theorem alone (h : ∀ w ∈ line.words, w.isSpelled) :
    ∀ x ∈ line.words.map fun w => (w.kind, w.text.toList), Lexer.Alone x.1 x.2 := by
  intro x hx
  obtain ⟨w, hw, rfl⟩ := List.mem_map.1 hx
  exact (Lexer.alone_of_tokenize w.kind_ne (Word.tokenize_text (h w hw))).1

theorem tokens (h : ∀ w ∈ line.words, w.isSpelled) (hne : line.words ≠ []) (number : Nat) :
    Spells (Lexer.lineTokens number line.text) line.words ∧
      Lexer.indentOf line.text = 4 * line.level := by
  obtain ⟨hscan, hindent⟩ := Lexer.scan_indented (alone h) (by simpa using hne) (4 * line.level)
  rw [← text_eq] at hscan hindent
  refine ⟨?_, hindent⟩
  rw [Spells, Lexer.lineTokens_lexeme, hscan, List.map_map]
  refine List.map_congr_left fun w _ => ?_
  simp [Word.lexeme]

theorem no_break (h : ∀ w ∈ line.words, w.isSpelled) :
    ∀ c ∈ line.text, c ≠ '\r' ∧ c ≠ '\n' := by
  intro c hc
  have hspace : c = ' ' → c ≠ '\r' ∧ c ≠ '\n' := by
    rintro rfl
    decide
  rw [text, List.mem_append] at hc
  rcases hc with hc | hc
  · exact hspace (List.eq_of_mem_replicate hc)
  · rcases Text.mem_intercalate hc with hc | ⟨l, hl, hc⟩
    · exact hspace (List.mem_singleton.1 hc)
    · obtain ⟨w, hw, rfl⟩ := List.mem_map.1 hl
      exact (Lexer.alone_of_tokenize w.kind_ne (Word.tokenize_text (h w hw))).2 c hc

end Line

mutual

theorem Stmt.words_ne_nil (s : Stmt) (level : Nat) : ∀ line ∈ s.lines level, line.words ≠ [] := by
  match s with
  | .comment _ _ | .malformed _ _ => intro line h; cases h
  | .expression value =>
    obtain ⟨w, ws, hws, -⟩ := value.words_head
    simp [Stmt.lines, hws]
  | .declaration _ _ _ _ _ | .assignment _ _ _ _ | .jump _ _ _ | .lineFunction _ _ _ _ =>
    simp [Stmt.lines, functionHeader]
  | .conditional b => exact b.words_ne_nil level (by simp)
  | .countingLoop _ _ _ _ _ body | .iteratingLoop _ _ _ body | .whileLoop _ _ body
  | .blockFunction _ _ _ body =>
    simpa [Stmt.lines, functionHeader] using body.words_ne_nil (level + 1)

theorem Branch.words_ne_nil (b : Branch) (level : Nat) {lead : List Word} (hlead : lead ≠ []) :
    ∀ line ∈ b.lines level lead, line.words ≠ [] := by
  match b with
  | .mk _ _ body o =>
    intro line h
    rcases List.mem_cons.1 h with rfl | h
    · simp [hlead]
    · rcases List.mem_append.1 h with h | h
      · exact body.words_ne_nil (level + 1) line h
      · exact o.words_ne_nil level line h

theorem Otherwise.words_ne_nil (o : Otherwise) (level : Nat) :
    ∀ line ∈ o.lines level, line.words ≠ [] := by
  match o with
  | .nothing => intro line h; cases h
  | .block body => simpa [Otherwise.lines] using body.words_ne_nil (level + 1)
  | .elseIf b => exact b.words_ne_nil level (by simp)

theorem Block.words_ne_nil (b : Block) (level : Nat) : ∀ line ∈ b.lines level, line.words ≠ [] := by
  match b with
  | .mk _ ss => exact Stmt.linesOf_words_ne_nil ss level

theorem Stmt.linesOf_words_ne_nil (ss : List Stmt) (level : Nat) :
    ∀ line ∈ Stmt.linesOf level ss, line.words ≠ [] := by
  match ss with
  | [] => intro line h; cases h
  | s :: more =>
    intro line h
    rcases List.mem_append.1 h with h | h
    · exact s.words_ne_nil level line h
    · exact Stmt.linesOf_words_ne_nil more level line h

end

/-! ## Texts are scanned as their lines -/

/-- The tokens of a printed line; its first token carries the indentation. -/
theorem Line.marked_tokens {line : Line} (h : ∀ w ∈ line.words, w.isSpelled)
    (hne : line.words ≠ []) (number : Nat) (more : List Token) :
    ∃ first ts, Lexer.markFirst (Lexer.indentOf line.text)
        (Lexer.lineTokens number line.text ++ more) = first :: ts ++ more ∧
      Spells (first :: ts) line.words ∧ first.indent = some (Parser.indentAt line.level) := by
  obtain ⟨hspells, hindent⟩ := Line.tokens h hne number
  obtain ⟨w, ws, hwords⟩ := List.exists_cons_of_ne_nil hne
  rw [hwords] at hspells
  obtain ⟨t, ts, hts, ht, hmore⟩ := Spells.cons_iff.1 hspells
  rw [hts, hindent, hwords]
  exact ⟨{ t with indent := some ((4 * line.level : Nat) : Int) }, ts, rfl,
    Spells.cons_iff.2 ⟨_, _, rfl, ht, hmore⟩, rfl⟩

theorem documentTokens_lines {lines : List Line} {tail : List (List Char)} {b : Token}
    (hne : lines ≠ []) (hspelled : ∀ line ∈ lines, ∀ w ∈ line.words, w.isSpelled)
    (hwords : ∀ line ∈ lines, line.words ≠ []) (htail : tail = [] ∨ tail = [[]])
    (hb : b.kind = .newline) (number : Nat) :
    ∃ ts rest, Lexer.documentTokens number (lines.map Line.text ++ tail) = ts ++ rest ∧
      Parser.Below lines (b :: ts) ∧ ∀ t ∈ rest, t.kind = .newline := by
  induction lines generalizing number b with
  | nil => exact absurd rfl hne
  | cons line more ih =>
    have hline := hspelled line List.mem_cons_self
    have hlineWords := hwords line List.mem_cons_self
    have hbreak : (Lexer.breakToken number line.text).kind = .newline := rfl
    cases more with
    | nil =>
      -- The last line: a line break at the end of the text is followed by an empty line.
      rcases htail with rfl | rfl
      · obtain ⟨first, ts, htokens, hspells, hindent⟩ :=
          Line.marked_tokens hline hlineWords number []
        refine ⟨first :: ts ++ [], [], ?_, .cons hb hspells hindent .nil,
          fun t ht => absurd ht List.not_mem_nil⟩
        rw [← htokens]
        simp [Lexer.documentTokens]
      · obtain ⟨first, ts, htokens, hspells, hindent⟩ :=
          Line.marked_tokens hline hlineWords number [Lexer.breakToken number line.text]
        refine ⟨first :: ts ++ [], [Lexer.breakToken number line.text], ?_,
          .cons hb hspells hindent .nil, ?_⟩
        · rw [List.append_nil, ← htokens]
          simp [Lexer.documentTokens, Lexer.lineTokens, Lexer.scan_nil, Lexer.markFirst]
        · intro t ht
          rw [List.mem_singleton.1 ht, hbreak]
    | cons next more =>
      obtain ⟨first, ts, htokens, hspells, hindent⟩ :=
        Line.marked_tokens hline hlineWords number [Lexer.breakToken number line.text]
      obtain ⟨us, rest, hmore, hbelow, hrest⟩ := ih (by simp)
        (fun l hl => hspelled l (List.mem_cons_of_mem line hl))
        (fun l hl => hwords l (List.mem_cons_of_mem line hl)) hbreak (number + 1)
      refine ⟨first :: ts ++ Lexer.breakToken number line.text :: us, rest, ?_,
        .cons hb hspells hindent hbelow, hrest⟩
      rw [List.map_cons, List.cons_append, Lexer.documentTokens, htokens, hmore]
      · simp
      · simp

theorem intercalate_append_nil {ls : List (List Char)} (hne : ls ≠ []) :
    ['\n'].intercalate (ls ++ [[]]) = ['\n'].intercalate ls ++ ['\n'] := by
  induction ls with
  | nil => exact absurd rfl hne
  | cons l more ih =>
    cases more with
    | nil => simp [List.intercalate_cons_cons]
    | cons l' more =>
      rw [List.cons_append, List.cons_append, List.intercalate_cons_cons, ← List.cons_append, ih (by simp),
        List.intercalate_cons_cons]
      simp

namespace Program

theorem lines_eq_nil_iff {p : Program} (hwell : Stmt.areWellFormed p.body) :
    p.lines = [] ↔ p.body = [] := by
  unfold lines
  cases hbody : p.body with
  | nil => simp [Stmt.linesOf]
  | cons s more =>
    rw [hbody, Stmt.areWellFormed, Bool.and_eq_true] at hwell
    obtain ⟨w, ws, rest, hlines, -⟩ := Stmt.lines_head hwell.1 0
    simp [Stmt.linesOf, hlines]

/-- The lines of a printed script are the lines of its text. -/
theorem text_lines {p : Program} (hp : p.Printable) (hne : p.lines ≠ []) {ending : String}
    (hending : ending = "" ∨ ending = "\n") :
    ∃ tail, (tail = [] ∨ tail = [[]]) ∧
      Text.lines (p.print ++ ending).toList = p.lines.map Line.text ++ tail := by
  have hmap : p.lines.map Line.text ≠ [] := by simpa using hne
  have hbreaks : ∀ l ∈ p.lines.map Line.text, ∀ c ∈ l, c ≠ '\r' ∧ c ≠ '\n' := by
    intro l hl
    obtain ⟨line, hline, rfl⟩ := List.mem_map.1 hl
    exact Line.no_break (hp.spelled line hline)
  rcases hending with rfl | rfl
  · refine ⟨[], .inl rfl, ?_⟩
    rw [String.append_empty, print, String.toList_ofList, Text.lines_intercalate hmap hbreaks,
      List.append_nil]
  · refine ⟨[[]], .inr rfl, ?_⟩
    have htext : (p.print ++ "\n").toList = ['\n'].intercalate (p.lines.map Line.text ++ [[]]) := by
      rw [String.toList_append, print, String.toList_ofList, intercalate_append_nil hmap]
      rfl
    rw [htext]
    refine Text.lines_intercalate (by simp) fun l hl => ?_
    rcases List.mem_append.1 hl with hl | hl
    · exact hbreaks l hl
    · rw [List.mem_singleton.1 hl]
      exact fun c hc => absurd hc List.not_mem_nil

/-- What is printed is read back without a fault, up to ranges, whether or not the last line ends in a
line break. -/
theorem parse_print (p : Program) (hp : p.Printable) (ending : String)
    (hending : ending = "" ∨ ending = "\n") :
    (Program.parse (tokenize (p.print ++ ending))).2 = [] ∧
      (Program.parse (tokenize (p.print ++ ending))).1.erase = p.erase := by
  by_cases hbody : p.body = []
  · have hprint : p.print = "" := by
      rw [print, (lines_eq_nil_iff hp.wellFormed).2 hbody]
      rfl
    have hblank : ∀ t ∈ tokenize (p.print ++ ending), t.kind = .newline := by
      rw [hprint]
      rcases hending with rfl | rfl <;> decide +kernel
    rw [Parser.parse_of_breaks hblank, erase, erase, hbody]
    exact ⟨rfl, rfl⟩
  · have hlines : p.lines ≠ [] := fun h => hbody ((lines_eq_nil_iff hp.wellFormed).1 h)
    obtain ⟨tail, htail, htext⟩ := text_lines hp hlines hending
    obtain ⟨ts, rest, htokens, hbelow, hrest⟩ := @documentTokens_lines _ tail
      (Lexer.breakToken 0 []) hlines hp.spelled (Stmt.linesOf_words_ne_nil p.body 0) htail rfl 0
    rw [tokenize, htext, htokens]
    exact Parser.parse_of_below hp.wellFormed hp.depth hbody hbelow hrest

theorem parse_print_conditional :
    let name (text : String) : Expr := .name ⟨.origin, text⟩
    let one : Expr := .literal .origin (.number "1")
    let sum : Expr := .binary .origin .add (name "a") one
    let value : Expr := .binary .origin .multiply (.unary .origin .minus sum) (name "ta.b")
    let p : Program := ⟨.origin, [.conditional (.mk .origin (.binary .origin .less (name "a") one)
      (.mk .origin [.declaration .origin (some .var) (some "float") ⟨.origin, "x"⟩ value])
      (.block (.mk .origin [.jump .origin .return (some (.call .origin (name "f")
        [.positional sum, .named .origin ⟨.origin, "k"⟩ one]))])))]⟩
    p.print ++ "\n" = "if a < 1\n    var float x = - ( a + 1 ) * ta.b\n" ++
      "else\n    return f ( a + 1 , k = 1 )\n" ∧
    (Program.parse (tokenize (p.print ++ "\n"))).2 = [] ∧
    (Program.parse (tokenize (p.print ++ "\n"))).1.erase = p.erase := by
  intro name one sum value p
  exact ⟨by decide +kernel, parse_print p ⟨by decide, by decide +kernel, by decide⟩ "\n" (.inr rfl)⟩

end Program

end PineScript
