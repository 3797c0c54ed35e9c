import PineScript.Proofs.Grammar.Sound
import PineScript.Proofs.Parser.Suite

/-!
# Expressions are read exactly

A line that declares a name is read without a fault if and only if the grammar derives the value from
what stands behind the equals sign, and the value that is read is the one derived.
-/

namespace PineScript

namespace Parser

/-- Scanned tokens that are code. -/
def Code (ts : List Token) : Prop := ∀ t ∈ ts, t.isLayout = false ∧ t.Scanned

theorem Code.scans {ts : List Token} (h : Code ts) : Scans ts := fun t ht => (h t ht).2

theorem Code.dropWhile_isLayout {ts : List Token} (h : Code ts) : ts.dropWhile Token.isLayout = ts := by
  cases ts with
  | nil => rfl
  | cons t ts => simp [(h t List.mem_cons_self).1]

variable {nested : Parser Expr} {block : Int → Parser (Mended Block)} {ctx : Context} {x q : Token}
  {ts : List Token}

theorem simpleForm_equals (hx : x.isIdentifier) (hq : q.isOperator "=") :
    simpleForm nested ctx (x :: q :: ts) =
      (do
        let value ← nested
        return .declaration ⟨x.range.start, value.range.stop⟩ none none (nameOf x) value
          : Parser Stmt) ctx (ts.dropWhile Token.isLayout) := by
  have hseex : ctx.skips x = false := Context.skips_of_code (Token.isLayout_of_identifier hx)
  have hseeq : ctx.skips q = false := Context.skips_of_code (Token.isLayout_of_operator hq)
  have hkind := Token.isIdentifier_iff.1 hx
  have hname : q.isIdentifier = false := by grind
  have hahead : ctx.lookahead 1 (x :: q :: ts) = q := by
    rw [Context.lookahead_succ_of_seen 0 hseex, Context.lookahead_zero_of_seen hseeq]
  simp [simpleForm, declaration, startsDeclaration, jumpKind?, modifier?, peek_of_seen hseex, hkind,
    hx, hq, hname, hahead, peekAt_apply, expect_of_seen hseex, expect_of_seen hseeq, discard_eq_map,
    passLayout]

/-- A name and an equals sign open a declaration, which ends with its line. -/
theorem statement_equals (hx : x.isIdentifier) (hq : q.isOperator "=") (indent : Int) :
    statement nested block indent ctx (x :: q :: ts) =
      match nested { ctx with margin := some indent } (ts.dropWhile Token.isLayout) with
      | .ok value rest => (do
          endOfLine
          return ⟨.declaration ⟨x.range.start, value.range.stop⟩ none none (nameOf x) value, []⟩
            : Parser (Mended Stmt)) ctx rest
      | .fault e rest => .fault e rest := by
  have hseex : ctx.skips x = false := Context.skips_of_code (Token.isLayout_of_identifier hx)
  have hseeq : ctx.skips q = false := Context.skips_of_code (Token.isLayout_of_operator hq)
  have hnot : ∀ word, x.isKeyword word = false := by
    intro word
    grind
  have hparen : q.isPunctuation "(" = false := by grind
  have hfunction : startsFunction ctx (x :: q :: ts) = .ok false (x :: q :: ts) := by
    simp [startsFunction, hseex, hseeq, hx, hparen]
  simp only [statement, bind_apply, peek_of_seen hseex, hnot, Bool.false_eq_true, ↓reduceIte,
    hfunction, simple, withMargin, simpleForm_equals hx hq]
  cases nested { ctx with margin := some indent } (ts.dropWhile Token.isLayout) with
  | ok value rest =>
    simp only [pure_apply]
    cases endOfLine ctx rest <;> rfl
  | fault e rest => rfl

/-! ## Whole lines -/

theorem parse_faults_ne_nil {item : Mended (List Stmt)} {rest : List Token}
    (h : suiteItem topStatement 0 ⟨finishOf ts, false, none⟩ ts = .ok (some item) rest)
    (hitem : item.faults ≠ []) : (Program.parse ts).2 ≠ [] := by
  have hscript : wp script ⟨finishOf ts, false, none⟩ ts (fun body _ => body.faults ≠ [])
      (fun _ _ => True) := by
    refine (wp_bind _ _).2 ((wp_bind _ _).2 (wp_imp (wp_collect_head h) ?_))
    rintro items _ ⟨more, rfl⟩
    simpa [wp] using fun hnil => absurd hnil hitem
  unfold wp at hscript
  unfold Program.parse
  dsimp only
  split at hscript
  · rename_i heq
    simpa [heq] using hscript
  · rename_i heq
    simp [heq]

/-- What is read of a line that declares a name, at the margin of a script. -/
theorem suiteItem_of_value (hx : x.isIdentifier) (hmargin : x.indent = some 0)
    (hq : q.isOperator "=") (hts : Code ts) {finish : Position} {e : Expr}
    (he : expression nestingLimit ⟨finish, false, some 0⟩ ts = .ok e []) :
    suiteItem topStatement 0 ⟨finish, false, none⟩ (x :: q :: ts) =
      .ok (some ⟨[.declaration ⟨x.range.start, e.range.stop⟩ none none (nameOf x) e], []⟩) [] := by
  have hread : topStatement 0 ⟨finish, false, none⟩ (x :: q :: ts) =
      .ok ⟨.declaration ⟨x.range.start, e.range.stop⟩ none none (nameOf x) e, []⟩ [] := by
    rw [topStatement, statement_equals hx hq, hts.dropWhile_isLayout]
    simp [he, endOfLine, atLineEnd, peek_apply, Token.isLineEnd]
  exact @suiteItem_of_statement topStatement 0 ⟨finish, false, none⟩ [] [] (q :: ts) x _
    (fun t ht => absurd ht List.not_mem_nil) (by grind) hmargin hread (Nat.zero_le _)

/-- The statement fails if no expression takes the whole line behind the equals sign. -/
theorem topStatement_fault (hx : x.isIdentifier) (hq : q.isOperator "=") (hts : Code ts)
    {finish : Position}
    (hne : ∀ e, expression nestingLimit ⟨finish, false, some 0⟩ ts ≠ .ok e []) :
    ∃ f rest, topStatement 0 ⟨finish, false, none⟩ (x :: q :: ts) = .fault f rest := by
  rw [topStatement, statement_equals hx hq, hts.dropWhile_isLayout]
  cases hexpr : expression nestingLimit ⟨finish, false, some 0⟩ ts with
  | fault f rest => exact ⟨f, rest, rfl⟩
  | ok e rest =>
    cases rest with
    | nil => exact absurd hexpr (hne e)
    | cons t rest =>
      -- A token is left over, and it does not end the line.
      have hsound := expression_sound nestingLimit ⟨finish, false, some 0⟩ ts hts.scans
      rw [wp_of_ok hexpr] at hsound
      obtain ⟨us, hspans, -⟩ := hsound
      obtain ⟨hcode, hscanned⟩ := hts t (hspans.suffix.mem List.mem_cons_self)
      have hsee : Context.skips ⟨finish, false, none⟩ t = false := Context.skips_of_code hcode
      have hline : t.isLineEnd = false := by
        have := hscanned.ne_eof
        grind
      simp [endOfLine, atLineEnd, peek_of_seen hsee, hline, unexpected, fail]

theorem suiteItem_of_fault (hx : x.isIdentifier) (hmargin : x.indent = some 0)
    (hq : q.isOperator "=") (hts : Code ts) {finish : Position}
    (hne : ∀ e, expression nestingLimit ⟨finish, false, some 0⟩ ts ≠ .ok e []) :
    ∃ item rest, item.faults ≠ [] ∧
      suiteItem topStatement 0 ⟨finish, false, none⟩ (x :: q :: ts) = .ok (some item) rest := by
  have hlayout : x.isLayout = false := by grind
  have hindent : indentOf 0 x = 0 := by simp [indentOf, hmargin]
  obtain ⟨f, stopped, hread⟩ := topStatement_fault hx hq hts hne
  simp only [suiteItem, List.dropWhile_cons, hlayout, Bool.false_eq_true, if_false, hindent,
    Int.lt_irrefl, attempt, hread, Reply.ok.injEq, Option.some.injEq]
  exact ⟨_, _, List.cons_ne_nil f [], rfl, rfl⟩

/-- A line whose value is read to its end makes up a script. -/
theorem parse_of_value (hx : x.isIdentifier) (hmargin : x.indent = some 0) (hq : q.isOperator "=")
    (hts : Code ts) {e : Expr}
    (he : expression nestingLimit ⟨finishOf (x :: q :: ts), false, some 0⟩ ts = .ok e []) :
    Program.parse (x :: q :: ts) = (⟨⟨.origin, finishOf (x :: q :: ts)⟩,
      [.declaration ⟨x.range.start, e.range.stop⟩ none none (nameOf x) e]⟩, []) := by
  have hstop : suiteItem topStatement 0 ⟨finishOf (x :: q :: ts), false, none⟩ [] = .ok none [] := by
    simp [suiteItem]
  have hitems := Items.item (suiteItem_of_value hx hmargin hq hts he) (by simp) (.stop hstop)
  have hscript := script_of_suite (suite_of_items hitems)
  simpa [ownComments] using parse_of_script hscript

/-- With nothing behind it, an expression is read exactly from what derives it. -/
theorem expression_eq_ok_iff (hts : Code ts) {n : Nat} {e : Expr} :
    expression n ctx ts = .ok e [] ↔ Grammar.Expression n ts e := by
  constructor
  · intro h
    have hsound := expression_sound n ctx ts hts.scans
    rw [wp_of_ok h] at hsound
    obtain ⟨us, ⟨front, rfl, rfl, -⟩, he⟩ := hsound
    rw [List.append_nil] at hts ⊢
    rwa [Token.codeOf_of_code fun t ht => (hts t ht).1] at he
  · intro he
    have hends : Ends ctx [] := by
      refine ⟨fun spellings _ => joinLine_of_lookahead (by simp), ?_⟩
      rw [Context.lookahead_nil]
      rintro (h | h | h | ⟨op, h, -⟩) <;>
        simp [Token.isPunctuation, Token.isOperator] at h
    simpa using expression_complete n ctx ts e [] he hends

end Parser

open PineScript.Parser

/-- A line that gives a name a value is read without a fault exactly if the grammar derives a value
from the tokens behind the equals sign, and there is one such value. -/
theorem Program.parse_declares_iff_derives (source : String) (x q : Token) (ts : List Token)
    (hsource : tokenize source = x :: q :: ts) (hx : x.isIdentifier) (hmargin : x.indent = some 0)
    (hq : q.isOperator "=") (hts : ∀ t ∈ ts, t.isLayout = false) :
    (∀ e, (∃ whole line, Program.parse (tokenize source) =
        (⟨whole, [.declaration line none none ⟨x.range, x.text⟩ e]⟩, [])) ↔
      Grammar.Expression 48 ts e) ∧
    (∀ e e', Grammar.Expression 48 ts e → Grammar.Expression 48 ts e' → e = e') := by
  have hcode : Code ts := by
    intro t ht
    have hmem : t ∈ tokenize source := by
      rw [hsource]
      exact .tail _ (.tail _ ht)
    exact ⟨hts t ht, scanned_of_mem_tokenize hmem⟩
  rw [hsource]
  constructor
  · intro e
    rw [← @expression_eq_ok_iff ⟨finishOf (x :: q :: ts), false, some 0⟩ ts hcode]
    constructor
    · rintro ⟨whole, line, hparse⟩
      -- Had no value taken the whole line, there would be a fault.
      have hread : ∃ e, expression nestingLimit ⟨finishOf (x :: q :: ts), false, some 0⟩ ts =
          .ok e [] := by
        refine Classical.byContradiction fun hnone => ?_
        obtain ⟨item, rest, hfaults, hitem⟩ :=
          suiteItem_of_fault hx hmargin hq hcode (not_exists.1 hnone)
        exact parse_faults_ne_nil hitem hfaults (by rw [hparse])
      obtain ⟨value, hvalue⟩ := hread
      rw [parse_of_value hx hmargin hq hcode hvalue] at hparse
      cases hparse
      exact hvalue
    · intro he
      exact ⟨_, _, parse_of_value hx hmargin hq hcode he⟩
  · intro e e' he he'
    have h := (@expression_eq_ok_iff ⟨.origin, false, none⟩ ts hcode 48 e).2 he
    rw [(@expression_eq_ok_iff ⟨.origin, false, none⟩ ts hcode 48 e').2 he'] at h
    cases h
    rfl

theorem Program.parse_declares_iff_derives_difference :
    ∃ whole line, Program.parse (tokenize "x = -a - 1") =
      (⟨whole, [.declaration line none none ⟨⟨⟨0, 0⟩, ⟨0, 1⟩⟩, "x"⟩
        (.binary ⟨⟨0, 4⟩, ⟨0, 10⟩⟩ .subtract
          (.unary ⟨⟨0, 4⟩, ⟨0, 6⟩⟩ .minus (.name ⟨⟨⟨0, 5⟩, ⟨0, 6⟩⟩, "a"⟩))
          (.literal ⟨⟨0, 9⟩, ⟨0, 10⟩⟩ (.number "1")))]⟩, []) := by
  refine ((Program.parse_declares_iff_derives "x = -a - 1"
    ⟨.identifier, "x", ⟨⟨0, 0⟩, ⟨0, 1⟩⟩, some 0⟩ ⟨.operator, "=", ⟨⟨0, 2⟩, ⟨0, 3⟩⟩, none⟩
    [⟨.operator, "-", ⟨⟨0, 4⟩, ⟨0, 5⟩⟩, none⟩, ⟨.identifier, "a", ⟨⟨0, 5⟩, ⟨0, 6⟩⟩, none⟩,
      ⟨.operator, "-", ⟨⟨0, 7⟩, ⟨0, 8⟩⟩, none⟩, ⟨.number, "1", ⟨⟨0, 9⟩, ⟨0, 10⟩⟩, none⟩]
    (by decide +kernel) rfl rfl rfl (by decide)).1 _).2 (.binary ?_)
  have hleft : Grammar.Binary (Grammar.Expression 47) 4
      [⟨.operator, "-", ⟨⟨0, 4⟩, ⟨0, 5⟩⟩, none⟩, ⟨.identifier, "a", ⟨⟨0, 5⟩, ⟨0, 6⟩⟩, none⟩]
      (.unary ⟨⟨0, 4⟩, ⟨0, 6⟩⟩ .minus (.name ⟨⟨⟨0, 5⟩, ⟨0, 6⟩⟩, "a"⟩)) :=
    .tighter (.tighter (.unary (.sign ⟨rfl, rfl⟩ (.operand (.primary (.name rfl))))))
  have hright : Grammar.Binary (Grammar.Expression 47) 5 [⟨.number, "1", ⟨⟨0, 9⟩, ⟨0, 10⟩⟩, none⟩]
      (.literal ⟨⟨0, 9⟩, ⟨0, 10⟩⟩ (.number "1")) :=
    .tighter (.unary (.operand (.primary (.literal ⟨rfl, rfl⟩))))
  exact .tighter (.tighter (.tighter (.tighter (.operation hleft rfl ⟨rfl, rfl⟩ hright))))

end PineScript
