import PineScript.Proofs.Grammar.Simple
import PineScript.Proofs.Print.Derive

/-!
# Printed simple statements are read

A statement that is printed on one line is read back, up to ranges, if the line ends behind it and
the next line of code neither carries it on nor is an `else`.
-/

namespace PineScript

theorem Word.isLayout_kind (w : Word) : w.kind.isLayout = false := by
  cases w with
  | literal v => cases v <;> rfl
  | unary op => cases op <;> rfl
  | binary op => cases op <;> rfl
  | mark m => cases m <;> rfl
  | _ => rfl

theorem Token.isLayout_of_lexeme {t : Token} {w : Word} (h : t.lexeme = w.lexeme) :
    t.isLayout = false := by
  rw [Token.isLayout, (Token.lexeme_eq_iff.1 h).1]
  exact w.isLayout_kind

namespace Parser

variable {finish : Position} {indent : Int} {ts rest : List Token} {ctx : Context} {t : Token}
  {block : Int → Parser (Mended Block)}

/-! ## What stands behind a statement -/

/-- A statement of this indentation ends here: the next line of code is not indented deeper, and
no `else` belongs to the statement. -/
structure Follows (indent : Int) (rest : List Token) : Prop where
  lineEnds : LineEnds rest
  next : ∀ t more, rest.dropWhile Token.isLayout = t :: more →
    ∃ i, t.indent = some i ∧ i ≤ indent ∧ (i = indent → t.isKeyword "else" = false)

/-- A block of this indentation ends here. -/
structure Closes (indent : Int) (rest : List Token) : Prop where
  lineEnds : LineEnds rest
  next : ∀ t more, rest.dropWhile Token.isLayout = t :: more → ∃ i, t.indent = some i ∧ i < indent

theorem Closes.follows (h : Closes indent rest) : Follows indent rest where
  lineEnds := h.lineEnds
  next := by
    intro t more heq
    obtain ⟨i, hi, hlt⟩ := h.next t more heq
    exact ⟨i, hi, Int.le_of_lt hlt, fun heq => absurd heq (Int.ne_of_lt hlt)⟩

theorem Follows.closes {deeper : Int} (h : Follows indent rest) (hlt : indent < deeper) :
    Closes deeper rest where
  lineEnds := h.lineEnds
  next := by
    intro t more heq
    obtain ⟨i, hi, hle, -⟩ := h.next t more heq
    exact ⟨i, hi, Int.lt_of_le_of_lt hle hlt⟩

theorem Follows.ends (h : Follows indent rest) : Ends ⟨finish, false, some indent⟩ rest where
  noJoin := by
    intro spellings _
    unfold joinLine
    dsimp only
    split
    · rfl
    · split
      · rfl
      · rename_i t more heq
        obtain ⟨i, hi, hle, -⟩ := h.next t more heq
        have hstay : carriesOn indent spellings t = false := by
          simp [carriesOn, hi, Int.not_lt.2 hle]
        simp [hstay]
  stops := h.lineEnds.not_continues

/-! ## Simple statements -/

/-- The reader gives the statement, up to ranges, and stops at `rest`. -/
def ReadsAs (read : Parser (Mended Stmt)) (ctx : Context) (ts rest : List Token) (s : Stmt) : Prop :=
  ∃ s', read ctx ts = .ok ⟨s', []⟩ rest ∧ s'.erase = s.erase

/-- What the grammar derives, up to ranges, from the code of a line is read. -/
theorem reads_simple {n : Nat} {s s' : Stmt} (h : Grammar.Simple (Grammar.Expression n) ts s')
    (herase : s'.erase = s.erase) (hrest : Follows indent rest) :
    ReadsAs (statement (expression n) block indent) ⟨finish, false, none⟩ (ts ++ rest) rest s :=
  ⟨s', statement_of_simple h (fun _ => hrest.ends) hrest.lineEnds, herase⟩

theorem reads_expression {n : Nat} {value : Expr} (hdepth : value.depth ≤ n)
    (hts : Spells ts value.words) (hrest : Follows indent rest) :
    ReadsAs (statement (expression n) block indent) ⟨finish, false, none⟩ (ts ++ rest) rest
      (.expression value) := by
  obtain ⟨e, he, herase⟩ := value.derives hdepth hts
  exact reads_simple (.expression he) (by rw [Stmt.erase, Stmt.erase, herase]) hrest

/-- A printed expression is read back in front of an end, and it begins with code. -/
theorem reads_value {n : Nat} {value : Expr} (hdepth : value.depth ≤ n) (hts : Spells ts value.words)
    (hends : Ends ctx rest) :
    ∃ e, expression n ctx (ts ++ rest) = .ok e rest ∧ e.erase = value.erase ∧
      ∃ t more, ts = t :: more ∧ t.Opens := by
  obtain ⟨e, he, herase⟩ := value.derives hdepth hts
  exact ⟨e, expression_complete n _ _ _ _ he hends, herase, he.phrase.opens⟩

theorem isIdentifier_of_lexeme {text : String} (h : t.lexeme = (Word.name text).lexeme) :
    t.isIdentifier = true ∧ t.text = text := by
  obtain ⟨hkind, htext⟩ := Token.lexeme_eq_iff.1 h
  exact ⟨Token.isIdentifier_iff.2 hkind, htext⟩

/-- Words that may be left out are derived as such. -/
theorem optional_of_spells {α : Type} {o : Option α} {word : α → Word} {written : Token → α → Prop}
    (hword : ∀ t a, t.lexeme = (word a).lexeme → written t a)
    (hts : Spells ts (o.map word).toList) :
    Grammar.Optional (fun us a => ∃ t, us = [t] ∧ written t a) ts o := by
  cases o with
  | none =>
    obtain rfl := Spells.nil_iff.1 hts
    exact .none
  | some a =>
    obtain ⟨t, rfl, ht⟩ := Spells.singleton_iff.1 hts
    exact .some ⟨t, rfl, hword t a ht⟩

theorem reads_declaration {n : Nat} {modifier : Option Modifier} {typeName : Option String}
    {name : Name} {value : Expr} (r : Range) (hdepth : value.depth ≤ n)
    (hts : Spells ts ((modifier.map Word.modifier).toList ++ (typeName.map Word.name).toList ++
      .name name.text :: .mark .equals :: value.words))
    (hrest : Follows indent rest) :
    ReadsAs (statement (expression n) block indent) ⟨finish, false, none⟩ (ts ++ rest) rest
      (.declaration r modifier typeName name value) := by
  rw [List.append_assoc] at hts
  obtain ⟨ms, ts, rfl, hms, hts⟩ := Spells.append_iff.1 hts
  obtain ⟨tys, ts, rfl, htys, hts⟩ := Spells.append_iff.1 hts
  obtain ⟨x, ts, rfl, hx, hts⟩ := Spells.cons_iff.1 hts
  obtain ⟨q, ts, rfl, hq, hts⟩ := Spells.cons_iff.1 hts
  obtain ⟨e, he, herase⟩ := value.derives hdepth hts
  obtain ⟨hxname, hxtext⟩ := isIdentifier_of_lexeme hx
  obtain ⟨first, hfirst⟩ : ∃ first, (ms ++ tys ++ [x]).head? = some first := by
    cases h : (ms ++ tys ++ [x]).head? with
    | none => simp at h
    | some first => exact ⟨first, rfl⟩
  refine reads_simple (.declaration (optional_of_spells ?_ hms) (optional_of_spells ?_ htys) hfirst
    hxname (Token.isOperator_iff.2 (Token.lexeme_eq_iff.1 hq)) he) ?_ hrest
  · exact fun t m ht => Token.isKeyword_iff.2 (Token.lexeme_eq_iff.1 ht)
  · exact fun t text ht => isIdentifier_of_lexeme ht
  · simp [Stmt.erase, nameOf, Name.erase, hxtext, herase]

theorem reads_assignment {n : Nat} {target : Name} {op : AssignOp} {value : Expr} (r : Range)
    (hdepth : value.depth ≤ n) (hts : Spells ts (.name target.text :: .assign op :: value.words))
    (hrest : Follows indent rest) :
    ReadsAs (statement (expression n) block indent) ⟨finish, false, none⟩ (ts ++ rest) rest
      (.assignment r target op value) := by
  obtain ⟨x, ts, rfl, hx, hts⟩ := Spells.cons_iff.1 hts
  obtain ⟨q, ts, rfl, hq, hts⟩ := Spells.cons_iff.1 hts
  obtain ⟨e, he, herase⟩ := value.derives hdepth hts
  obtain ⟨hxname, hxtext⟩ := isIdentifier_of_lexeme hx
  refine reads_simple (.assignment hxname (Token.isOperator_iff.2 (Token.lexeme_eq_iff.1 hq)) he) ?_
    hrest
  simp [Stmt.erase, nameOf, Name.erase, hxtext, herase]

theorem reads_jump {n : Nat} {kind : JumpKind} {value : Option Expr} (r : Range)
    (hwell : (Stmt.jump r kind value).isWellFormed) (hdepth : Expr.depthOf? value ≤ n)
    (hts : Spells ts (.jump kind :: (value.map Expr.words).getD [])) (hrest : Follows indent rest) :
    ReadsAs (statement (expression n) block indent) ⟨finish, false, none⟩ (ts ++ rest) rest
      (.jump r kind value) := by
  obtain ⟨w, ts, rfl, hw, hvalue⟩ := Spells.cons_iff.1 hts
  have hword : w.isKeyword kind.text = true := Token.isKeyword_iff.2 (Token.lexeme_eq_iff.1 hw)
  cases value with
  | none =>
    obtain rfl := Spells.nil_iff.1 hvalue
    exact reads_simple (.jump hword) rfl hrest
  | some value =>
    obtain rfl : kind = .return := by simpa [Stmt.isWellFormed] using hwell
    obtain ⟨e, he, herase⟩ := value.derives hdepth hvalue
    exact reads_simple (.returning hword he) (by simp [Stmt.erase, herase]) hrest

end Parser

end PineScript
