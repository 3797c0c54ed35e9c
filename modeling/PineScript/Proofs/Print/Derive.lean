import PineScript.Proofs.Grammar
import PineScript.Proofs.Parser.Run
import PineScript.Proofs.Print

/-!
# Printed expressions are derived

The grammar derives every expression from the words it is printed as, up to ranges. An operand is
derived at the level its place asks for, by parentheses if it is too loose; the levels of the grammar
are indexed by tightness for this.
-/

namespace PineScript

def Argument.value : Argument → Expr
  | .positional value => value
  | .named _ _ value => value

/-- An expression has a property if that follows from its parts having it. -/
@[elab_as_elim]
theorem Expr.induction {motive : Expr → Prop} (name : ∀ n, motive (.name n))
    (literal : ∀ r v, motive (.literal r v))
    (call : ∀ r callee arguments, motive callee → (∀ a ∈ arguments, motive a.value) →
      motive (.call r callee arguments))
    (index : ∀ r target subscript, motive target → motive subscript →
      motive (.index r target subscript))
    (unary : ∀ r op operand, motive operand → motive (.unary r op operand))
    (binary : ∀ r op left right, motive left → motive right → motive (.binary r op left right))
    (ternary : ∀ r condition whenTrue whenFalse, motive condition → motive whenTrue →
      motive whenFalse → motive (.ternary r condition whenTrue whenFalse))
    (e : Expr) : motive e := by
  refine @Expr.rec motive (fun a => motive a.value) (fun as => ∀ a ∈ as, motive a.value) name literal
    call index unary binary ternary (fun _ ih => ih) (fun _ _ _ ih => ih) ?_ ?_ e
  · intro a ha
    cases ha
  · intro a more ha hmore b hb
    rcases List.mem_cons.1 hb with rfl | hb
    · exact ha
    · exact hmore b hb

/-! ## Tokens that spell words -/

/-- The tokens are the words in this order. -/
def Spells (ts : List Token) (ws : List Word) : Prop := ts.map Token.lexeme = ws.map Word.lexeme

theorem Token.lexeme_eq_iff {t : Token} {w : Word} :
    t.lexeme = w.lexeme ↔ t.kind = w.kind ∧ t.text = w.text := by
  simp [Token.lexeme, Word.lexeme]

namespace Spells

variable {ts : List Token} {ws vs : List Word} {w : Word}

theorem nil_iff : Spells ts [] ↔ ts = [] := by simp [Spells]

theorem cons_iff :
    Spells ts (w :: ws) ↔ ∃ t us, ts = t :: us ∧ t.lexeme = w.lexeme ∧ Spells us ws := by
  simp [Spells, List.map_eq_cons_iff]

theorem append_iff :
    Spells ts (ws ++ vs) ↔ ∃ us us', ts = us ++ us' ∧ Spells us ws ∧ Spells us' vs := by
  simp [Spells, List.map_eq_append_iff]

theorem singleton_iff : Spells ts [w] ↔ ∃ t, ts = [t] ∧ t.lexeme = w.lexeme := by
  simp only [cons_iff, nil_iff]
  grind

theorem inParens (h : Spells ts (Word.inParens ws)) :
    ∃ o us c, ts = o :: (us ++ [c]) ∧ o.isPunctuation "(" ∧ Spells us ws ∧ c.isPunctuation ")" := by
  obtain ⟨o, ts, rfl, ho, h⟩ := cons_iff.1 h
  obtain ⟨us, ts, rfl, hus, h⟩ := append_iff.1 h
  obtain ⟨c, rfl, hc⟩ := singleton_iff.1 h
  exact ⟨o, us, c, rfl, Token.isPunctuation_iff.2 (Token.lexeme_eq_iff.1 ho), hus,
    Token.isPunctuation_iff.2 (Token.lexeme_eq_iff.1 hc)⟩

end Spells

/-! ## Levels by tightness -/

namespace Grammar

variable {nested : List Token → Expr → Prop} {ts : List Token} {e : Expr}

/-- The expressions that hold together at least so tightly. -/
def Level (nested : List Token → Expr → Prop) (k : Nat) (ts : List Token) (e : Expr) : Prop :=
  match k with
  | 0 => Ternary nested ts e
  | k + 1 => if k ≤ 6 then Binary nested k ts e else Postfix nested ts e

theorem level_succ_iff {k : Nat} (hk : k ≤ 6) :
    Level nested (k + 1) ts e ↔ Binary nested k ts e := by
  simp only [Level, if_pos hk]

theorem Binary.loosen {j k : Nat} (h : Binary nested k ts e) (hjk : j ≤ k) :
    Binary nested j ts e := by
  induction hjk with
  | refl => exact h
  | step _ ih => exact ih (.tighter h)

theorem Postfix.binary {k : Nat} (h : Postfix nested ts e) (hk : k ≤ 6) : Binary nested k ts e :=
  Binary.loosen (.unary (.operand h)) hk

theorem Level.loosen {j k : Nat} (h : Level nested k ts e) (hjk : j ≤ k) : Level nested j ts e := by
  match j, k, hjk with
  | 0, 0, _ => exact h
  | 0, k + 1, _ =>
    simp only [Level] at h
    split at h
    · exact .binary (h.loosen (Nat.zero_le k))
    · exact .binary (h.binary (Nat.zero_le 6))
  | j + 1, k + 1, hjk =>
    simp only [Level] at h ⊢
    split at h
    · rw [if_pos (by omega)]
      exact h.loosen (by omega)
    · split
      · exact h.binary ‹_›
      · exact h

/-- Parentheses hold any expression together. -/
theorem Level.parens {o c : Token} (ho : o.isPunctuation "(") (he : nested ts e)
    (hc : c.isPunctuation ")") {k : Nat} (hk : k ≤ 8) : Level nested k (o :: (ts ++ [c])) e :=
  Level.loosen (k := 8) (.primary (.parens ho he hc)) hk

end Grammar

/-! ## Expressions -/

namespace Expr

/-- The words of the expression derive it, up to ranges. -/
def Derivable (e : Expr) : Prop :=
  ∀ n ts, e.depth ≤ n + 1 → Spells ts e.words →
    ∃ e', Grammar.Level (Grammar.Expression n) e.tightness ts e' ∧ e'.erase = e.erase

theorem one_le_depth (e : Expr) : 1 ≤ e.depth := by
  induction e using Expr.induction <;> simp only [depth, depthAt] <;> try split
  all_goals omega

/-- At a place for any expression. -/
theorem Derivable.nested {e : Expr} (he : Derivable e) {n : Nat} (hdepth : e.depth ≤ n)
    {ts : List Token} (hts : Spells ts e.words) :
    ∃ e', Grammar.Expression n ts e' ∧ e'.erase = e.erase := by
  have hone := e.one_le_depth
  obtain ⟨m, rfl⟩ : ∃ m, n = m + 1 := ⟨n - 1, by omega⟩
  obtain ⟨e', hlevel, herase⟩ := he m ts hdepth hts
  exact ⟨e', hlevel.loosen (Nat.zero_le _), herase⟩

/-- At the place of an operand. -/
theorem Derivable.operand {e : Expr} (he : Derivable e) {n k : Nat} (hk : k ≤ 8)
    (hdepth : depthAt k e.tightness e.depth ≤ n + 1) {ts : List Token}
    (hts : Spells ts (wordsAt k e.tightness e.words)) :
    ∃ e', Grammar.Level (Grammar.Expression n) k ts e' ∧ e'.erase = e.erase := by
  unfold depthAt at hdepth
  unfold wordsAt at hts
  split at hts
  -- The level that the parentheses add is the one that a nested expression takes.
  · rw [if_pos ‹_›] at hdepth
    obtain ⟨o, us, c, rfl, ho, hus, hc⟩ := hts.inParens
    obtain ⟨e', hnested, herase⟩ := he.nested (Nat.le_of_succ_le_succ hdepth) hus
    exact ⟨e', .parens ho hnested hc hk, herase⟩
  · rw [if_neg ‹_›] at hdepth
    obtain ⟨e', hlevel, herase⟩ := he n ts hdepth hts
    exact ⟨e', hlevel.loosen (by omega), herase⟩

end Expr

namespace Argument

theorem wordLists_eq_map (as : List Argument) : wordLists as = as.map words := by
  induction as with
  | nil => rfl
  | cons a more ih => rw [wordLists, ih, List.map_cons]

theorem derives {a : Argument} (ha : a.value.Derivable) {n : Nat} (hdepth : a.depth ≤ n)
    {ts : List Token} (hts : Spells ts a.words) :
    ∃ a', Grammar.Argument (Grammar.Expression n) ts a' ∧ a'.erase = a.erase := by
  cases a with
  | positional value =>
    obtain ⟨e, he, herase⟩ := ha.nested hdepth hts
    exact ⟨.positional e, .positional he, by rw [erase, erase, herase]; rfl⟩
  | named r name value =>
    obtain ⟨t, us, rfl, ht, hts⟩ := Spells.cons_iff.1 hts
    obtain ⟨q, us, rfl, hq, hts⟩ := Spells.cons_iff.1 hts
    obtain ⟨hkind, htext⟩ := Token.lexeme_eq_iff.1 ht
    obtain ⟨e, he, herase⟩ := ha.nested hdepth hts
    have hname := Grammar.Argument.named (Token.isIdentifier_iff.2 hkind)
      (Token.isOperator_iff.2 (Token.lexeme_eq_iff.1 hq)) he
    exact ⟨_, hname, by simp only [erase, Name.erase, htext, herase]; rfl⟩

end Argument

/-- Items that are derived one by one are derived as a list. -/
theorem Spells.listed {α : Type} {words : α → List Word} {erase : α → α}
    {derived : List Token → α → Prop} {as : List α} {ts : List Token}
    (hderive : ∀ a ∈ as, ∀ us, Spells us (words a) → ∃ a', derived us a' ∧ erase a' = erase a)
    (hts : Spells ts (Word.separated (as.map words))) :
    ∃ as', Grammar.Listed derived ts as' ∧ as'.map erase = as.map erase := by
  induction as generalizing ts with
  | nil =>
    obtain rfl := Spells.nil_iff.1 hts
    exact ⟨[], .none, rfl⟩
  | cons a more ih =>
    have hmore : ∀ b ∈ more, ∀ us, Spells us (words b) → ∃ b', derived us b' ∧ erase b' = erase b :=
      fun b hb => hderive b (List.mem_cons_of_mem a hb)
    cases more with
    | nil =>
      obtain ⟨a', ha, herase⟩ := hderive a List.mem_cons_self ts hts
      exact ⟨[a'], .last ha, by simp [herase]⟩
    | cons b more =>
      obtain ⟨us, vs, rfl, hus, hvs⟩ := Spells.append_iff.1 hts
      obtain ⟨comma, vs, rfl, hcomma, hvs⟩ := Spells.cons_iff.1 hvs
      obtain ⟨a', ha, herase⟩ := hderive a List.mem_cons_self us hus
      obtain ⟨as', has, herases⟩ := ih hmore hvs
      exact ⟨a' :: as', .more ha (Token.isPunctuation_iff.2 (Token.lexeme_eq_iff.1 hcomma)) has,
        by simp [herase, herases]⟩

theorem Argument.depth_le_depths {a : Argument} {as : List Argument} (h : a ∈ as) :
    a.depth ≤ depths as := by
  induction as with
  | nil => cases h
  | cons b more ih =>
    rw [depths]
    rcases List.mem_cons.1 h with rfl | h
    · exact Nat.le_max_left _ _
    · exact Nat.le_trans (ih h) (Nat.le_max_right _ _)

namespace Expr

theorem Derivable.call {callee : Expr} {arguments : List Argument} (r : Range)
    (hcallee : callee.Derivable) (hargs : ∀ a ∈ arguments, a.value.Derivable) :
    (Expr.call r callee arguments).Derivable := by
  intro n ts hdepth hts
  rw [depth, Nat.max_le] at hdepth
  obtain ⟨us, vs, rfl, hus, hvs⟩ := Spells.append_iff.1 hts
  obtain ⟨o, vs, c, rfl, ho, hvs, hc⟩ := hvs.inParens
  obtain ⟨callee', hlevel, herase⟩ := hcallee.operand (Nat.le_refl 8) hdepth.1 hus
  rw [Argument.wordLists_eq_map] at hvs
  obtain ⟨as', has, herases⟩ := Spells.listed (fun a ha us hus =>
    Argument.derives (hargs a ha)
      (Nat.le_trans (Argument.depth_le_depths ha) (Nat.le_of_succ_le_succ hdepth.2)) hus) hvs
  refine ⟨_, Grammar.Postfix.call hlevel ho has hc, ?_⟩
  simp only [erase, herase, Argument.eraseAll_eq_map, herases]

theorem Derivable.index {target subscript : Expr} (r : Range) (htarget : target.Derivable)
    (hsubscript : subscript.Derivable) : (Expr.index r target subscript).Derivable := by
  intro n ts hdepth hts
  rw [depth, Nat.max_le] at hdepth
  obtain ⟨us, vs, rfl, hus, hvs⟩ := Spells.append_iff.1 hts
  obtain ⟨o, vs, rfl, ho, hvs⟩ := Spells.cons_iff.1 hvs
  obtain ⟨vs, ws, rfl, hsub, hws⟩ := Spells.append_iff.1 hvs
  obtain ⟨c, rfl, hc⟩ := Spells.singleton_iff.1 hws
  obtain ⟨target', hlevel, herase⟩ := htarget.operand (Nat.le_refl 8) hdepth.1 hus
  obtain ⟨sub', hsub, herase'⟩ := hsubscript.nested (Nat.le_of_succ_le_succ hdepth.2) hsub
  refine ⟨_, Grammar.Postfix.index hlevel (Token.isPunctuation_iff.2 (Token.lexeme_eq_iff.1 ho)) hsub
    (Token.isPunctuation_iff.2 (Token.lexeme_eq_iff.1 hc)), ?_⟩
  simp only [erase, herase, herase']

theorem Derivable.unary {operand : Expr} (r : Range) (op : UnaryOp) (h : operand.Derivable) :
    (Expr.unary r op operand).Derivable := by
  intro n ts hdepth hts
  obtain ⟨t, us, rfl, ht, hus⟩ := Spells.cons_iff.1 hts
  obtain ⟨e, hlevel, herase⟩ := h.operand (by decide) hdepth hus
  -- Behind the tightest level of operators only signs are left.
  have hunary : Grammar.Unary (Grammar.Expression n) us e := by
    cases hlevel with
    | unary he => exact he
    | tighter he => exact absurd he.le_six (by decide)
    | operation _ hop _ hright => exact absurd hright.le_six (by decide)
  refine ⟨_, Grammar.Binary.unary (.sign (Token.lexeme_eq_iff.1 ht) hunary), ?_⟩
  simp only [erase, herase]

theorem Derivable.binary {left right : Expr} (r : Range) (op : BinaryOp) (hleft : left.Derivable)
    (hright : right.Derivable) : (Expr.binary r op left right).Derivable := by
  intro n ts hdepth hts
  rw [depth, Nat.max_le] at hdepth
  have hop : op.precedence ≤ 5 := by cases op <;> decide
  obtain ⟨us, vs, rfl, hus, hvs⟩ := Spells.append_iff.1 hts
  obtain ⟨t, vs, rfl, ht, hvs⟩ := Spells.cons_iff.1 hvs
  obtain ⟨left', hl, herase⟩ := hleft.operand (by omega) hdepth.1 hus
  obtain ⟨right', hr, herase'⟩ := hright.operand (by omega) hdepth.2 hvs
  rw [Grammar.level_succ_iff (by omega)] at hl hr
  have hop := Grammar.Binary.operation hl rfl (Token.lexeme_eq_iff.1 ht) hr
  refine ⟨_, (Grammar.level_succ_iff (by omega)).2 hop, ?_⟩
  simp only [erase, herase, herase']

theorem Derivable.ternary {condition whenTrue whenFalse : Expr} (r : Range)
    (hcond : condition.Derivable) (htrue : whenTrue.Derivable) (hfalse : whenFalse.Derivable) :
    (Expr.ternary r condition whenTrue whenFalse).Derivable := by
  intro n ts hdepth hts
  rw [depth, Nat.max_le] at hdepth
  obtain ⟨us, vs, rfl, hus, hvs⟩ := Spells.append_iff.1 hts
  obtain ⟨q, vs, rfl, hq, hvs⟩ := Spells.cons_iff.1 hvs
  obtain ⟨vs, ws, rfl, htrues, hws⟩ := Spells.append_iff.1 hvs
  obtain ⟨c, ws, rfl, hc, hfalses⟩ := Spells.cons_iff.1 hws
  obtain ⟨condition', hlevel, herase⟩ := hcond.operand (by decide) hdepth.1 hus
  have hbranches := Nat.max_le.1 (Nat.le_of_succ_le_succ hdepth.2)
  obtain ⟨true', ht, herase₁⟩ := htrue.nested hbranches.1 htrues
  obtain ⟨false', hf, herase₂⟩ := hfalse.nested hbranches.2 hfalses
  refine ⟨_, Grammar.Ternary.choice hlevel (Token.isOperator_iff.2 (Token.lexeme_eq_iff.1 hq)) ht
    (Token.isOperator_iff.2 (Token.lexeme_eq_iff.1 hc)) hf, ?_⟩
  simp only [erase, herase, herase₁, herase₂]

theorem derivable (e : Expr) : e.Derivable := by
  induction e using Expr.induction with
  | name n =>
    intro k ts _ hts
    obtain ⟨t, rfl, ht⟩ := Spells.singleton_iff.1 hts
    obtain ⟨hkind, htext⟩ := Token.lexeme_eq_iff.1 ht
    exact ⟨_, Grammar.Postfix.primary (.name (Token.isIdentifier_iff.2 hkind)), by
      simp only [erase, Name.erase, htext]; rfl⟩
  | literal r v =>
    intro k ts _ hts
    obtain ⟨t, rfl, ht⟩ := Spells.singleton_iff.1 hts
    exact ⟨_, Grammar.Postfix.primary (.literal (Token.lexeme_eq_iff.1 ht)), rfl⟩
  | call r _ _ hcallee hargs => exact .call r hcallee hargs
  | index r _ _ htarget hsubscript => exact .index r htarget hsubscript
  | unary r op _ h => exact .unary r op h
  | binary r op _ _ hleft hright => exact .binary r op hleft hright
  | ternary r _ _ _ hcond htrue hfalse => exact .ternary r hcond htrue hfalse

/-- The grammar derives an expression, up to ranges, from the words it is printed as. -/
theorem derives (e : Expr) {n : Nat} (hdepth : e.depth ≤ n) {ts : List Token}
    (hts : Spells ts e.words) : ∃ e', Grammar.Expression n ts e' ∧ e'.erase = e.erase :=
  e.derivable.nested hdepth hts

end Expr

end PineScript
