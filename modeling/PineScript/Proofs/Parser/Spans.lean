import PineScript.Proofs.Lexer.Tokens
import PineScript.Proofs.Parser.Beyond

/-!
# Code with layout among it

Comments and line breaks may stand wherever a reader does not look at them. `Spans` says which code a
reader has taken, whatever layout was among it; the last token that is taken is always code.
-/

namespace PineScript

namespace Token

/-- The code among some tokens. -/
def codeOf (ts : List Token) : List Token := ts.filter (!·.isLayout)

variable {t : Token} {ts us : List Token}

@[simp] theorem codeOf_nil : codeOf [] = [] := rfl

@[simp] theorem codeOf_append : codeOf (ts ++ us) = codeOf ts ++ codeOf us :=
  List.filter_append ts us

theorem codeOf_cons_of_code (h : t.isLayout = false) : codeOf (t :: ts) = t :: codeOf ts := by
  simp [codeOf, h]

theorem codeOf_cons_of_layout (h : t.isLayout = true) : codeOf (t :: ts) = codeOf ts := by
  simp [codeOf, h]

theorem codeOf_of_layout (h : ∀ t ∈ ts, t.isLayout = true) : codeOf ts = [] := by
  simpa [codeOf, List.filter_eq_nil_iff] using h

theorem codeOf_of_code (h : ∀ t ∈ ts, t.isLayout = false) : codeOf ts = ts := by
  simpa [codeOf, List.filter_eq_self] using h

theorem mem_codeOf : t ∈ codeOf ts ↔ t ∈ ts ∧ t.isLayout = false := by
  simp [codeOf]

theorem codeOf_codeOf : codeOf (codeOf ts) = codeOf ts :=
  codeOf_of_code fun _ ht => (mem_codeOf.1 ht).2

theorem codeOf_dropWhile_isLayout (ts : List Token) : codeOf (ts.dropWhile isLayout) = codeOf ts := by
  induction ts with
  | nil => rfl
  | cons t ts ih =>
    cases h : t.isLayout with
    | true => rw [List.dropWhile_cons_of_pos h, ih, codeOf_cons_of_layout h]
    | false => rw [List.dropWhile_cons_of_neg (by simp [h])]

end Token

namespace Parser

open Token (codeOf codeOf_append codeOf_cons_of_code codeOf_of_layout)

variable {ctx : Context} {t : Token} {ts us vs mid rest : List Token}

/-- The tokens in front of `rest` are the code `us` with layout among it, and end with code. -/
def Spans (ts us rest : List Token) : Prop :=
  ∃ front, ts = front ++ rest ∧ codeOf front = us ∧ ∀ t ∈ front.getLast?, t.isLayout = false

namespace Spans

theorem refl (ts : List Token) : Spans ts [] ts := ⟨[], rfl, rfl, by simp⟩

theorem trans (h : Spans ts us mid) (h' : Spans mid vs rest) : Spans ts (us ++ vs) rest := by
  obtain ⟨front, rfl, rfl, hfront⟩ := h
  obtain ⟨more, rfl, rfl, hmore⟩ := h'
  refine ⟨front ++ more, (List.append_assoc ..).symm, codeOf_append, ?_⟩
  cases hlast : more.getLast? with
  | none =>
    rw [List.getLast?_eq_none_iff.1 hlast, List.append_nil]
    exact hfront
  | some last =>
    rw [List.getLast?_append, hlast]
    exact fun t ht => hmore t (hlast.trans ht)

theorem suffix (h : Spans ts us rest) : rest <:+ ts := by
  obtain ⟨front, rfl, -, -⟩ := h
  exact List.suffix_append front rest

theorem length_lt (h : Spans ts us rest) (hne : us ≠ []) : rest.length < ts.length := by
  obtain ⟨front, rfl, rfl, -⟩ := h
  have hpos : 0 < front.length := by
    refine List.length_pos_iff.2 ?_
    rintro rfl
    exact hne rfl
  rw [List.length_append]
  omega

/-- Layout in front of code is passed over. -/
theorem behind_layout {layout : List Token} (hlayout : ∀ t ∈ layout, t.isLayout = true)
    (h : Spans ts us rest) (hne : us ≠ []) : Spans (layout ++ ts) us rest := by
  obtain ⟨front, rfl, rfl, hfront⟩ := h
  refine ⟨layout ++ front, (List.append_assoc ..).symm, ?_, ?_⟩
  · rw [codeOf_append, codeOf_of_layout hlayout, List.nil_append]
  · cases hlast : front.getLast? with
    | none =>
      rw [List.getLast?_eq_none_iff.1 hlast] at hne
      exact absurd rfl hne
    | some last =>
      rw [List.getLast?_append, hlast]
      exact fun t ht => hfront t (hlast.trans ht)

theorem of_dropWhile {p : Token → Bool} (hp : ∀ t, p t = true → t.isLayout = true)
    (h : Spans (ts.dropWhile p) us rest) (hne : us ≠ []) : Spans ts us rest := by
  rw [← List.takeWhile_append_dropWhile (p := p) (l := ts)]
  exact h.behind_layout (fun t ht => hp t (List.mem_takeWhile_imp ht)) hne

theorem cons (h : t.isLayout = false) : Spans (t :: rest) [t] rest :=
  ⟨[t], rfl, codeOf_cons_of_code h, by simpa using h⟩

end Spans

/-- A token that is seen and does not end a line is code. -/
theorem isLayout_lookahead (h : (ctx.lookahead 0 ts).isLineEnd = false) :
    (ctx.lookahead 0 ts).isLayout = false := by
  rw [ctx.lookahead_zero] at h ⊢
  cases hdrop : ts.dropWhile ctx.skips with
  | nil => rfl
  | cons t more =>
    have hseen := List.head?_dropWhile_not ctx.skips ts
    rw [hdrop] at h hseen
    have hskips : ctx.skips t = false := by simpa using hseen
    change t.isLineEnd = false at h
    change t.isLayout = false
    grind

/-- The next token that is seen is taken, unless it ends the line. -/
theorem Spans.take (h : (ctx.lookahead 0 ts).isLineEnd = false) :
    Spans ts [ctx.lookahead 0 ts] (ts.dropWhile ctx.skips).tail := by
  have hcode := isLayout_lookahead h
  refine Spans.of_dropWhile (p := ctx.skips) (fun t => isLayout_of_skips) ?_ (List.cons_ne_nil _ _)
  rw [ctx.lookahead_zero] at h hcode ⊢
  cases hdrop : ts.dropWhile ctx.skips with
  | nil =>
    rw [hdrop] at h
    cases h
  | cons t more =>
    rw [hdrop] at hcode
    exact .cons hcode

/-- Tokens as they are scanned. -/
def Scans (ts : List Token) : Prop := ∀ t ∈ ts, t.Scanned

theorem Scans.suffix (h : Scans ts) (hrest : rest <:+ ts) : Scans rest :=
  fun t ht => h t (hrest.mem ht)

theorem Scans.behind (h : Scans ts) (hspans : Spans ts us rest) : Scans rest := h.suffix hspans.suffix

theorem Scans.dropWhile (h : Scans ts) (p : Token → Bool) : Scans (ts.dropWhile p) :=
  h.suffix (List.dropWhile_suffix p)

theorem Scans.lookahead (h : Scans ts) (hline : (ctx.lookahead 0 ts).isLineEnd = false) :
    (ctx.lookahead 0 ts).Scanned := by
  obtain ⟨front, hts, hcode, -⟩ := Spans.take hline
  have hmem : ctx.lookahead 0 ts ∈ codeOf front := hcode ▸ List.mem_cons_self
  have hfront : front <+: ts := ⟨_, hts.symm⟩
  exact h _ (hfront.mem (Token.mem_codeOf.1 hmem).1)

/-- A line is joined only by going onto a token that carries the expression on. -/
theorem joinLine_cases (spellings : List String) (ctx : Context) (ts : List Token) :
    joinLine spellings ctx ts = .ok () ts ∨
      ∃ margin t more, ctx.margin = some margin ∧ ctx.bracketed = false ∧
        ts.dropWhile Token.isLayout = t :: more ∧ carriesOn margin spellings t = true ∧
        joinLine spellings ctx ts = .ok () (t :: more) := by
  cases hmargin : ctx.margin with
  | none => exact .inl (joinLine_of_margin_none hmargin)
  | some margin =>
    unfold joinLine
    rw [hmargin]
    dsimp only
    split
    · exact .inl rfl
    · rename_i hline
      split
      · exact .inl rfl
      · rename_i t more hdrop
        split
        · rename_i hcarries
          have hopen : ctx.bracketed = false := by
            cases hb : ctx.bracketed with
            | false => rfl
            | true => simp [hb] at hline
          exact .inr ⟨margin, t, more, rfl, hopen, hdrop, hcarries, rfl⟩
        · exact .inl rfl

theorem carriesOn_iff {margin : Int} {spellings : List String} :
    carriesOn margin spellings t = true ↔
      (∃ indent, t.indent = some indent ∧ margin < indent) ∧
        (t.kind = .operator ∨ t.kind = .keyword) ∧ t.text ∈ spellings := by
  cases hindent : t.indent with
  | none => simp [carriesOn, hindent]
  | some indent => simp [carriesOn, hindent, and_assoc]

end Parser

end PineScript
