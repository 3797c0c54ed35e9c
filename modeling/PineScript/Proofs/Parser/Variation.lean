import PineScript.Proofs.Parser.Seen
import PineScript.Proofs.Parser.Spans

/-!
# Variations of an input

Some changes of the input are noticed by no reader, or only by one that goes too far. Layout may be
added: a comment at the end of a line, a blank line between two lines. Line breaks may stand
elsewhere. Further lines may be put behind the tokens, if they begin a statement of their own. And
the lines from some line break on may be exchanged for others with the same code.
-/

namespace PineScript

open Token (codeOf)

/-- The same token in another place. -/
def Token.moveTo (t : Token) (r : Range) : Token := { t with range := r }

/-! ## Ways to end -/

/-- What may be put behind the tokens of a script: a line break and further lines, which begin a
statement of their own. -/
structure Sequel where
  lineBreak : Token
  tokens : List Token
  /-- Where the input ends then. -/
  finish : Position
  isBreak : lineBreak.kind = .newline
  fresh : ∀ t more, tokens.dropWhile Token.isLayout = t :: more →
    t.indent = some 0 ∧ t.isKeyword "else" = false

namespace Sequel

variable (s : Sequel)

def tail : List Token := s.lineBreak :: s.tokens

theorem isLayout_lineBreak : s.lineBreak.isLayout = true :=
  Token.isLayout_iff.2 (.inl s.isBreak)

theorem dropWhile_tail : s.tail.dropWhile Token.isLayout = s.tokens.dropWhile Token.isLayout :=
  List.dropWhile_cons_of_pos s.isLayout_lineBreak

end Sequel

/-- Two ways to go on behind a line break. Both begin with the same token, have the same code and
close the same brackets. -/
structure Exchange where
  lineBreak : Token
  gap : List Token
  first : Token
  old : List Token
  new : List Token
  isBreak : lineBreak.kind = .newline
  isGap : ∀ t ∈ gap, t.isLayout = true
  isCode : first.isLayout = false
  sameCode : codeOf new = codeOf old
  sameClosing : ∀ depth, Parser.behindClosing (depth + 1) (first :: new) =
    Parser.behindClosing (depth + 1) (first :: old)

/-- A line that stays as it is. -/
instance : Inhabited Exchange :=
  ⟨⟨⟨.newline, "", default, none⟩, [], ⟨.identifier, "", default, none⟩, [], [], rfl, by simp, rfl, rfl,
    fun _ => rfl⟩⟩

namespace Exchange

variable (E : Exchange)

def before : List Token := E.lineBreak :: (E.gap ++ E.first :: E.old)

def after : List Token := E.lineBreak :: (E.gap ++ E.first :: E.new)

theorem isLayout_lineBreak : E.lineBreak.isLayout = true := Token.isLayout_iff.2 (.inl E.isBreak)

theorem isLayout_gap : ∀ t ∈ E.lineBreak :: E.gap, t.isLayout = true :=
  List.forall_mem_cons.2 ⟨E.isLayout_lineBreak, E.isGap⟩

theorem dropWhile_isLayout (more : List Token) :
    (E.lineBreak :: (E.gap ++ E.first :: more)).dropWhile Token.isLayout = E.first :: more := by
  rw [← List.cons_append, List.dropWhile_append_of_pos E.isLayout_gap,
    List.dropWhile_cons_of_neg (by simp [E.isCode])]

theorem codeOf_behind (more : List Token) :
    codeOf (E.lineBreak :: (E.gap ++ E.first :: more)) = E.first :: codeOf more := by
  rw [← Token.codeOf_dropWhile_isLayout, E.dropWhile_isLayout, Token.codeOf_cons_of_code E.isCode]

end Exchange

/-- How the tokens end in another way. -/
inductive Ending
  /-- They end as before. -/
  | same
  | sequel (s : Sequel)
  | exchange (E : Exchange)

namespace Ending

def old : Ending → List Token
  | same | sequel _ => []
  | exchange E => E.before

def new : Ending → List Token
  | same => []
  | sequel s => s.tail
  | exchange E => E.after

/-- Whether faults are the same, too. With more behind them they need not be. -/
def heeds : Ending → Bool
  | sequel _ => false
  | same | exchange _ => true

/-- Nothing is there, or more follows and begins a statement of its own. -/
def Fresh (e : Ending) (ts : List Token) : Prop :=
  ∀ t more, ts = t :: more → e.heeds = false ∧ t.indent = some 0 ∧ t.isKeyword "else" = false

variable (e : Ending)

theorem newline_of_old : ∀ t ∈ e.old.head?, t.kind = .newline := by
  cases e with
  | same | sequel => simp [old]
  | exchange E => simp [old, Exchange.before, E.isBreak]

theorem newline_of_new : ∀ t ∈ e.new.head?, t.kind = .newline := by
  cases e with
  | same => simp [new]
  | sequel s => simp [new, Sequel.tail, s.isBreak]
  | exchange E => simp [new, Exchange.after, E.isBreak]

variable {e}

theorem head?_new (h : e.heeds = true) : e.new.head? = e.old.head? := by
  cases e with
  | sequel => cases h
  | same | exchange => rfl

theorem old_eq_nil (h : e.heeds = false) : e.old = [] := by
  cases e with
  | sequel => rfl
  | same | exchange => cases h

theorem new_eq_nil (h : e.heeds = true) (hold : e.old = []) : e.new = [] := by
  rw [← List.head?_eq_none_iff, head?_new h, hold]
  rfl

theorem codeOf_new (h : e.heeds = true) : codeOf e.new = codeOf e.old := by
  cases e with
  | sequel => cases h
  | same => rfl
  | exchange E => exact (E.codeOf_behind E.new).trans (E.sameCode ▸ (E.codeOf_behind E.old).symm)

theorem Fresh.eq_nil {ts : List Token} (h : e.Fresh ts) (hheeds : e.heeds = true) : ts = [] := by
  cases ts with
  | nil => rfl
  | cons t more => exact absurd (h t more rfl).1 (by simp [hheeds])

variable (e)

/-- Behind layout there is nothing that was there before, or else the same token of code. -/
theorem behind_layout :
    (e.old.dropWhile Token.isLayout = [] ∧ e.Fresh (e.new.dropWhile Token.isLayout)) ∨
      ∃ t more more', e.old.dropWhile Token.isLayout = t :: more ∧
        e.new.dropWhile Token.isLayout = t :: more' ∧ (t :: more).length < e.old.length := by
  cases e with
  | same => exact .inl ⟨rfl, nofun⟩
  | sequel s => exact .inl ⟨rfl, fun t more h => ⟨rfl, s.fresh t more (s.dropWhile_tail ▸ h)⟩⟩
  | exchange E =>
    refine .inr ⟨E.first, E.old, E.new, E.dropWhile_isLayout _, E.dropWhile_isLayout _, ?_⟩
    exact Nat.lt_succ_of_le (List.suffix_append E.gap _).length_le

end Ending

/-! ## Tokens that vary -/

structure Variation where
  ending : Ending
  /-- Where a line break or the end of the input may stand instead. -/
  near : Range → Range → Prop
  near_refl : ∀ r, near r r
  /-- Where the input ends instead. -/
  finish : Position → Position
  near_finish : ending.heeds = true → ∀ p, near (.point p) (.point (finish p))

/-- Nothing varies. -/
def Variation.still : Variation := ⟨.same, Eq, fun _ => rfl, id, fun _ _ => rfl⟩

def Variation.context (V : Variation) (ctx : Context) : Context :=
  { ctx with finish := V.finish ctx.finish }

/-- Tokens, and what stands instead. Layout is added only where the tokens end as before. -/
inductive Varied (V : Variation) : List Token → List Token → Prop
  | ends {ts ts' : List Token} : ts = V.ending.old → ts' = V.ending.new → Varied V ts ts'
  | keep {t : Token} {ts ts' : List Token} : t.kind ≠ .newline → Varied V ts ts' →
      Varied V (t :: ts) (t :: ts')
  | newline {t : Token} {r : Range} {ts ts' : List Token} : t.kind = .newline → V.near t.range r →
      Varied V ts ts' → Varied V (t :: ts) (t.moveTo r :: ts')
  | comment {c : Token} {ts ts' : List Token} : V.ending = .same → c.kind = .comment →
      c.indent = none → (∀ t ∈ ts.head?, t.kind = .newline) → Varied V ts ts' → Varied V ts (c :: ts')
  | blank {t b : Token} {r : Range} {ts ts' : List Token} : V.ending = .same → t.kind = .newline →
      V.near t.range r → b.kind = .newline → Varied V ts ts' →
      Varied V (t :: ts) (t.moveTo r :: b :: ts')

/-- What was read counts as long as it leaves the old end, and code where further lines would go on
inside a bracket. -/
def Variation.Kept (V : Variation) (bracketed : Bool) (rest : List Token) : Prop :=
  V.ending.old.length ≤ rest.length ∧
    (V.ending.heeds = true ∨ bracketed = false ∨ ∃ t ∈ rest, t.isLayout = false)

variable {V : Variation} {ts ts' rest : List Token} {ctx : Context} {n : Nat}

theorem Variation.Kept.of_suffix {b : Bool} (h : V.Kept b rest) (hrest : rest <:+ ts) :
    V.Kept b ts :=
  ⟨Nat.le_trans h.1 hrest.length_le, h.2.imp_right (.imp_right fun ⟨t, ht, hcode⟩ =>
    ⟨t, hrest.mem ht, hcode⟩)⟩

/-! ## Passing over layout -/

/-- Passes over comments, and over all line breaks or none. -/
structure Token.Passes (p : Token → Bool) : Prop where
  comment : ∀ t : Token, t.kind = .comment → p t = true
  newline : ∀ t t' : Token, t.kind = .newline → t'.kind = .newline → p t' = p t

theorem Token.passes_isLayout : Token.Passes Token.isLayout :=
  ⟨by grind, by grind⟩

theorem Context.passes_skips (ctx : Context) : Token.Passes ctx.skips := by
  refine ⟨by grind, fun t t' ht ht' => ?_⟩
  rw [skips, skips, ht, ht']

/-- Inside brackets all layout is skipped. -/
theorem Context.skips_of_bracketed (h : ctx.bracketed = true) : ctx.skips = Token.isLayout := by
  funext t
  grind

/-- Outside brackets a line break is seen. -/
theorem Context.dropWhile_skips (h : ctx.bracketed = false)
    (hts : ∀ t ∈ ts.head?, t.kind = .newline) : ts.dropWhile ctx.skips = ts := by
  cases ts with
  | nil => rfl
  | cons t ts =>
    have ht := hts t rfl
    exact List.dropWhile_cons_of_neg (by grind)

/-- What the tokens begin with where no layout is passed over any more. -/
inductive Varied.Front (V : Variation) (p : Token → Bool) : List Token → List Token → Prop
  | ends : Front V p (V.ending.old.dropWhile p) (V.ending.new.dropWhile p)
  | code {t : Token} {more more' : List Token} : t.kind ≠ .newline → Varied V more more' →
      Front V p (t :: more) (t :: more')
  | newline {t : Token} {r : Range} {more more' : List Token} : t.kind = .newline →
      V.near t.range r → Varied V (t :: more) (t.moveTo r :: more') →
      Front V p (t :: more) (t.moveTo r :: more')

namespace Varied

theorem append_left (h : Varied V ts ts') (front : List Token) :
    Varied V (front ++ ts) (front ++ ts') := by
  induction front with
  | nil => exact h
  | cons t front ih =>
    by_cases ht : t.kind = .newline
    · exact .newline ht (V.near_refl t.range) ih
    · exact .keep ht ih

theorem front {p : Token → Bool} (hp : Token.Passes p) (h : Varied V ts ts') :
    Front V p (ts.dropWhile p) (ts'.dropWhile p) := by
  induction h with
  | ends hold hnew => exact hold ▸ hnew ▸ .ends
  | @keep t ts ts' ht hmore ih =>
    cases hpt : p t with
    | true => rwa [List.dropWhile_cons_of_pos hpt, List.dropWhile_cons_of_pos hpt]
    | false =>
      rw [List.dropWhile_cons_of_neg (by simp [hpt]), List.dropWhile_cons_of_neg (by simp [hpt])]
      exact .code ht hmore
  | comment _ hc _ _ _ ih => rwa [List.dropWhile_cons_of_pos (hp.comment _ hc)]
  | @newline t r ts ts' ht hnear hmore ih =>
    have hsame : p (t.moveTo r) = p t := hp.newline t (t.moveTo r) ht ht
    cases hpt : p t with
    | true =>
      rwa [List.dropWhile_cons_of_pos hpt, List.dropWhile_cons_of_pos (hsame.trans hpt)]
    | false =>
      rw [List.dropWhile_cons_of_neg (by simp [hpt]),
        List.dropWhile_cons_of_neg (by simp [hsame, hpt])]
      exact .newline ht hnear (.newline ht hnear hmore)
  | @blank t b r ts ts' hend ht hnear hb hmore ih =>
    have hsame : p (t.moveTo r) = p t := hp.newline t (t.moveTo r) ht ht
    cases hpt : p t with
    | true =>
      rwa [List.dropWhile_cons_of_pos hpt, List.dropWhile_cons_of_pos (hsame.trans hpt),
        List.dropWhile_cons_of_pos ((hp.newline t b ht hb).trans hpt)]
    | false =>
      rw [List.dropWhile_cons_of_neg (by simp [hpt]),
        List.dropWhile_cons_of_neg (by simp [hsame, hpt])]
      exact .newline ht hnear (.blank hend ht hnear hb hmore)

/-- Behind all layout the same code stands, unless the tokens are at their end. -/
theorem behind_layout (h : Varied V ts ts') :
    (ts.dropWhile Token.isLayout = [] ∧ V.ending.Fresh (ts'.dropWhile Token.isLayout)) ∨
      ∃ t more more', ts.dropWhile Token.isLayout = t :: more ∧
        ts'.dropWhile Token.isLayout = t :: more' ∧ t.isLayout = false ∧
        (Varied V more more' ∨ (t :: more).length < V.ending.old.length) := by
  have hfront := h.front Token.passes_isLayout
  have hcode {t more} (hts : ts.dropWhile Token.isLayout = t :: more) : t.isLayout = false :=
    Token.isLayout_of_dropWhile hts
  generalize ts.dropWhile Token.isLayout = us at hfront hcode
  generalize ts'.dropWhile Token.isLayout = us' at hfront
  cases hfront with
  | ends =>
    rcases V.ending.behind_layout with hnil | ⟨t, more, more', hold, hnew, hlen⟩
    · exact .inl hnil
    · exact .inr ⟨t, more, more', hold, hnew, hcode hold, .inr hlen⟩
  | @code t more more' _ hmore => exact .inr ⟨t, more, more', rfl, rfl, hcode rfl, .inl hmore⟩
  | newline ht _ _ => exact absurd (hcode rfl) (by simp [Token.isLayout_iff.2 (.inl ht)])

/-- The same code stands in front of the end. -/
theorem code (h : Varied V ts ts') :
    ∃ us, codeOf ts = us ++ codeOf V.ending.old ∧ codeOf ts' = us ++ codeOf V.ending.new := by
  have hlayout {t : Token} {ts : List Token} (ht : t.kind = .newline ∨ t.kind = .comment) :
      codeOf (t :: ts) = codeOf ts := Token.codeOf_cons_of_layout (Token.isLayout_iff.2 ht)
  induction h with
  | ends hold hnew => exact ⟨[], by rw [hold]; rfl, by rw [hnew]; rfl⟩
  | @keep t ts ts' ht _ ih =>
    obtain ⟨us, hold, hnew⟩ := ih
    cases hcode : t.isLayout with
    | true =>
      rw [Token.codeOf_cons_of_layout hcode, Token.codeOf_cons_of_layout hcode]
      exact ⟨us, hold, hnew⟩
    | false =>
      rw [Token.codeOf_cons_of_code hcode, Token.codeOf_cons_of_code hcode, hold, hnew]
      exact ⟨t :: us, rfl, rfl⟩
  | comment _ hc _ _ _ ih => rwa [hlayout (.inr hc)]
  | @newline t r ts ts' ht _ _ ih => rwa [hlayout (.inl ht), @hlayout (t.moveTo r) _ (.inl ht)]
  | @blank t b r ts ts' _ ht _ hb _ ih =>
    rwa [hlayout (.inl ht), @hlayout (t.moveTo r) _ (.inl ht), hlayout (.inl hb)]

/-- Where nothing but the end varies, it is exchanged. -/
theorem exists_front (hnear : ∀ r r', V.near r r' → r = r') (hend : V.ending ≠ .same)
    (h : Varied V ts ts') : ∃ us, ts = us ++ V.ending.old ∧ ts' = us ++ V.ending.new := by
  induction h with
  | ends hold hnew => exact ⟨[], hold, hnew⟩
  | @keep t _ _ _ _ ih =>
    obtain ⟨us, hold, hnew⟩ := ih
    exact ⟨t :: us, by rw [hold]; rfl, by rw [hnew]; rfl⟩
  | @newline t r _ _ _ hr _ ih =>
    obtain ⟨us, hold, hnew⟩ := ih
    obtain rfl := hnear _ _ hr
    exact ⟨t :: us, by rw [hold]; rfl, by rw [hnew]; rfl⟩
  | comment hsame | blank hsame => exact absurd hsame hend

theorem codeOf_eq (hheeds : V.ending.heeds = true) (h : Varied V ts ts') :
    codeOf ts' = codeOf ts := by
  obtain ⟨us, hold, hnew⟩ := h.code
  rw [hold, hnew, Ending.codeOf_new hheeds]

end Varied

/-! ## Seeing and taking tokens -/

/-- Tokens that differ at most in their places, and only if they end a line. -/
def Token.Like (V : Variation) (t t' : Token) : Prop :=
  ∃ r, t' = t.moveTo r ∧ V.near t.range r ∧ (t.isLineEnd = false → r = t.range)

namespace Token.Like

variable {t t' : Token}

theorem refl (t : Token) : Token.Like V t t := ⟨t.range, rfl, V.near_refl _, fun _ => rfl⟩

theorem eq (h : Token.Like V t t') (ht : t.isLineEnd = false) : t' = t := by
  obtain ⟨r, rfl, -, hr⟩ := h
  rw [hr ht]
  rfl

theorem isLineEnd (h : Token.Like V t t') : t'.isLineEnd = t.isLineEnd := by
  obtain ⟨r, rfl, -, -⟩ := h
  rfl

theorem endToken (hheeds : V.ending.heeds = true) (ctx : Context) :
    Token.Like V ctx.endToken (V.context ctx).endToken :=
  ⟨.point (V.finish ctx.finish), rfl, V.near_finish hheeds _, nofun⟩

end Token.Like

namespace Varied

/-- The next token looks the same, unless further lines follow where the tokens ended. -/
theorem lookahead_zero (ctx : Context) (h : Varied V ts ts') :
    Token.Like V (ctx.lookahead 0 ts) ((V.context ctx).lookahead 0 ts') ∨
      V.ending.heeds = false ∧ ts.dropWhile ctx.skips = [] ∧
        (ctx.bracketed = false → ((V.context ctx).lookahead 0 ts').isLineEnd = true) := by
  have hskips : (V.context ctx).skips = ctx.skips := rfl
  have hfront := h.front ctx.passes_skips
  rw [ctx.lookahead_zero, (V.context ctx).lookahead_zero, hskips]
  generalize ts.dropWhile ctx.skips = us at hfront
  generalize ts'.dropWhile ctx.skips = us' at hfront
  cases hfront with
  | code => exact .inl (.refl _)
  | newline ht hnear _ =>
    refine .inl ⟨_, rfl, hnear, fun hend => ?_⟩
    rw [List.head?_cons, Option.getD_some, Token.isLineEnd_iff.2 (.inl ht)] at hend
    cases hend
  | ends =>
    cases hctx : ctx.bracketed with
    | true =>
      rw [Context.skips_of_bracketed hctx]
      rcases V.ending.behind_layout with ⟨hold, hfresh⟩ | ⟨t, more, more', hold, hnew, -⟩
      · rw [hold]
        cases hheeds : V.ending.heeds with
        | false => exact .inr ⟨rfl, rfl, nofun⟩
        | true =>
          rw [hfresh.eq_nil hheeds]
          exact .inl (.endToken hheeds ctx)
      · rw [hold, hnew]
        exact .inl (.refl _)
    | false =>
      rw [Context.dropWhile_skips hctx V.ending.newline_of_old,
        Context.dropWhile_skips hctx V.ending.newline_of_new]
      cases hheeds : V.ending.heeds with
      | true =>
        rw [Ending.head?_new hheeds]
        cases V.ending.old.head? with
        | none => exact .inl (.endToken hheeds ctx)
        | some t => exact .inl (.refl t)
      | false =>
        refine .inr ⟨rfl, Ending.old_eq_nil hheeds, fun _ => ?_⟩
        cases hnew : V.ending.new.head? with
        | none => rfl
        | some t => exact Token.isLineEnd_iff.2 (.inl (V.ending.newline_of_new t hnew))

/-- Code is taken as it stands. What is left varies as before, or the end has been taken from. -/
theorem advance (h : Varied V ts ts') (hreal : (ctx.lookahead 0 ts).isLineEnd = false) :
    (V.context ctx).lookahead 0 ts' = ctx.lookahead 0 ts ∧
      (Varied V (ts.dropWhile ctx.skips).tail (ts'.dropWhile ctx.skips).tail ∨
        ctx.bracketed = true ∧ (ts.dropWhile ctx.skips).tail.length < V.ending.old.length) := by
  refine ⟨?_, ?_⟩
  · rcases h.lookahead_zero ctx with hlike | ⟨-, hnil, -⟩
    · exact hlike.eq hreal
    · rw [ctx.lookahead_zero, hnil] at hreal
      cases hreal
  have hfront := h.front ctx.passes_skips
  rw [ctx.lookahead_zero] at hreal
  generalize ts.dropWhile ctx.skips = us at hfront hreal
  generalize ts'.dropWhile ctx.skips = us' at hfront
  cases hfront with
  | code _ hmore => exact .inl hmore
  | newline ht _ _ =>
    rw [List.head?_cons, Option.getD_some, Token.isLineEnd_iff.2 (.inl ht)] at hreal
    cases hreal
  | ends =>
    cases hctx : ctx.bracketed with
    | true =>
      rw [Context.skips_of_bracketed hctx] at hreal ⊢
      rcases V.ending.behind_layout with ⟨hold, -⟩ | ⟨t, more, more', hold, hnew, hlen⟩
      · rw [hold] at hreal
        cases hreal
      · rw [hold, List.tail_cons]
        exact .inr ⟨rfl, Nat.lt_of_succ_lt hlen⟩
    | false =>
      rw [Context.dropWhile_skips hctx V.ending.newline_of_old] at hreal
      cases hold : V.ending.old.head? with
      | none =>
        rw [hold] at hreal
        cases hreal
      | some t =>
        have hline := Token.isLineEnd_iff.2 (.inl (V.ending.newline_of_old t hold))
        rw [hold, Option.getD_some, hline] at hreal
        cases hreal

/-- Outside brackets the tokens up to the end of a line look the same. -/
theorem lookahead_outside (hctx : ctx.bracketed = false) (h : Varied V ts ts')
    (hbefore : ∀ m < n, (ctx.lookahead m ts).isLineEnd = false) :
    (V.context ctx).lookahead n ts' = ctx.lookahead n ts ∨
      (ctx.lookahead n ts).isLineEnd = true ∧
        ((V.context ctx).lookahead n ts').isLineEnd = true := by
  induction n generalizing ts ts' with
  | zero =>
    rcases h.lookahead_zero ctx with hlike | ⟨-, hnil, hend⟩
    · cases hline : (ctx.lookahead 0 ts).isLineEnd with
      | false => exact .inl (hlike.eq hline)
      | true => exact .inr ⟨rfl, hlike.isLineEnd.trans hline⟩
    · refine .inr ⟨?_, hend hctx⟩
      rw [ctx.lookahead_zero, hnil]
      rfl
  | succ n ih =>
    rw [Parser.lookahead_succ, Parser.lookahead_succ]
    rcases (h.advance (hbefore 0 (Nat.succ_pos n))).2 with hmore | ⟨hinside, -⟩
    · refine ih hmore fun m hm => ?_
      rw [← Parser.lookahead_succ]
      exact hbefore (m + 1) (Nat.succ_lt_succ hm)
    · rw [hctx] at hinside
      cases hinside

/-- Inside brackets only code is seen. -/
theorem lookahead_inside (hctx : ctx.bracketed = true) (h : Varied V ts ts')
    (hn : V.ending.heeds = true ∨ n < (ctx.seen ts).length) :
    (V.context ctx).lookahead n ts' = ctx.lookahead n ts ∨
      (ctx.lookahead n ts).isLineEnd = true ∧
        ((V.context ctx).lookahead n ts').isLineEnd = true := by
  have hseen : ctx.seen = codeOf := by
    funext us
    rw [Context.seen, Context.skips_of_bracketed hctx]
    rfl
  have hseen' : (V.context ctx).seen = codeOf := hseen
  obtain ⟨us, hold, hnew⟩ := h.code
  rw [hseen] at hn
  rw [ctx.lookahead_eq_seen, (V.context ctx).lookahead_eq_seen, hseen, hseen']
  rcases hn with hheeds | hlt
  · rw [h.codeOf_eq hheeds]
    cases (codeOf ts)[n]? with
    | none => exact .inr ⟨rfl, rfl⟩
    | some t => exact .inl rfl
  · -- Nothing is claimed of the faults, so that the tokens have no old end.
    cases hheeds : V.ending.heeds with
    | true =>
      rw [h.codeOf_eq hheeds, List.getElem?_eq_getElem hlt]
      exact .inl rfl
    | false =>
      rw [Ending.old_eq_nil hheeds, Token.codeOf_nil, List.append_nil] at hold
      rw [hold] at hlt
      rw [hnew, hold, List.getElem?_append_left hlt, List.getElem?_eq_getElem hlt]
      exact .inl rfl

theorem lookahead (h : Varied V ts ts')
    (hseen : V.ending.heeds = true ∨ ctx.bracketed = false ∨ n < (ctx.seen ts).length)
    (hbefore : ∀ m < n, (ctx.lookahead m ts).isLineEnd = false) :
    (V.context ctx).lookahead n ts' = ctx.lookahead n ts ∨
      (ctx.lookahead n ts).isLineEnd = true ∧
        ((V.context ctx).lookahead n ts').isLineEnd = true := by
  cases hctx : ctx.bracketed with
  | false => exact h.lookahead_outside hctx hbefore
  | true => exact h.lookahead_inside hctx (hseen.imp_right (·.resolve_left (by simp [hctx])))

end Varied

end PineScript
