import PineScript.Proofs.Grammar.Ending
import PineScript.Proofs.Grammar.Simple
import PineScript.Proofs.Parser.Withstands

/-!
# Lines as pieces of the input

The tokens of a script fall into pieces, one for each logical line, with layout between them. Readers
of statements are run on pieces: a piece that lies behind a line break may be laid out in another way
without any reader in front of it minding.
-/

namespace PineScript

open Token (codeOf codeOf_append codeOf_cons_of_code codeOf_cons_of_layout codeOf_codeOf)

/-! ## Brackets of code -/

namespace Grammar

open PineScript.Parser (behindClosing)

/-- Tokens and their code either close the same bracket or leave the same number of them open. -/
theorem behindClosing_codeOf (depth : Nat) (ts : List Token) :
    (∃ left left', ∀ rest, behindClosing (depth + 1) (ts ++ rest) = some (left ++ rest) ∧
      behindClosing (depth + 1) (codeOf ts ++ rest) = some (left' ++ rest)) ∨
    ∃ depth', ∀ rest, behindClosing (depth + 1) (ts ++ rest) = behindClosing (depth' + 1) rest ∧
      behindClosing (depth + 1) (codeOf ts ++ rest) = behindClosing (depth' + 1) rest := by
  induction ts generalizing depth with
  | nil => exact .inr ⟨depth, fun _ => ⟨rfl, rfl⟩⟩
  | cons t ts ih =>
    cases ht : t.isLayout with
    | true =>
      have hplain : Balanced [t] := .cons (.inl (by grind)) .nil
      have hskip : ∀ us, behindClosing (depth + 1) (t :: us) = behindClosing (depth + 1) us :=
        fun us => hplain depth us
      simp only [List.cons_append, hskip, codeOf_cons_of_layout ht]
      exact ih depth
    | false =>
      simp only [codeOf_cons_of_code ht, List.cons_append, behindClosing]
      split
      · exact ih (depth + 1)
      · split
        · cases depth with
          | zero => exact .inl ⟨ts, codeOf ts, fun _ => ⟨rfl, rfl⟩⟩
          | succ depth => simpa using ih depth
        · exact ih depth

/-- The brackets of tokens match if those of their code do. -/
theorem Balanced.of_codeOf {ts : List Token} (h : Balanced (codeOf ts)) : Balanced ts := by
  intro depth rest
  rcases behindClosing_codeOf depth ts with ⟨left, left', hclose⟩ | ⟨depth', hopen⟩
  · have hnone := (hclose []).2
    rw [h depth []] at hnone
    cases hnone
  · rw [(hopen rest).1, ← (hopen rest).2, h depth rest]

theorem Simple.balanced {value : List Token → Expr → Prop} {ts : List Token} {s : Stmt}
    (hvalue : ∀ ts e, value ts e → Balanced ts) (h : Simple value ts s) : Balanced ts := by
  have hkeyword : ∀ {t : Token} {word : String}, t.isKeyword word → t.kind ≠ .punctuation := by grind
  have hoperator : ∀ {t : Token} {text : String}, t.isOperator text → t.kind ≠ .punctuation := by grind
  have hname : ∀ {t : Token}, t.isIdentifier → t.kind ≠ .punctuation := by grind
  cases h with
  | expression he => exact hvalue _ _ he
  | declaration hms htys hfirst hx hq he =>
    refine .append ?_ (.append ?_ (.cons (.inl (hname hx)) (.cons (.inl (hoperator hq)) (hvalue _ _ he))))
    · cases hms with
      | none => exact .nil
      | some hm =>
        obtain ⟨t, rfl, ht⟩ := hm
        exact .cons (.inl (hkeyword ht)) .nil
    · cases htys with
      | none => exact .nil
      | some hty =>
        obtain ⟨t, rfl, ht, -⟩ := hty
        exact .cons (.inl (hname ht)) .nil
  | assignment hx hq he =>
    exact .cons (.inl (hname hx)) (.cons (.inl (hoperator hq)) (hvalue _ _ he))
  | jump ht => exact .cons (.inl (hkeyword ht)) .nil
  | returning ht he => exact .cons (.inl (hkeyword ht)) (hvalue _ _ he)

theorem Value.balanced {ts : List Token} {e : Expr} (h : Value ts e) : Balanced ts := by
  obtain ⟨n, he⟩ := h
  exact he.phrase.balanced

end Grammar

theorem Head.Spelled.balanced {head : Head} {ts : List Token} (h : head.Spelled ts)
    (hsimple : head.isSimple = true) : Grammar.Balanced ts := by
  cases h with
  | statement h =>
    cases h with
    | simple h => exact h.balanced fun _ _ => Grammar.Value.balanced
    | _ => cases hsimple
  | elseIf => cases hsimple
  | «else» => cases hsimple

theorem Grammar.Value.ne_nil {ts : List Token} {e : Expr} (h : Value ts e) : ts ≠ [] := by
  obtain ⟨n, he⟩ := h
  obtain ⟨t, more, rfl, -⟩ := he.phrase.opens
  exact List.cons_ne_nil t more

theorem Head.Spelled.ne_nil {head : Head} {ts : List Token} (h : head.Spelled ts) : ts ≠ [] := by
  cases h with
  | statement h =>
    cases h with
    | simple h =>
      cases h with
      | expression he => exact he.ne_nil
      | _ => simp
    | malformed hfirst _ =>
      rintro rfl
      cases hfirst
    | _ => simp
  | _ => simp

/-! ## Pieces -/

/-- The tokens of a line, from its first to its last code, and those behind it. -/
structure Piece where
  head : Head
  span : List Token
  stop : List Token

/-- The line begins with code, and its brackets match. -/
structure Piece.Solid (p : Piece) : Prop where
  opens : ∃ first more, p.span = first :: more ∧ first.isLayout = false
  balanced : Grammar.Balanced (codeOf p.span)

/-- The line with and without the layout in it, behind a line break. -/
theorem Piece.Solid.exchange {p : Piece} (h : p.Solid) {gap : List Token} {b : Token}
    (hb : b.kind = .newline) (hgap : ∀ t ∈ gap, t.isLayout = true) :
    ∃ E : Exchange, E.before = b :: (gap ++ (p.span ++ p.stop)) ∧
      E.after = b :: (gap ++ (codeOf p.span ++ p.stop)) := by
  have hsame : ∀ depth, Parser.behindClosing (depth + 1) (codeOf p.span ++ p.stop) =
      Parser.behindClosing (depth + 1) (p.span ++ p.stop) := by
    intro depth
    rw [h.balanced depth p.stop, h.balanced.of_codeOf depth p.stop]
  obtain ⟨first, more, hspan, hfirst⟩ := h.opens
  rw [hspan, codeOf_cons_of_code hfirst] at hsame ⊢
  refine ⟨⟨b, gap, first, more ++ p.stop, codeOf more ++ p.stop, hb, hgap, hfirst, ?_, hsame⟩, rfl, rfl⟩
  rw [codeOf_append, codeOf_append, codeOf_codeOf]

namespace Parser

variable {ts mid rest : List Token} {ps qs : List Piece} {p : Piece} {ctx : Context}

/-- From the first tokens to the rest there are these lines, each of which ends where it does. -/
inductive Runs : List Token → List Piece → List Token → Prop
  | done {gap rest : List Token} (hgap : ∀ t ∈ gap, t.isLayout = true)
      (hline : LineEnds (gap ++ rest) → LineEnds rest) : Runs (gap ++ rest) [] rest
  | piece {ts span stop rest : List Token} {last : Token} {head : Head} {ps : List Piece}
      (hstart : ts.dropWhile Token.isLayout = span ++ stop) (hlast : span.getLast? = some last)
      (hcode : last.isLayout = false) (hspelled : head.Spelled (codeOf span))
      (hline : LineEnds stop) (hmore : Runs stop ps rest) : Runs ts (⟨head, span, stop⟩ :: ps) rest

namespace Runs

theorem refl (ts : List Token) : Runs ts [] ts := @done [] ts (by simp) id

theorem behind_gap {gap : List Token} (hgap : ∀ t ∈ gap, t.isLayout = true)
    (hline : LineEnds (gap ++ ts) → LineEnds ts) (h : Runs ts ps rest) : Runs (gap ++ ts) ps rest := by
  cases h with
  | @done gap' rest hgap' hline' =>
    rw [← List.append_assoc] at hline ⊢
    refine .done (fun t ht => ?_) fun h => hline' (hline h)
    rcases List.mem_append.1 ht with ht | ht
    · exact hgap t ht
    · exact hgap' t ht
  | piece hstart hlast hcode hspelled hstop hmore =>
    refine .piece ?_ hlast hcode hspelled hstop hmore
    rwa [List.dropWhile_append_of_pos hgap]

theorem append (h : Runs ts ps mid) (h' : Runs mid qs rest) : Runs ts (ps ++ qs) rest := by
  induction h with
  | done hgap hline => exact h'.behind_gap hgap hline
  | piece hstart hlast hcode hspelled hline _ ih =>
    exact .piece hstart hlast hcode hspelled hline (ih h')

theorem lineEnds (h : Runs ts ps rest) (hts : LineEnds ts ∨ ps ≠ []) : LineEnds rest := by
  induction h with
  | done hgap hline => exact hline (hts.resolve_right (by simp))
  | piece _ _ _ _ hline _ ih => exact ih (.inl hline)

theorem suffix (h : Runs ts ps rest) : rest <:+ ts := by
  induction h with
  | done => exact List.suffix_append _ _
  | piece hstart _ _ _ _ _ ih =>
    exact ih.trans ((List.suffix_append _ _).trans (hstart ▸ List.dropWhile_suffix _))

/-- The code of the tokens is that of their lines. -/
theorem codeOf_eq (h : Runs ts ps rest) :
    codeOf ts = ps.flatMap (fun p => codeOf p.span) ++ codeOf rest := by
  induction h with
  | done hgap _ => rw [codeOf_append, Token.codeOf_of_layout hgap]; rfl
  | piece hstart _ _ _ _ _ ih =>
    rw [← Token.codeOf_dropWhile_isLayout, hstart, codeOf_append, ih, List.flatMap_cons,
      List.append_assoc]

/-- Layout in front of the first line makes no difference. -/
theorem of_dropWhile (h : Runs mid (p :: ps) rest)
    (hdrop : ts.dropWhile Token.isLayout = mid.dropWhile Token.isLayout) : Runs ts (p :: ps) rest := by
  cases h with
  | piece hstart hlast hcode hspelled hline hmore =>
    exact .piece (hdrop.trans hstart) hlast hcode hspelled hline hmore

theorem last (h : Runs ts ps rest) :
    ∀ p ∈ ps, ∃ t, p.span.getLast? = some t ∧ t.isLayout = false := by
  induction h with
  | done => simp
  | piece _ hlast hcode _ _ _ ih =>
    intro p hp
    rcases List.mem_cons.1 hp with rfl | hp
    · exact ⟨_, hlast, hcode⟩
    · exact ih p hp

theorem spelled (h : Runs ts ps rest) : ∀ p ∈ ps, p.head.Spelled (codeOf p.span) := by
  induction h with
  | done => simp
  | piece _ _ _ hspelled _ _ ih =>
    intro p hp
    rcases List.mem_cons.1 hp with rfl | hp
    · exact hspelled
    · exact ih p hp

/-- The tokens before and behind one of the lines are those of the lines before and behind it. -/
theorem at_piece {before after : List Piece} (h : Runs ts ps rest) (hps : ps = before ++ p :: after) :
    ∃ front, ts = front ++ (p.span ++ p.stop) ∧
      codeOf front = before.flatMap (fun q => codeOf q.span) ∧ LineEnds p.stop ∧
      Runs p.stop after rest := by
  induction h generalizing before with
  | done => simp at hps
  | @piece ts span stop rest last head ps hstart hlast hcode hspelled hstop hmore ih =>
    have hsplit : ts = ts.takeWhile Token.isLayout ++ (span ++ stop) := by
      rw [← hstart, List.takeWhile_append_dropWhile]
    have hlayout : codeOf (ts.takeWhile Token.isLayout) = [] :=
      Token.codeOf_of_layout fun _ => List.mem_takeWhile_imp
    cases before with
    | nil =>
      obtain ⟨rfl, rfl⟩ := List.cons.inj hps
      exact ⟨_, hsplit, hlayout, hstop, hmore⟩
    | cons q before =>
      obtain ⟨rfl, rfl⟩ := List.cons.inj hps
      obtain ⟨front, hfront, hbefore, hafter⟩ := ih rfl
      refine ⟨ts.takeWhile Token.isLayout ++ (span ++ front), ?_, ?_, hafter⟩
      · rw [hfront] at hsplit
        simpa using hsplit
      · rw [codeOf_append, codeOf_append, hlayout, hbefore, List.flatMap_cons, List.nil_append]

/-- Each line stands somewhere in the tokens. -/
theorem split (h : Runs ts ps rest) (hp : p ∈ ps) :
    rest <:+ p.stop ∧ ∃ front, ts = front ++ (p.span ++ p.stop) := by
  obtain ⟨before, after, hps⟩ := List.append_of_mem hp
  obtain ⟨front, hfront, -, -, hmore⟩ := h.at_piece hps
  exact ⟨hmore.suffix, front, hfront⟩

end Runs

/-- The line lies behind a line break, with only layout between. -/
def Behind (ts : List Token) (p : Piece) : Prop :=
  ∃ front b gap, b.kind = .newline ∧ (∀ t ∈ gap, t.isLayout = true) ∧
    ts = front ++ b :: (gap ++ (p.span ++ p.stop))

theorem Behind.of_suffix (h : Behind mid p) (hmid : mid <:+ ts) : Behind ts p := by
  obtain ⟨taken, rfl⟩ := hmid
  obtain ⟨front, b, gap, hb, hgap, rfl⟩ := h
  exact ⟨taken ++ front, b, gap, hb, hgap, (List.append_assoc ..).symm⟩

/-- Where a line ends, the next code lies behind a line break. -/
theorem exists_break {t : Token} {more : List Token} (hts : Scans ts) (hline : LineEnds ts)
    (hdrop : ts.dropWhile Token.isLayout = t :: more) :
    ∃ front b gap, b.kind = .newline ∧ (∀ u ∈ gap, u.isLayout = true) ∧
      ts = front ++ b :: (gap ++ t :: more) := by
  induction ts with
  | nil => cases hdrop
  | cons u us ih =>
    rcases hline.head with hu | hu
    · have hus : LineEnds us := by
        intro v vs heq
        exact hline v vs (by rwa [List.dropWhile_cons_of_pos (by simp [hu])])
      rw [List.dropWhile_cons_of_pos (by grind)] at hdrop
      obtain ⟨front, b, gap, hb, hgap, rfl⟩ := ih (hts.suffix (List.suffix_cons u us)) hus hdrop
      exact ⟨u :: front, b, gap, hb, hgap, rfl⟩
    · have hkind : u.kind = .newline := by
        have := (hts u List.mem_cons_self).ne_eof
        grind
      refine ⟨[], u, us.takeWhile Token.isLayout, hkind, fun v hv => List.mem_takeWhile_imp hv, ?_⟩
      rw [List.dropWhile_cons_of_pos (by grind)] at hdrop
      rw [List.nil_append, ← hdrop, List.takeWhile_append_dropWhile]

theorem Runs.behind (h : Runs ts ps rest) (hts : Scans ts) (hline : LineEnds ts) :
    ∀ p ∈ ps, Behind ts p := by
  induction h with
  | done => simp
  | @piece ts span stop rest last head ps hstart hlast hcode hspelled hstop hmore ih =>
    have hsuffix : stop <:+ ts :=
      (List.suffix_append span stop).trans (hstart ▸ List.dropWhile_suffix _)
    intro p hp
    rcases List.mem_cons.1 hp with rfl | hp
    · cases span with
      | nil => cases hlast
      | cons t more =>
        obtain ⟨front, b, gap, hb, hgap, heq⟩ := exists_break hts hline hstart
        exact ⟨front, b, gap, hb, hgap, heq⟩
    · exact (ih (hts.suffix hsuffix) hstop p hp).of_suffix hsuffix

/-! ## Lines laid out in another way -/

/-- The reader does the same if all layout is left out of the line. -/
def Replays {α : Type} (q : Parser α) (ctx : Context) (ts : List Token) (p : Piece) : Prop :=
  ∀ front, ts = front ++ (p.span ++ p.stop) → q ctx (front ++ (codeOf p.span ++ p.stop)) = q ctx ts

theorem Runs.solid (h : Runs ts ps rest) : ∀ p ∈ ps, p.head.isSimple = true → p.Solid := by
  induction h with
  | done => simp
  | @piece ts span stop rest last head ps hstart hlast hcode hspelled hstop hmore ih =>
    intro p hp hsimple
    rcases List.mem_cons.1 hp with rfl | hp
    · cases span with
      | nil => cases hlast
      | cons t more =>
        exact ⟨⟨t, more, rfl, Token.isLayout_of_dropWhile hstart⟩, hspelled.balanced hsimple⟩
    · exact ih p hp hsimple

namespace Replays

variable {α β : Type} {q : Parser α} {g : α → Parser β}

theorem first (h : Replays q ctx ts p) : Replays (q >>= g) ctx ts p := by
  intro front hts
  rw [bind_apply, bind_apply, h front hts]

/-- What is read in front of the line stays the same. -/
theorem behind {a : α} (hq : ∀ E, Withstands E q ctx ts) (hread : q ctx ts = .ok a mid)
    (hsolid : p.Solid) (hmid : Behind mid p) (hg : Replays (g a) ctx mid p) :
    Replays (q >>= g) ctx ts p := by
  intro front hts
  obtain ⟨left, b, gap, hb, hgap, hmid⟩ := hmid
  obtain ⟨E, hold, hnew⟩ := hsolid.exchange hb hgap
  rw [← hold] at hmid
  have hsuffix := (hq E).suffix
  rw [hread, Reply.rest, hmid] at hsuffix
  obtain ⟨taken, htaken⟩ := hsuffix
  rw [← List.append_assoc] at htaken
  -- The line stands in the tokens where it stands in those that are left.
  have hsplit : front ++ (p.span ++ p.stop) = taken ++ (left ++ b :: gap) ++ (p.span ++ p.stop) := by
    rw [← hts, ← htaken, hold]
    simp
  have hfront : front = taken ++ (left ++ b :: gap) := List.append_cancel_right hsplit
  have hline : front ++ (codeOf p.span ++ p.stop) = taken ++ left ++ E.after := by
    rw [hfront, hnew]
    simp
  have hfirst := (hq E).same (taken ++ left) left htaken.symm (by rw [hread]; exact hmid)
  have hmore := hg (left ++ b :: gap) (by rw [hmid, hold]; simp)
  have hrest : left ++ b :: gap ++ (codeOf p.span ++ p.stop) = left ++ E.after := by
    rw [hnew]
    simp
  rw [hread, ← hline] at hfirst
  rw [hrest] at hmore
  rw [bind_apply, bind_apply, hfirst, hread]
  exact hmore

end Replays

/-! ## Readers of lines -/

/-- What the reader takes are lines with these heads, and each simple one may be laid out anew. -/
structure Folded {α : Type} (q : Parser α) (ctx : Context) (ts : List Token) (heads : List Head)
    (rest : List Token) (ps : List Piece) : Prop where
  heads : ps.map Piece.head = heads
  runs : Runs ts ps rest
  replays : ∀ p ∈ ps, p.head.isSimple = true → Replays q ctx ts p

/-- All that the reader takes are the lines of what it gives. -/
def Folds {α : Type} (q : Parser α) (ctx : Context) (ts : List Token) (heads : α → List Head) : Prop :=
  ∀ v rest, q ctx ts = .ok v rest → ∃ ps, Folded q ctx ts (heads v) rest ps

/-- The reader first takes what is left of a line's code, and then the lines below it. -/
def Heads {α : Type} (q : Parser α) (ctx : Context) (ts : List Token)
    (spelled : α → List Token → Prop) (heads : α → List Head) : Prop :=
  ∀ v rest, q ctx ts = .ok v rest → ∃ us mid ps, Spans ts us mid ∧ spelled v us ∧ LineEnds mid ∧
    ps.map Piece.head = heads v ∧ Runs mid ps rest ∧
    ∀ p ∈ ps, p.head.isSimple = true → Behind mid p ∧ Replays q ctx ts p

section

variable {α β : Type} {q : Parser α} {g : α → Parser β} {a : α} {heads heads' : List Head}

theorem Folded.first (h : Folded q ctx ts heads rest ps) : Folded (q >>= g) ctx ts heads rest ps :=
  ⟨h.heads, h.runs, fun p hp hsimple => (h.replays p hp hsimple).first⟩

/-- Lines behind lines. -/
theorem Folded.append (h : Folded q ctx ts heads mid ps) (hmid : Scans mid) (hline : LineEnds mid)
    (hq : ∀ E, Withstands E q ctx ts) (hread : q ctx ts = .ok a mid)
    (hg : Folded (g a) ctx mid heads' rest qs) :
    Folded (q >>= g) ctx ts (heads ++ heads') rest (ps ++ qs) := by
  refine ⟨by rw [List.map_append, h.heads, hg.heads], h.runs.append hg.runs, fun p hp hsimple => ?_⟩
  rcases List.mem_append.1 hp with hp | hp
  · exact (h.replays p hp hsimple).first
  · have hbehind := hg.runs.behind hmid hline p hp
    exact .behind hq hread (hg.runs.solid p hp hsimple) hbehind (hg.replays p hp hsimple)

/-- The code that is taken is that of a line, with no layout around it. -/
theorem Spans.exists_span {us : List Token} (h : Spans ts us mid) (hne : us ≠ []) :
    ∃ span last, ts.dropWhile Token.isLayout = span ++ mid ∧ span.getLast? = some last ∧
      last.isLayout = false ∧ codeOf span = us := by
  obtain ⟨front, rfl, rfl, hlast⟩ := h
  have hsplit : front = front.takeWhile Token.isLayout ++ front.dropWhile Token.isLayout :=
    List.takeWhile_append_dropWhile.symm
  have hspan : front.dropWhile Token.isLayout ≠ [] := by
    intro hnil
    rw [← Token.codeOf_dropWhile_isLayout, hnil] at hne
    exact hne rfl
  obtain ⟨last, hspanlast⟩ : ∃ last, (front.dropWhile Token.isLayout).getLast? = some last :=
    ⟨_, List.getLast?_eq_some_getLast hspan⟩
  refine ⟨front.dropWhile Token.isLayout, last, ?_, hspanlast, hlast last ?_,
    Token.codeOf_dropWhile_isLayout front⟩
  · rw [List.dropWhile_append, if_neg (by simpa using hspan)]
  · rw [hsplit, List.getLast?_append, hspanlast]
    rfl

end

section

variable {α β : Type} {q : Parser α} {g : α → Parser β} {spelled : β → List Token → Prop}
  {heads : β → List Head}

/-- Code of the line is taken in front of what is left of it. -/
theorem Heads.step (hq : ∀ E, Withstands E q ctx ts)
    (h : wp q ctx ts (fun a mid => ∃ us, Spans ts us mid ∧
      Heads (g a) ctx mid (fun v vs => spelled v (us ++ vs)) heads) (fun _ _ => True)) :
    Heads (q >>= g) ctx ts spelled heads := by
  intro v rest hboth
  obtain ⟨a, mid, hread, hmore⟩ := exists_of_bind_ok hboth
  obtain ⟨us, hus, hnext⟩ := (wp_of_ok hread).1 h
  obtain ⟨vs, left, ps, hvs, hspelled, hline, hheads, hruns, hreplays⟩ := hnext v rest hmore
  refine ⟨us ++ vs, left, ps, hus.trans hvs, hspelled, hline, hheads, hruns, fun p hp hsimple => ?_⟩
  obtain ⟨hbehind, hreplay⟩ := hreplays p hp hsimple
  exact ⟨hbehind, .behind hq hread (hruns.solid p hp hsimple) (hbehind.of_suffix hvs.suffix) hreplay⟩

theorem Heads.peek {k : Token → Parser β}
    (h : Heads (k (ctx.lookahead 0 ts)) ctx ts spelled heads) :
    Heads (peek >>= k) ctx ts spelled heads := by
  refine .step (fun E => .of_stay (r := .ok (ctx.lookahead 0 ts) ts) rfl rfl fun front hts => ?_)
    ⟨[], .refl ts, h⟩
  rw [hts, peek_apply, lookahead_zero_exchange]
  rfl

theorem Heads.ite {c : Prop} [Decidable c] {q q' : Parser β} (h : c → Heads q ctx ts spelled heads)
    (h' : ¬ c → Heads q' ctx ts spelled heads) :
    Heads (if c then q else q') ctx ts spelled heads := by
  split
  · exact h ‹_›
  · exact h' ‹_›

theorem Heads.of_fault {q : Parser β} {fault : Fault} (h : q ctx ts = .fault fault mid) :
    Heads q ctx ts spelled heads := by
  intro v rest hread
  rw [h] at hread
  cases hread

/-- What is made of a line that was read with those below it. -/
theorem Heads.map {f : α → β} {spelled' : α → List Token → Prop} {heads' : α → List Head}
    (h : Heads q ctx ts spelled' heads') (hspelled : ∀ a us, spelled' a us → spelled (f a) us)
    (hheads : ∀ a, heads (f a) = heads' a) :
    Heads (q >>= fun a => pure (f a)) ctx ts spelled heads := by
  intro v rest hboth
  obtain ⟨a, mid, hread, hpure⟩ := exists_of_bind_ok hboth
  cases hpure
  obtain ⟨us, left, ps, hus, hspelled', hline, hheads', hruns, hreplays⟩ := h a rest hread
  exact ⟨us, left, ps, hus, hspelled a us hspelled', hline, hheads'.trans (hheads a).symm, hruns,
    fun p hp hsimple => ⟨(hreplays p hp hsimple).1, (hreplays p hp hsimple).2.first⟩⟩

/-- Where the line ends, the lines below it follow. -/
theorem Heads.of_folds {q : Parser β} (h : Folds q ctx ts heads) (hts : Scans ts)
    (hq : ∀ v rest, q ctx ts = .ok v rest → LineEnds ts ∧ spelled v []) :
    Heads q ctx ts spelled heads := by
  intro v rest hread
  obtain ⟨hline, hspelled⟩ := hq v rest hread
  obtain ⟨ps, hheads, hruns, hreplays⟩ := h v rest hread
  exact ⟨[], ts, ps, .refl ts, hspelled, hline, hheads, hruns, fun p hp hsimple =>
    ⟨hruns.behind hts hline p hp, hreplays p hp hsimple⟩⟩

theorem Heads.endOfLine {v : β} (hctx : ctx.bracketed = false) (hspelled : spelled v [])
    (hheads : heads v = []) : Heads (endOfLine >>= fun _ => pure v) ctx ts spelled heads := by
  intro w rest h
  obtain ⟨_, mid, hend, hpure⟩ := exists_of_bind_ok h
  cases hpure
  obtain ⟨rfl, hends⟩ := (wp_of_ok hend).1 (wp_endOfLine_lineEnds hctx)
  exact ⟨[], rest, [], .refl rest, hspelled, hends, hheads.symm, .refl rest, by simp⟩

/-- Lines, and lines behind them. -/
theorem Folds.bind {below : α → List Head} (h : Folds q ctx ts below) (hts : Scans ts)
    (hq : ∀ E, Withstands E q ctx ts) (hline : ∀ a mid, q ctx ts = .ok a mid → LineEnds ts)
    (hg : ∀ a mid, q ctx ts = .ok a mid → ∀ v rest, g a ctx mid = .ok v rest →
      ∃ more ps, heads v = below a ++ more ∧ Folded (g a) ctx mid more rest ps) :
    Folds (q >>= g) ctx ts heads := by
  intro v rest hboth
  obtain ⟨a, mid, hread, hmore⟩ := exists_of_bind_ok hboth
  obtain ⟨ps, hfolded⟩ := h a mid hread
  obtain ⟨more, qs, hheads, hnext⟩ := hg a mid hread v rest hmore
  rw [hheads]
  exact ⟨ps ++ qs, hfolded.append (hts.suffix hfolded.runs.suffix)
    (hfolded.runs.lineEnds (.inl (hline a mid hread))) hq hread hnext⟩

/-- What is made of lines that were read. -/
theorem Folds.map {below : α → List Head} {f : α → β} (h : Folds q ctx ts below)
    (hheads : ∀ a, heads (f a) = below a) : Folds (q >>= fun a => pure (f a)) ctx ts heads := by
  intro v rest hboth
  obtain ⟨a, mid, hread, hpure⟩ := exists_of_bind_ok hboth
  cases hpure
  obtain ⟨ps, hfolded⟩ := h a rest hread
  rw [hheads]
  exact ⟨ps, hfolded.first⟩

/-- The line and the lines below it. -/
theorem Heads.folds {q : Parser β} {below : β → List Head} (h : Heads q ctx ts spelled below)
    (hhead : ∀ v us, spelled v us →
      ∃ head : Head, head.Spelled us ∧ head.isSimple = false ∧ heads v = head :: below v) :
    Folds q ctx ts heads := by
  intro v rest hread
  obtain ⟨us, mid, ps, hus, hv, hline, hbelow, hruns, hreplays⟩ := h v rest hread
  obtain ⟨head, hspelled, hsimple, hheads⟩ := hhead v us hv
  obtain ⟨span, last, hstart, hlast, hcode, rfl⟩ := hus.exists_span hspelled.ne_nil
  refine ⟨⟨head, span, mid⟩ :: ps, by rw [List.map_cons, hbelow, hheads],
    .piece hstart hlast hcode hspelled hline hruns, fun p hp hp' => ?_⟩
  rcases List.mem_cons.1 hp with rfl | hp
  · rw [hsimple] at hp'
    cases hp'
  · exact (hreplays p hp hp').2

end

end Parser

end PineScript
