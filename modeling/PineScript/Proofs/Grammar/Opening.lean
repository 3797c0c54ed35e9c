import PineScript.Proofs.Grammar.Frame
import PineScript.Proofs.Grammar.Script
import PineScript.Proofs.Tree.Indented

/-!
# Where lines open

A line begins with the first token of its statement's range, but for the parentheses around an
expression. In a document code behind layout opens a line, and where a line ends the next code is
behind layout.
-/

namespace PineScript

open Token (codeOf)

variable {all ts rest : List Token} {t : Token} {p : Position}

/-! ## Where statements begin -/

theorem OpensAt.behind {gap : List Token} (h : OpensAt ts p) (hgap : ∀ u ∈ gap, u.isLayout = true) :
    OpensAt (gap ++ ts) p := by
  obtain ⟨front, t, behind, rfl, hstart, hfront⟩ := h
  refine ⟨gap ++ front, t, behind, by simp, hstart, fun u hu => ?_⟩
  rcases List.mem_append.1 hu with hu | hu
  · exact .inl (hgap u hu)
  · exact hfront u hu

theorem OpensAt.append (h : OpensAt ts p) (us : List Token) : OpensAt (ts ++ us) p := by
  obtain ⟨front, t, behind, rfl, hstart, hfront⟩ := h
  exact ⟨front, t, behind ++ us, by simp, hstart, hfront⟩

/-- Layout among the tokens makes no difference. -/
theorem OpensAt.of_codeOf (h : OpensAt (codeOf ts) p) : OpensAt ts p := by
  obtain ⟨front, t, behind, hcode, hstart, hfront⟩ := h
  obtain ⟨before, after, rfl, hbefore, hafter⟩ := List.filter_eq_append_iff.1 hcode
  obtain ⟨gap, more, rfl, hgap, -, -⟩ := List.filter_eq_cons_iff.1 hafter
  refine ⟨before ++ gap, t, more, by simp, hstart, fun u hu => ?_⟩
  rcases List.mem_append.1 hu with hu | hu
  · by_cases hlayout : u.isLayout = true
    · exact .inl hlayout
    · exact hfront u (hbefore ▸ Token.mem_codeOf.2 ⟨hu, by simpa using hlayout⟩)
  · exact .inl (by simpa using hgap u hu)

theorem Token.Begins.opensAt (h : Token.Begins p ts) : OpensAt ts p := by
  obtain ⟨t, ht, hstart⟩ := h
  obtain ⟨more, rfl⟩ := List.head?_eq_some_iff.1 ht
  exact ⟨[], t, more, rfl, hstart, by simp⟩

namespace Grammar

theorem Simple.begins {s : Stmt} (h : Simple Value ts s) (hs : s.isAnchored = true) :
    Token.Begins s.range.start ts := by
  cases h with
  | expression => cases hs
  | @declaration ms tys ts first x q _ _ _ _ _ hfirst =>
    have hbegins : Token.Begins first.range.start (ms ++ tys ++ [x]) := ⟨first, hfirst, rfl⟩
    have hline := hbegins.append (q :: ts)
    simp only [List.append_assoc, List.cons_append, List.nil_append] at hline
    exact hline
  | assignment => exact .cons _ _
  | jump => exact .cons _ _
  | returning => exact .cons _ _

/-- All lines but those of expressions begin with the first token of their range. -/
theorem Header.begins {s : Stmt} (h : Header Value ts s) (hs : s.isAnchored = true) :
    Token.Begins s.range.start ts := by
  cases h with
  | simple h => exact h.begins hs
  | malformed => cases hs
  | _ => exact .cons _ _

theorem Header.opensAt {s : Stmt} (h : Header Value ts s) : OpensAt ts s.range.start := by
  cases h with
  | simple h =>
    obtain ⟨before, own, after, rfl, hbefore, -, hfills⟩ := h.framed
    obtain ⟨t, ht, hstart⟩ := hfills.begins
    obtain ⟨more, rfl⟩ := List.head?_eq_some_iff.1 ht
    exact ⟨before, t, more ++ after, by simp, hstart, fun u hu => .inr (hbefore u hu)⟩
  | malformed hfirst _ => exact Token.Begins.opensAt ⟨_, hfirst, rfl⟩
  | _ => exact (Token.Begins.cons _ _).opensAt

end Grammar

/-! ## Lines of a document -/

/-- Code behind layout opens a line. -/
theorem Token.isLineLeading_of_gap {u : Token} {gap more : List Token}
    (h : (u :: (gap ++ t :: more)).IsChain Token.Follows) (hgap : ∀ v ∈ u :: gap, v.isLayout = true)
    (ht : t.isLayout = false) : t.isLineLeading = true := by
  induction gap generalizing u with
  | nil =>
    obtain ⟨hfollows, -⟩ := List.isChain_cons_cons.1 h
    rcases Token.isLayout_iff.1 (hgap u List.mem_cons_self) with hbreak | hcomment
    · exact hfollows.leads hbreak
    · have hkind := hfollows.closes hcomment
      grind
  | cons v gap ih => exact ih (List.isChain_cons_cons.1 h).2 (List.forall_mem_cons.1 hgap).2

namespace Parser

/-- What is known of the tokens of a document. -/
structure Document (all : List Token) : Prop where
  rows : Token.Rows all
  follows : all.IsChain Token.Follows
  scans : Scans all

theorem document_tokenize (source : String) : Document (tokenize source) :=
  ⟨rows_tokenize source, follows_tokenize source, fun _ => scanned_of_mem_tokenize⟩

/-- The first code opens a line. -/
def Led (ts : List Token) : Prop :=
  ∀ t more, ts.dropWhile Token.isLayout = t :: more → t.isLineLeading = true

theorem Led.of_gap {u : Token} (h : (u :: ts).IsChain Token.Follows) (hu : u.isLayout = true) :
    Led (u :: ts) := by
  intro t more hdrop
  have hsplit := List.takeWhile_append_dropWhile (p := Token.isLayout) (l := ts)
  rw [List.dropWhile_cons_of_pos hu] at hdrop
  rw [← hsplit, hdrop] at h
  refine Token.isLineLeading_of_gap h (List.forall_mem_cons.2 ⟨hu, ?_⟩) (Token.isLayout_of_dropWhile hdrop)
  exact fun v => List.mem_takeWhile_imp

theorem Led.nil : Led [] := by
  intro t more h
  cases h

/-- Where a line ends, the next code opens a line. -/
theorem Document.led (hall : Document all) (hts : ts <:+ all) (hline : LineEnds ts) : Led ts := by
  cases ts with
  | nil => exact .nil
  | cons u us =>
    refine .of_gap (hall.follows.suffix hts) ?_
    have hscanned := (hall.scans u (hts.mem List.mem_cons_self)).ne_eof
    have hhead := hline.head
    grind

/-- The first code of a document opens a line. -/
theorem Document.led_all (hall : Document all) : Led all := by
  cases all with
  | nil => exact .nil
  | cons u us =>
    cases hu : u.isLayout with
    | true => exact .of_gap hall.follows hu
    | false =>
      intro t more hdrop
      rw [List.dropWhile_cons_of_neg (by simp [hu])] at hdrop
      cases hdrop
      exact (hall.rows.leads _ u _ (List.filter_cons_of_pos (beq_self_eq_true _))).1

/-- Outside of brackets the next token that is seen is the next token, unless the line ends. -/
theorem eq_lookahead_cons {ctx : Context} (hctx : ctx.bracketed = false)
    (h : ts.IsChain Token.Follows) (hline : (ctx.lookahead 0 ts).isLineEnd = false) :
    ∃ more, ts = ctx.lookahead 0 ts :: more := by
  cases ts with
  | nil => cases hline
  | cons u us =>
    by_cases hcomment : u.kind = .comment
    · -- Behind a comment there is only the end of the line.
      have hskips : ctx.skips u = true := by simp [Context.skips, hcomment]
      rw [ctx.lookahead_zero, List.dropWhile_cons_of_pos hskips, ← ctx.lookahead_zero] at hline
      cases us with
      | nil => cases hline
      | cons v vs =>
        have hbreak := (List.isChain_cons_cons.1 h).1.closes hcomment
        rw [Context.lookahead_zero_of_seen (by simp [Context.skips, hctx, hbreak])] at hline
        simp [Token.isLineEnd, hbreak] at hline
    · have hseen : ctx.skips u = false := by simp [Context.skips, hctx, hcomment]
      exact ⟨us, by rw [Context.lookahead_zero_of_seen hseen]⟩

/-- The token that is seen behind the first code of a line is the next one on that line. -/
theorem Document.on_line {ctx : Context} {indent : Int} (hall : Document all)
    (hctx : ctx.bracketed = false) (hts : t :: ts <:+ all) (ht : t.isLayout = false)
    (hindent : t.indent = some indent) (hline : (ctx.lookahead 0 ts).isLineEnd = false) :
    OpensAt ts (ctx.lookahead 0 ts).range.start ∧
      lineIndent? all (ctx.lookahead 0 ts).range.start = some indent := by
  have hchain := hall.follows.suffix hts
  have hrest : ts.IsChain Token.Follows := hchain.tail
  obtain ⟨more, hmore⟩ := eq_lookahead_cons hctx hrest hline
  rw [hmore] at hchain
  have hsame := (List.isChain_cons_cons.1 hchain).1.stays (by grind)
  exact ⟨⟨[], _, more, hmore, rfl, by simp⟩,
    lineIndent?_eq hall.rows (hts.mem List.mem_cons_self) hindent hsame⟩

end Parser

end PineScript
