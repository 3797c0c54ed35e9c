import PineScript.Analysis
import PineScript.Proofs.Diagnostic.Merge
import PineScript.Proofs.Lexer.Edited
import PineScript.Proofs.Parser.PaddedScript
import PineScript.Proofs.Rule.Message
import PineScript.Proofs.Rule.Renumbered

/-!
# Blank lines

Main statement: a blank line in front of a line only renumbers what is reported from this line on
(`analyze_blank_line`). The tokens are first renumbered, which renumbers all else, and then get the
break of the blank line, which no reader and no rule notices.
-/

namespace PineScript

open Rule (SameCode)
open Rule.Continuation (onLine)

/-- The number of a line when one more line stands in front of line `k`. -/
def lineBehind (k : Nat) (n : Int) : Int := if n < k then n else n + 1

theorem ascending_lineBehind (k : Nat) : Ascending (lineBehind k) := by
  intro a b hab
  unfold lineBehind
  split <;> split <;> omega

theorem lineBehind_ne (k : Nat) (n : Int) : lineBehind k n ≠ k := by
  unfold lineBehind
  split <;> omega

/-! ## The break of a blank line -/

/-- Tokens, and the same with the break of a blank line `k` between two lines. -/
inductive Spread (k : Int) : List Token → List Token → Prop
  | intro {front behind : List Token} {b : Token} :
      b.kind = .newline → b.range.start.line = k →
      (∀ t ∈ front.getLast?, t.kind = .newline) → behind ≠ [] →
      (∀ t ∈ front ++ behind, t.range.start.line ≠ k) →
      Spread k (front ++ behind) (front ++ b :: behind)

namespace Spread

variable {k : Int} {ts ts' : List Token}

theorem finish (h : Spread k ts ts') : finishOf ts' = finishOf ts := by
  obtain ⟨-, -, -, hbehind, -⟩ := h
  rename_i front behind b
  rw [← Parser.finishOf_of_suffix (List.suffix_append front behind) hbehind,
    ← Parser.finishOf_of_suffix ((List.suffix_cons b behind).trans (List.suffix_append front _))
      hbehind]

theorem eq_of_like {es es' : List Fault} (h : List.Forall₂ (Fault.Like .still) es es') :
    es = es' := by
  refine List.forall₂_eq_eq_eq ▸ h.imp fun e e' he => ?_
  cases e
  cases e'
  rw [Fault.mk.injEq]
  exact ⟨he.cause.symm, he.near⟩

/-- The parser reads the same program with the same faults. -/
theorem parse (h : Spread k ts ts') (hindent : ∀ t ∈ ts, 0 ≤ Parser.indentOf 0 t) :
    (Program.parse ts').1.body = (Program.parse ts).1.body ∧
      (Program.parse ts').2 = (Program.parse ts).2 := by
  have hfinish := h.finish
  obtain ⟨hb, -, hlast, -, -⟩ := h
  rename_i front behind b
  rcases List.eq_nil_or_concat front with rfl | ⟨front, nl, rfl⟩
  · -- The blank line is the first one.
    have hlayout : ∀ t ∈ [b], t.isLayout = true := by
      intro t ht
      rw [List.mem_singleton.1 ht]
      exact Token.isLayout_iff.2 (.inl hb)
    have hnone : Parser.ownComments [b] = [] := by simp [Parser.ownComments, hb]
    simp only [List.nil_append] at hfinish hindent ⊢
    rw [Parser.parse_eq, Parser.parse_eq, hfinish, ← List.singleton_append,
      Parser.bodyOf_layout_append hlayout hindent, hnone]
    exact ⟨rfl, rfl⟩
  · -- It stands behind the break of the line in front of it.
    rw [List.concat_eq_append] at hfinish hlast ⊢
    have hnl : nl.kind = .newline := hlast nl List.getLast?_concat
    simp only [List.append_assoc, List.singleton_append] at hfinish ⊢
    have hpadded : Varied .still (front ++ nl :: behind) (front ++ nl :: b :: behind) :=
      .append_left (.blank rfl hnl rfl hb (.refl rfl behind)) front
    obtain ⟨hbody, hfaults⟩ := parse_padded hpadded rfl hfinish
    exact ⟨hbody, (eq_of_like hfaults).symm⟩

/-- Only line `k` is not the same. -/
theorem onLine_of_ne (h : Spread k ts ts') {n : Int} (hn : n ≠ k) :
    onLine ts' n = onLine ts n := by
  obtain ⟨-, hb, -, -, -⟩ := h
  rename_i front behind b
  rw [onLine, onLine, List.filter_append, List.filter_append,
    List.filter_cons_of_neg (by simpa [hb] using hn.symm)]

theorem sameCode (h : Spread k ts ts') : SameCode ts ts' := by
  have hother := fun n => h.onLine_of_ne (n := n)
  obtain ⟨hb, -, -, -, hlines⟩ := h
  rename_i front behind b
  refine ⟨?_, fun n hcode => ?_⟩
  · rw [List.filter_append, List.filter_append, List.filter_cons_of_neg]
    simp [Token.isLayout, hb, TokenKind.isLayout]
  · by_cases hn : n = k
    · have hnone : onLine (front ++ behind) n = [] :=
        List.filter_eq_nil_iff.2 fun t ht => by simpa [hn] using hlines t ht
      exact absurd (by rw [hnone]; rfl) hcode
    · rw [hother n hn]

theorem check (h : Spread k ts ts') (hts : Token.InTurn ts) (hts' : Token.InTurn ts')
    {program : Program} (hstart : ∀ s ∈ program.statements, s.header.start.line ≠ k)
    (rule : Rule) : rule.check program ts' = rule.check program ts :=
  rule.check_of_sameCode h.sameCode hts hts' fun s hs => by rw [h.onLine_of_ne (hstart s hs)]

theorem comments (h : Spread k ts ts') : Suppression.comments ts' = Suppression.comments ts := by
  obtain ⟨hb, -, -, -, -⟩ := h
  rename_i front behind b
  rw [Suppression.comments, Suppression.comments, List.filter_append, List.filter_append,
    List.filter_cons_of_neg (by simp [hb])]

theorem ofFile (h : Spread k ts ts') : Suppression.ofFile ts' = Suppression.ofFile ts := by
  rw [Suppression.ofFile, h.comments, Suppression.ofFile]

theorem ofLine (h : Spread k ts ts') (n : Int) :
    Suppression.ofLine ts' n = Suppression.ofLine ts n := by
  rw [Suppression.ofLine, h.comments, Suppression.ofLine]

end Spread

/-! ## Suppression -/

section

variable {φ : Int → Int}

theorem Suppression.comments_move (f : Position → Position) (ts : List Token) :
    comments (ts.map (Token.move f)) = (comments ts).map (Token.move f) :=
  List.filter_map

theorem Suppression.ofFile_move (f : Position → Position) (ts : List Token) :
    ofFile (ts.map (Token.move f)) = ofFile ts := by
  rw [ofFile, ofFile, comments_move, List.filterMap_map]
  rfl

theorem Suppression.ofLine_renumber (hφ : Ascending φ) (ts : List Token) (n : Int) :
    ofLine (ts.map (Token.move (.renumber φ))) (φ n) = ofLine ts n := by
  have hline := Rule.Continuation.onLine_renumber hφ (comments ts) n
  rw [onLine, onLine] at hline
  rw [ofLine, ofLine, comments_move, hline, List.filterMap_map]
  rfl

end

/-! ## Merging -/

namespace Diagnostic

variable {φ : Int → Int} {a a' b b' : Diagnostic}

theorem Renumbered.message_eq_iff (hφ : Ascending φ) (ha : Renumbered φ a a')
    (hb : Renumbered φ b b') (hcode : a.code = b.code) :
    a'.message = b'.message ↔ a.message = b.message := by
  -- The line in a message may change only because it can be told from the message.
  by_cases hshadow : a.code = Rule.Shadowing.id
  · obtain ⟨name, line, hm, hm'⟩ := ha.outer hshadow
    obtain ⟨other, further, ho, ho'⟩ := hb.outer (hcode ▸ hshadow)
    rw [hm, hm', ho, ho', Rule.Shadowing.message_inj, Rule.Shadowing.message_inj,
      hφ.eq_iff]
  · rw [ha.message hshadow, hb.message (hcode ▸ hshadow)]

theorem Renumbered.same (hφ : Ascending φ) (ha : Renumbered φ a a') (hb : Renumbered φ b b') :
    a.same b = a'.same b' := by
  rw [Bool.eq_iff_iff, same_iff, same_iff, ha.code, hb.code, ha.range, hb.range,
    Range.renumber_inj hφ]
  refine and_congr_right fun hcode => and_congr_right fun _ => ?_
  rw [ha.message_eq_iff hφ hb hcode]

theorem Renumbered.startsBy (hφ : Ascending φ) (ha : Renumbered φ a a')
    (hb : Renumbered φ b b') : a.startsBy b = a'.startsBy b' := by
  rw [Diagnostic.startsBy, Diagnostic.startsBy, ha.range, hb.range]
  exact decide_eq_decide.2 (Position.renumber_le_iff hφ).symm

end Diagnostic

/-! ## The text -/

namespace Lexer

end Lexer

/-- Tokens that are moved are read as they were. -/
theorem Program.parse_move (f : Position → Position) {ts : List Token} (h : ts ≠ []) :
    (parse (ts.map (Token.move f))).1.body = ((parse ts).1.move f).body ∧
      (parse (ts.map (Token.move f))).2 = (parse ts).2.map (Fault.move f) := by
  rw [Parser.parse_eq, Parser.parse_eq ts, Parser.bodyOf_moved f ts fun _ => finishOf_move f h]
  exact ⟨rfl, rfl⟩

section

variable {k : Nat} {source source' : String} (hne : tokenize source ≠ [])
  (h : Spread k ((tokenize source).map (Token.move (.renumber (lineBehind k)))) (tokenize source'))
include hne h

theorem Spread.parse_tokenize :
    (Program.parse (tokenize source')).1.body =
        ((Program.parse (tokenize source)).1.move (.renumber (lineBehind k))).body ∧
      (Program.parse (tokenize source')).2 =
        (Program.parse (tokenize source)).2.map (Fault.move (.renumber (lineBehind k))) := by
  have hindent : ∀ t ∈ (tokenize source).map (Token.move (.renumber (lineBehind k))),
      0 ≤ Parser.indentOf 0 t := by
    intro t ht
    obtain ⟨u, hu, rfl⟩ := List.mem_map.1 ht
    have hnonneg : 0 ≤ Parser.indentOf 0 u := indentOf_nonneg_of_mem_tokenize hu
    exact hnonneg
  obtain ⟨hbody, hfaults⟩ := h.parse hindent
  obtain ⟨hmoved, hmoved'⟩ := Program.parse_move (.renumber (lineBehind k)) hne
  exact ⟨hbody.trans hmoved, hfaults.trans hmoved'⟩

theorem Spread.faults :
    List.Forall₂ (Diagnostic.Renumbered (lineBehind k))
      ((Program.parse (tokenize source)).2.map Fault.diagnostic)
      ((Program.parse (tokenize source')).2.map Fault.diagnostic) := by
  rw [(Spread.parse_tokenize hne h).2, List.map_map]
  refine List.forall₂_map_left_iff.2 (List.forall₂_map_right_iff.2 ?_)
  refine List.forall₂_same.2 fun fault _ => ?_
  exact Diagnostic.renumbered_move (of_decide_eq_true rfl)

theorem Spread.rule (rule : Rule) :
    List.Forall₂ (Diagnostic.Renumbered (lineBehind k))
      (rule.check (Program.parse (tokenize source)).1 (tokenize source))
      (rule.check (Program.parse (tokenize source')).1 (tokenize source')) := by
  have hφ := ascending_lineBehind k
  have hturn := Token.inTurn_tokenize source
  have hstart : ∀ s ∈ ((Program.parse (tokenize source)).1.move
      (.renumber (lineBehind k))).statements, s.header.start.line ≠ k := by
    intro s hs
    rw [Program.statements_move] at hs
    obtain ⟨u, -, rfl⟩ := List.mem_map.1 hs
    rw [Stmt.header_move]
    exact lineBehind_ne k _
  rw [rule.check_of_body (Spread.parse_tokenize hne h).1,
    h.check (hturn.renumber hφ) (Token.inTurn_tokenize source') hstart]
  exact Rule.check_renumber hφ rule _ hturn

theorem Spread.analyze (rules : List Rule) :
    List.Forall₂ (Diagnostic.Renumbered (lineBehind k)) (analyze rules source)
      (analyze rules source') := by
  have hφ := ascending_lineBehind k
  have hrules : List.Forall₂ (Diagnostic.Renumbered (lineBehind k))
      (rules.flatMap fun rule => rule.check (Program.parse (tokenize source)).1 (tokenize source))
      (rules.flatMap fun rule =>
        rule.check (Program.parse (tokenize source')).1 (tokenize source')) := by
    induction rules with
    | nil => exact .nil
    | cons rule more ih => exact List.rel_append (Spread.rule hne h rule) ih
  simp only [PineScript.analyze, Suppression.apply]
  refine List.rel_filter (fun d d' hd => ?_) (Diagnostic.merge_rel
    (fun a a' b b' ha hb => ha.same hφ hb) (fun a a' b b' ha hb => ha.startsBy hφ hb)
    (Spread.faults hne h) hrules)
  have hfile : Suppression.ofFile (tokenize source') = Suppression.ofFile (tokenize source) :=
    h.ofFile.trans (Suppression.ofFile_move _ _)
  have hline : Suppression.ofLine (tokenize source') d'.range.start.line =
      Suppression.ofLine (tokenize source) d.range.start.line := by
    rw [h.ofLine, hd.range]
    exact Suppression.ofLine_renumber hφ _ _
  simp only [hd.code, hfile, hline]

end

end PineScript
