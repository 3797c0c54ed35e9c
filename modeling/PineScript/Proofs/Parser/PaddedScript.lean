import PineScript.Proofs.Parser.KeptScript
import PineScript.Proofs.Parser.Resume

/-!
# Scripts with additional layout

Main statement: with comments put at line ends and blank lines put between lines a script has the
same statements and the same faults, of which those at line ends may be reported elsewhere
(`parse_padded`).
-/

namespace PineScript

variable {V : Variation} {ctx : Context} {ts ts' : List Token}

theorem Varied.refl (hsame : V.ending = .same) (ts : List Token) : Varied V ts ts := by
  have hend : Varied V [] [] := .ends (by rw [hsame]; rfl) (by rw [hsame]; rfl)
  have h := hend.append_left ts
  rwa [List.append_nil] at h

namespace Parser

variable (hsame : V.ending = .same)
include hsame

theorem ownComments_padded (h : Varied V ts ts') : ownComments ts' = ownComments ts := by
  induction h with
  | ends hold hnew =>
    rw [hold, hnew, hsame]
    rfl
  | keep _ _ ih => rw [ownComments_cons, ownComments_cons, ih]
  | comment _ _ hindent _ _ ih =>
    rw [ownComments_cons, if_neg (by simp [Token.isLineLeading, hindent]), ih]
  | @newline t r _ _ ht _ _ ih =>
    have ht' : (t.moveTo r).kind = .newline := ht
    rw [ownComments_newline ht, ownComments_newline ht', ih]
  | @blank t b r _ _ _ ht _ hb _ ih =>
    have ht' : (t.moveTo r).kind = .newline := ht
    rw [ownComments_newline ht, ownComments_newline ht', ownComments_newline hb, ih]

theorem script_lasts (ctx : Context) (ts : List Token) : Lasts V script ctx ts := by
  have hheeds : V.ending.heeds = true := by rw [hsame]; rfl
  refine .part (suite_keeps (statement_keeps nestingLimit (.inl hheeds)) (.inl hheeds) ts)
    (fun _ _ => id) fun body body' rest _ hbody => ⟨?_, fun _ rest' hrest _ => ?_⟩
  · change (if rest.all Token.isLayout then [] else rest) <:+ rest
    split
    · exact List.nil_suffix
    · exact List.suffix_refl rest
  have hcode : ∀ us : List Token, us.all Token.isLayout = (Token.codeOf us).isEmpty := by
    intro us
    rw [Bool.eq_iff_iff, List.isEmpty_iff, Token.codeOf, List.filter_eq_nil_iff]
    simp
  have hall : rest'.all Token.isLayout = rest.all Token.isLayout := by
    rw [hcode, hcode, hrest.codeOf_eq hheeds]
  refine .ok ⟨?_, hbody.faults⟩ ?_
  · rw [hall, ownComments_padded hsame hrest, hbody.value]
  · rw [hall]
    split
    · exact .refl hsame []
    · exact hrest

theorem bodyOf_padded (h : Varied V ts ts') (hmargin : ctx.margin = none) :
    (bodyOf ctx ts).Like V (bodyOf (V.context ctx) ts') := by
  have hheeds : V.ending.heeds = true := by rw [hsame]; rfl
  have hlen : V.ending.old.length ≤ (script ctx ts).rest.length := by
    rw [hsame]
    exact Nat.zero_le _
  have hmatch := (script_lasts hsame ctx ts).same (by simp [Variation.Admits, hmargin]) ts' h
    ⟨⟨hlen, .inl hheeds⟩, .inl hheeds⟩
  unfold bodyOf
  cases hrun : script ctx ts <;> cases hrun' : script (V.context ctx) ts' <;>
    rw [hrun, hrun'] at hmatch <;> cases hmatch
  · assumption
  · exact ⟨rfl, .cons ‹_› .nil⟩

end Parser

/-- Additional layout changes neither the statements nor the faults of a script. -/
theorem parse_padded (h : Varied V ts ts') (hsame : V.ending = .same)
    (hfinish : finishOf ts' = V.finish (finishOf ts)) :
    (Program.parse ts').1.body = (Program.parse ts).1.body ∧
      List.Forall₂ (Fault.Like V) (Program.parse ts).2 (Program.parse ts').2 := by
  have hbody := @Parser.bodyOf_padded V ⟨finishOf ts, false, none⟩ ts ts' hsame h rfl
  rw [Parser.parse_eq, Parser.parse_eq, hfinish]
  exact ⟨hbody.value.symm, hbody.faults⟩

end PineScript
