import PineScript.Proofs.Parser.KeptStmt
import PineScript.Proofs.Parser.Moved
import PineScript.Proofs.Parser.PlacedScript

/-!
# Suites of an input that varies

The same lines become malformed statements, and so suites and blocks keep what they do, with the
faults that are mended in them.
-/

namespace PineScript.Parser

open Token (codeOf)

variable {V : Variation} {ctx : Context} {ts ts' rest rest' : List Token} {b : Bool}

/-! ## Recovery -/

theorem skipLine_varied (h : Varied V ts ts') : Varied V (skipLine ts) (skipLine ts') := by
  have hbreak : ∀ us : List Token, (∀ t ∈ us.head?, t.kind = .newline) → skipLine us = us := by
    intro us hus
    cases us with
    | nil => rfl
    | cons t us => exact List.dropWhile_cons_of_neg (by simp [hus t rfl])
  have hpass {t : Token} {us : List Token} (ht : t.kind ≠ .newline) :
      skipLine (t :: us) = skipLine us := List.dropWhile_cons_of_pos (by simp [ht])
  induction h with
  | ends hold hnew =>
    rw [hold, hnew, hbreak _ V.ending.newline_of_old, hbreak _ V.ending.newline_of_new]
    exact .ends rfl rfl
  | keep ht _ ih => rwa [hpass ht, hpass ht]
  | comment _ hc _ _ _ ih => rwa [hpass (by simp [hc])]
  | @newline t r _ _ ht hnear hmore _ =>
    rw [hbreak _ (by simp [ht]), hbreak (t.moveTo r :: _) (by simp [Token.moveTo, ht])]
    exact .newline ht hnear hmore
  | @blank t c r _ _ hend ht hnear hc hmore _ =>
    rw [hbreak _ (by simp [ht]), hbreak (t.moveTo r :: _) (by simp [Token.moveTo, ht])]
    exact .blank hend ht hnear hc hmore

theorem resync_varied (hheeds : V.ending.heeds = true) (indent : Int) (h : Varied V ts ts') :
    Varied V (resync indent ts) (resync indent ts') ∨
      (resync indent ts).length < V.ending.old.length := by
  fun_induction resync indent ts generalizing ts' with
  | case1 ts hdrop =>
    have hline := skipLine_varied h
    rcases hline.behind_layout with ⟨-, hfresh⟩ | ⟨t, more, -, hsome, -⟩
    · rw [resync_eq, hfresh.eq_nil hheeds]
      exact .inl hline
    · rw [hdrop] at hsome
      cases hsome
  | case2 ts t more hdrop _ hle =>
    have hline := skipLine_varied h
    rcases hline.behind_layout with ⟨hnil, -⟩ | ⟨_, _, more', hsome, hdrop', -, -⟩
    · rw [hdrop] at hnil
      cases hnil
    · rw [hdrop] at hsome
      cases hsome
      rw [resync_eq, hdrop']
      simp only [hle, ↓reduceIte]
      exact .inl hline
  | case3 ts t more hdrop _ hle ih =>
    rcases (skipLine_varied h).behind_layout with
      ⟨hnil, -⟩ | ⟨_, _, more', hsome, hdrop', -, hmore | hshort⟩
    · rw [hdrop] at hnil
      cases hnil
    · rw [hdrop] at hsome
      cases hsome
      rw [resync_eq indent ts', hdrop']
      simp only [hle, ↓reduceIte]
      exact ih hmore
    · -- The first code of the old end is passed, so that less than this end is left.
      rw [hdrop] at hsome
      cases hsome
      have hle := ((resync_suffix indent more).trans (List.dropWhile_suffix _)).length_le
      rw [List.length_cons] at hshort
      exact .inr (by omega)

/-- The same code has been passed where the same code is left. -/
theorem codeRange_varied (hheeds : V.ending.heeds = true) (hts : Varied V ts ts')
    (hrest : Varied V rest rest') (hleft : rest <:+ ts) (hright : rest' <:+ ts') (first : Token) :
    codeRange first (consumed ts' rest') = codeRange first (consumed ts rest) := by
  obtain ⟨front, rfl⟩ := hleft
  obtain ⟨front', rfl⟩ := hright
  have hcode := hts.codeOf_eq hheeds
  rw [Token.codeOf_append, Token.codeOf_append, hrest.codeOf_eq hheeds] at hcode
  rw [consumed_append, consumed_append]
  exact congrArg (fun us => first.range.span ((us.getLast?.getD first).range))
    (List.append_cancel_right hcode)

/-- Whether the first token has been passed can be told by counting the code that is left. -/
theorem length_le_iff_code {more : List Token} {first : Token} (h : rest <:+ first :: more)
    (hcode : first.isLayout = false) :
    rest.length ≤ more.length ↔ (codeOf rest).length ≤ (codeOf more).length := by
  rcases List.suffix_cons_iff.1 h with rfl | h
  · rw [Token.codeOf_cons_of_code hcode, List.length_cons, List.length_cons]
    omega
  · exact iff_of_true h.length_le (h.filter _).length_le

theorem length_le_iff_varied {more more' : List Token} {first : Token}
    (hcode : first.isLayout = false) (hmore : Varied V more more') (hrest : Varied V rest rest')
    (hleft : rest <:+ first :: more) (hright : rest' <:+ first :: more') :
    rest'.length ≤ more'.length ↔ rest.length ≤ more.length := by
  obtain ⟨us, hus, hus'⟩ := hrest.code
  obtain ⟨vs, hvs, hvs'⟩ := hmore.code
  rw [length_le_iff_code hleft hcode, length_le_iff_code hright hcode, hus, hus', hvs, hvs']
  simp only [List.length_append]
  omega

/-! ## Suites -/

theorem ownComments_newline {t : Token} (ht : t.kind = .newline) (layout : List Token) :
    ownComments (t :: layout) = ownComments layout := by
  rw [ownComments_cons, ht]
  rfl

/-- The comments above a line of code in front of the end are the same. -/
theorem ownComments_varied {first : Token} {more : List Token} (h : Varied V ts ts')
    (hdrop : ts.dropWhile Token.isLayout = first :: more)
    (hlen : ¬ (first :: more).length < V.ending.old.length) :
    ownComments (ts'.takeWhile Token.isLayout) = ownComments (ts.takeWhile Token.isLayout) := by
  have hbreak {t : Token} {us : List Token} (ht : t.kind = .newline) :
      ownComments ((t :: us).takeWhile Token.isLayout) =
        ownComments (us.takeWhile Token.isLayout) := by
    rw [List.takeWhile_cons_of_pos (Token.isLayout_iff.2 (.inl ht)), ownComments_newline ht]
  have hpass {t : Token} (ht : t.kind = .newline) (us : List Token) :
      (t :: us).dropWhile Token.isLayout = us.dropWhile Token.isLayout :=
    List.dropWhile_cons_of_pos (Token.isLayout_iff.2 (.inl ht))
  induction h with
  | ends hold _ =>
    rw [hold] at hdrop
    rcases V.ending.behind_layout with ⟨hnil, -⟩ | ⟨_, _, _, hsome, -, hshort⟩
    · rw [hdrop] at hnil
      cases hnil
    · rw [hdrop] at hsome
      cases hsome
      exact absurd hshort hlen
  | @keep t ts ts' _ _ ih =>
    cases hlayout : t.isLayout with
    | true =>
      rw [List.dropWhile_cons_of_pos hlayout] at hdrop
      rw [List.takeWhile_cons_of_pos hlayout, List.takeWhile_cons_of_pos hlayout, ownComments_cons,
        ownComments_cons, ih hdrop]
    | false =>
      rw [List.takeWhile_cons_of_neg (by simp [hlayout]),
        List.takeWhile_cons_of_neg (by simp [hlayout])]
  | comment _ hc hindent _ _ ih =>
    rw [List.takeWhile_cons_of_pos (Token.isLayout_iff.2 (.inr hc)), ownComments_cons,
      if_neg (by simp [Token.isLineLeading, hindent]), ih hdrop]
  | @newline t r _ _ ht _ _ ih =>
    rw [hpass ht] at hdrop
    rw [hbreak ht, @hbreak (t.moveTo r) _ ht, ih hdrop]
  | @blank t c r _ _ _ ht _ hc _ ih =>
    rw [hpass ht] at hdrop
    rw [hbreak ht, @hbreak (t.moveTo r) _ ht, hbreak hc, ih hdrop]

theorem Mended.Like.flatMap {items items' : List (Mended (List Stmt))}
    (h : List.Forall₂ (Mended.Like V) items items') :
    Mended.Like V (⟨items.flatMap (·.value), items.flatMap (·.faults)⟩ : Mended (List Stmt))
      ⟨items'.flatMap (·.value), items'.flatMap (·.faults)⟩ := by
  induction h with
  | nil => exact .refl _
  | cons hitem _ ih =>
    refine ⟨?_, List.rel_append hitem.faults ih.faults⟩
    exact congrArg₂ (· ++ ·) hitem.value ih.value

section

variable {read : Int → Parser (Mended Stmt)} {indent : Int}
  (hread : ∀ finish ts, Lasts V (read indent) ⟨finish, false, none⟩ ts)
include hread

theorem attempt_suffix {first : Token} (hcode : first.isLayout = false) (more : List Token) :
    (attempt read indent ctx first more).2 <:+ first :: more := by
  have hresync : ∀ stopped, stopped <:+ first :: more → resync indent stopped <:+ first :: more :=
    fun stopped h => (resync_behind hcode h).trans (List.suffix_cons first more)
  refine attempt_cases (P := fun _ rest => rest <:+ first :: more) (hresync _ (List.suffix_refl _)) ?_
  have hsuffix := (hread ctx.finish (first :: more)).suffix
  unfold wp
  split <;> rename_i hrun <;> rw [hrun] at hsuffix
  · exact hsuffix
  · exact hresync _ hsuffix

theorem attempt_varied {first : Token} {more more' : List Token} (hcode : first.isLayout = false)
    (hmore : Varied V more more')
    (hlen : V.ending.old.length ≤ (attempt read indent ctx first more).2.length)
    (hclean : V.ending.heeds = true ∨ (attempt read indent ctx first more).1.Clean) :
    (attempt read indent ctx first more).1.Like V
        (attempt read indent (V.context ctx) first more').1 ∧
      Varied V (attempt read indent ctx first more).2
        (attempt read indent (V.context ctx) first more').2 := by
  have hstart : Varied V (first :: more) (first :: more') := .keep (by grind) hmore
  -- A fault is mended in the same way from where reading has stopped.
  have hmend : ∀ (e e' : Fault) (stopped stopped' : List Token), V.ending.heeds = true →
      e.Like V e' → Varied V stopped stopped' → stopped <:+ first :: more →
      stopped' <:+ first :: more' →
      V.ending.old.length ≤ (recover indent e first (first :: more) stopped).2.length →
      Mended.Like V ⟨(recover indent e first (first :: more) stopped).1, [e]⟩
          ⟨(recover indent e' first (first :: more') stopped').1, [e']⟩ ∧
        Varied V (recover indent e first (first :: more) stopped).2
          (recover indent e' first (first :: more') stopped').2 := by
    intro e e' stopped stopped' hheeds he hstopped hleft hright hlen
    have hresumed := (resync_varied hheeds indent hstopped).resolve_right (Nat.not_lt.2 hlen)
    refine ⟨⟨?_, .cons he .nil⟩, hresumed⟩
    have hrange := codeRange_varied hheeds hstart hresumed
      ((resync_behind hcode hleft).trans (List.suffix_cons _ _))
      ((resync_behind hcode hright).trans (List.suffix_cons _ _)) first
    rw [recover, recover, hrange, he.cause]
  by_cases hdeep : indent < indentOf indent first
  · simp only [attempt, hdeep, ↓reduceIte] at hlen hclean ⊢
    exact hmend _ _ _ _ (hclean.resolve_right (List.cons_ne_nil _ _)) (.refl _) hstart
      (List.suffix_refl _) (List.suffix_refl _) hlen
  · simp only [attempt, hdeep, ↓reduceIte] at hlen hclean ⊢
    have hold := hread ctx.finish (first :: more)
    have hnew := (hread (V.context ctx).finish (first :: more')).suffix
    have hsame := hold.same (by intro margin hmargin; cases hmargin) _ hstart
    change Counts V _ false _ →
      Matches V _ _ (read indent ⟨(V.context ctx).finish, false, none⟩ _) at hsame
    cases hrun : read indent ⟨ctx.finish, false, none⟩ (first :: more) with
    | ok m rest =>
      simp only [hrun] at hlen hclean hsame ⊢
      have hmatch := hsame ⟨⟨hlen, .inr (.inl rfl)⟩, hclean⟩
      cases hrun' : read indent ⟨(V.context ctx).finish, false, none⟩ (first :: more') <;>
        rw [hrun'] at hmatch <;> cases hmatch
      exact ⟨‹_›, ‹_›⟩
    | fault e stopped =>
      have hleft := hold.suffix
      rw [hrun] at hleft
      simp only [hrun] at hlen hclean hsame ⊢
      have hheeds := hclean.resolve_right (List.cons_ne_nil _ _)
      have hstopped : V.ending.old.length ≤ stopped.length :=
        Nat.le_trans hlen ((resync_suffix indent stopped).trans (List.dropWhile_suffix _)).length_le
      have hmatch := hsame ⟨⟨hstopped, .inl hheeds⟩, .inl hheeds⟩
      cases hrun' : read indent ⟨(V.context ctx).finish, false, none⟩ (first :: more') <;>
        rw [hrun'] at hmatch hnew <;> cases hmatch
      exact hmend _ _ _ _ hheeds ‹_› ‹_› hleft hnew hlen

theorem suiteItem_suffix (ts : List Token) : (suiteItem read indent ctx ts).rest <:+ ts := by
  have hsuffix : wp (suiteItem read indent) ctx ts (fun _ rest => rest <:+ ts)
      (fun _ rest => rest <:+ ts) := by
    refine wp_suiteItem (List.suffix_refl ts) fun first more hdrop _ => ?_
    have hfirst : first :: more <:+ ts := hdrop ▸ List.dropWhile_suffix _
    split
    · exact (attempt_suffix hread (Token.isLayout_of_dropWhile hdrop) more).trans hfirst
    · exact (List.suffix_cons first more).trans hfirst
  unfold wp at hsuffix
  split at hsuffix <;> rename_i hrun <;> rw [hrun] <;> exact hsuffix

/-- A suite that has code ahead, of which it may be the next statement. -/
theorem suiteItem_varied {first : Token} {more : List Token}
    (hdrop : ts.dropWhile Token.isLayout = first :: more) (h : Varied V ts ts')
    (hcounts : Counts V (Scale.option .mended) b (suiteItem read indent ctx ts)) :
    Matches V (Scale.option .mended) (suiteItem read indent ctx ts)
      (suiteItem read indent (V.context ctx) ts') := by
  rcases h.behind_layout with ⟨hnil, -⟩ | ⟨_, _, more', hsome, hdrop', hcode, hmore⟩
  · rw [hdrop] at hnil
    cases hnil
  rw [hdrop] at hsome
  cases hsome
  by_cases hindent : indentOf indent first < indent
  · have hlower : ∀ {ctx : Context} {us vs : List Token}, us.dropWhile Token.isLayout = first :: vs →
        suiteItem read indent ctx us = .ok none us := by
      intro ctx us vs hus
      refine suiteItem_of_lower fun t more hfirst => ?_
      obtain ⟨rfl, -⟩ := List.cons.inj (hus.symm.trans hfirst)
      exact hindent
    rw [hlower hdrop, hlower hdrop']
    exact .ok .none h
  · rw [suiteItem_of_first hdrop (Int.not_lt.1 hindent)] at hcounts ⊢
    rw [suiteItem_of_first hdrop' (Int.not_lt.1 hindent)]
    have hattempt : (attempt read indent ctx first more).2 <:+ first :: more :=
      attempt_suffix hread hcode more
    -- At least one token has been taken from the code, and still the old end is left.
    have hkept := hcounts.kept.1
    simp only [Reply.rest] at hkept
    have hlen : ¬ (first :: more).length < V.ending.old.length := by
      have hle := hattempt.length_le
      split at hkept
      · omega
      · rw [List.length_cons]
        omega
    have hmore := hmore.resolve_right hlen
    obtain ⟨hlike, hrest⟩ := attempt_varied hread hcode hmore
      (by split at hkept <;> omega) (hcounts.reads.imp_right fun hclean => hclean _ rfl)
    have hiff := length_le_iff_varied hcode hmore hrest hattempt (attempt_suffix hread hcode more')
    refine .ok (.some ⟨?_, hlike.faults⟩) ?_
    · simp only [hlike.value, ownComments_varied h hdrop hlen]
    · simp only [hiff]
      split
      · exact hrest
      · exact hmore

/-- Further lines do not belong to a suite that is indented. -/
theorem suiteItem_keeps (hindent : V.ending.heeds = true ∨ 0 < indent) (ts : List Token) :
    Keeps V (Scale.option .mended) b (suiteItem read indent) (suiteItem read indent) ctx ts := by
  refine ⟨suiteItem_suffix hread ts, fun _ ts' hts hcounts => ?_⟩
  cases hdrop : ts.dropWhile Token.isLayout with
  | cons first more => exact suiteItem_varied hread hdrop hts hcounts
  | nil =>
    rcases hts.behind_layout with ⟨-, hfresh⟩ | ⟨_, _, _, hsome, -⟩
    · rw [suiteItem_of_lower (by simp [hdrop]), suiteItem_of_lower fun t more hmore => ?_]
      · exact .ok .none hts
      · obtain ⟨hheeds, hzero, -⟩ := hfresh t more hmore
        rw [indentOf, hzero]
        exact hindent.resolve_left (by simp [hheeds])
    · rw [hdrop] at hsome
      cases hsome

theorem suite_keeps (hindent : V.ending.heeds = true ∨ 0 < indent) (ts : List Token) :
    Keeps V .mended b (suite read indent) (suite read indent) ctx ts :=
  .part (.collect (suiteItem_keeps hread hindent) fun _ _ _ _ => suiteItem_length)
    (fun _ _ hclean => List.flatMap_eq_nil_iff.1 hclean) fun _ _ _ _ hitems => .pure (.flatMap hitems)

end

/-! ## Blocks -/

/-- The first code ahead looks the same. Where there is none, nothing is read. -/
theorem Keeps.ahead {α : Type} {S : Scale V α} {k : Option Token → Parser α}
    (hnone : ∀ v rest, k none ctx ts ≠ .ok v rest)
    (h : Keeps V S b (k (ts.dropWhile Token.isLayout).head?) (k (ts.dropWhile Token.isLayout).head?)
      ctx ts) :
    Keeps V S b (fun ctx ts => k (ts.dropWhile Token.isLayout).head? ctx ts)
      (fun ctx ts => k (ts.dropWhile Token.isLayout).head? ctx ts) ctx ts := by
  refine ⟨h.suffix, fun hadmits ts' hts hcounts => ?_⟩
  have hsame : (ts'.dropWhile Token.isLayout).head? = (ts.dropWhile Token.isLayout).head? := by
    rcases hts.behind_layout with ⟨hnil, hfresh⟩ | ⟨t, more, more', hdrop, hdrop', -⟩
    · rw [hnil] at hcounts ⊢
      rcases hcounts.reads with hheeds | hreads
      · rw [hfresh.eq_nil hheeds]
      · cases hread : k none ctx ts with
        | ok v rest => exact absurd hread (hnone v rest)
        | fault e rest =>
          rw [List.head?_nil, hread] at hreads
          cases hreads
    · rw [hdrop, hdrop']
      rfl
  rw [hsame]
  exact h.same hadmits ts' hts hcounts

/-- What is made of the lines below a header, the first of which begins with this token. -/
def under (header : Int) (body : Int → Token → Parser (Mended Block)) :
    Option Token → Parser (Mended Block)
  | none => failHere .missingBlock
  | some first =>
    if indentOf header first ≤ header then failHere .missingBlock
    else body (indentOf header first) first

theorem indented_eq (header : Int) (body : Int → Token → Parser (Mended Block)) :
    indented header body = endOfLine >>= fun _ ctx ts =>
      under header body (ts.dropWhile Token.isLayout).head? ctx ts := by
  unfold indented
  congr 1
  funext _ ctx ts
  cases ts.dropWhile Token.isLayout with
  | nil => rfl
  | cons first more =>
    simp only [List.head?_cons, under]
    split <;> rfl

theorem indented_lasts {header : Int} {body : Int → Token → Parser (Mended Block)}
    (hbody : ∀ first more, ts.dropWhile Token.isLayout = first :: more →
      header < indentOf header first → Lasts V (body (indentOf header first) first) ctx ts) :
    Lasts V (indented header body) ctx ts := by
  have hstay : wp endOfLine ctx ts (fun _ rest => rest = ts) (fun _ _ => True) :=
    wp_endOfLine rfl fun _ => trivial
  rw [indented_eq]
  refine .after (endOfLine_steady ctx ts) fun _ mid hmid => .ahead nofun ?_
  obtain rfl := (wp_of_ok hmid).1 hstay
  cases hdrop : mid.dropWhile Token.isLayout with
  | nil => exact .failHere _
  | cons first more =>
    exact .ite (fun _ => .failHere _) fun hlt => hbody first more hdrop (Int.not_le.1 hlt)

/-- The range of a block that is not empty does not depend on where the input ends. -/
theorem blockOf_congr {ss : List Stmt} (h : ss ≠ []) (finish finish' : Position) :
    blockOf finish ss = blockOf finish' ss := by
  obtain ⟨first, more, rfl⟩ := List.exists_cons_of_ne_nil h
  simp [blockOf, List.getLast?_cons]

theorem block_keeps (V : Variation) (n : Nat) : BlockKeeps V (block n) := by
  induction n generalizing V with
  | zero =>
    have hlasts (V : Variation) (header : Int) (ctx : Context) (ts : List Token) :
        Lasts V (block 0 header) ctx ts := indented_lasts fun _ _ _ _ => .fail _ _
    exact ⟨fun header ctx ts => (hlasts V header ctx ts).suffix, fun header _ => hlasts V header⟩
  | succ n ih =>
    have hlasts (V : Variation) (header : Int) (hheader : V.Fits header) (ctx : Context)
        (ts : List Token) : Lasts V (block (n + 1) header) ctx ts := by
      refine indented_lasts fun first more hdrop hlt => ?_
      have hpos : V.ending.heeds = true ∨ 0 < indentOf header first :=
        hheader.imp_right fun hle => Int.lt_of_le_of_lt hle hlt
      have hread (finish : Position) (ts : List Token) :
          Lasts V (statement (expression n) (block n) (indentOf header first)) ⟨finish, false, none⟩ ts :=
        statement_lasts (expression_sturdy V n) (ih V) (hpos.imp_right Int.le_of_lt) rfl ts
      refine .part (suite_keeps hread hpos ts) (fun _ _ => id) fun body body' mid hmid hlike => ?_
      refine ⟨List.suffix_refl mid, fun _ mid' hmid' _ => .ok ⟨?_, hlike.faults⟩ hmid'⟩
      -- The block is not empty, so that its range does not depend on where the input ends.
      have hne : body.value ≠ [] :=
        (wp_of_ok hmid).1 (suite_ne_nil hdrop (Int.le_of_eq (indentOf_of_lt hlt).symm))
      rw [← hlike.value]
      exact blockOf_congr hne _ _
    exact ⟨fun header ctx ts => (hlasts .still header (.inl rfl) ctx ts).suffix, hlasts V⟩

theorem statement_keeps (n : Nat) {indent : Int} (hindent : V.Fits indent) (finish : Position)
    (ts : List Token) : Lasts V (statement (expression n) (block n) indent) ⟨finish, false, none⟩ ts :=
  statement_lasts (expression_sturdy V n) (block_keeps V n) hindent rfl ts

end PineScript.Parser
