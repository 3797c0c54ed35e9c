import Mathlib.Data.List.Forall2
import PineScript.Proofs.Parser.Variation

/-!
# Readers of an input that varies

A reader keeps what it does if it gives the same value, or stops at the same fault, whatever stands
instead of its tokens, and again leaves what stands instead of the tokens that it left. This is asked
only where what it did counts: it has not gone on into the old end, and where further lines follow
it has read without a fault. Inside a bracket it looks past line breaks, so there code has to be left
that stops it before the further lines.
-/

namespace PineScript

variable {V : Variation}

/-- The same fault, which may be reported elsewhere at the end of a line. -/
structure Fault.Like (V : Variation) (e e' : Fault) : Prop where
  cause : e'.cause = e.cause
  near : V.near e.range e'.range

theorem Fault.Like.refl (e : Fault) : Fault.Like V e e := ⟨rfl, V.near_refl _⟩

namespace Parser

/-- Nothing was mended. -/
def Mended.Clean {α : Type} (m : Mended α) : Prop := m.faults = []

/-- The same value, with the same faults on the way. -/
structure Mended.Like {α : Type} (V : Variation) (m m' : Mended α) : Prop where
  value : m.value = m'.value
  faults : List.Forall₂ (Fault.Like V) m.faults m'.faults

theorem Mended.Like.refl {α : Type} (m : Mended α) : Mended.Like V m m :=
  ⟨rfl, List.forall₂_same.2 fun _ _ => .refl _⟩

/-- Which values are without fault, and which of them are taken for the same. -/
structure Scale (V : Variation) (α : Type) where
  clean : α → Prop
  like : α → α → Prop
  like_refl : ∀ a, like a a

namespace Scale

variable {α : Type}

def plain : Scale V α := ⟨fun _ => True, Eq, fun _ => rfl⟩

def mended : Scale V (Mended α) := ⟨Mended.Clean, Mended.Like V, .refl⟩

def option (S : Scale V α) : Scale V (Option α) where
  clean o := ∀ a ∈ o, S.clean a
  like := Option.Rel S.like
  like_refl := by
    rintro (_ | a)
    · exact .none
    · exact .some (S.like_refl a)

def list (S : Scale V α) : Scale V (List α) where
  clean as := ∀ a ∈ as, S.clean a
  like := List.Forall₂ S.like
  like_refl _ := List.forall₂_same.2 fun a _ => S.like_refl a

/-- A value is given, and it is without fault. -/
def Reads (S : Scale V α) : Reply α → Prop
  | .ok a _ => S.clean a
  | .fault _ _ => False

end Scale

variable {α β : Type} {S : Scale V α} {T : Scale V β} {b c : Bool} {p q : Parser α} {ctx : Context}
  {ts ts' rest : List Token}

/-- Whether a reply counts; `b` tells whether further lines would go on inside a bracket. -/
structure Counts (V : Variation) (S : Scale V α) (b : Bool) (r : Reply α) : Prop where
  kept : V.Kept b r.rest
  reads : V.ending.heeds = true ∨ S.Reads r

/-- Replies with values that are taken for the same, or with the same fault. -/
inductive Matches (V : Variation) (S : Scale V α) : Reply α → Reply α → Prop
  | ok {a a' : α} {rest rest' : List Token} : S.like a a' → Varied V rest rest' →
      Matches V S (.ok a rest) (.ok a' rest')
  | fault {e e' : Fault} {rest rest' : List Token} : e.Like V e' → Varied V rest rest' →
      Matches V S (.fault e rest) (.fault e' rest')

end Parser

/-- Further lines are not indented deeper than a statement of this indentation. -/
def Variation.Fits (V : Variation) (indent : Int) : Prop := V.ending.heeds = true ∨ 0 ≤ indent

/-- The statement that is being read is not carried on by further lines. -/
def Variation.Admits (V : Variation) (ctx : Context) : Prop :=
  ∀ margin, ctx.margin = some margin → V.Fits margin

namespace Parser

variable {α β : Type} {S : Scale V α} {T : Scale V β} {b c : Bool} {p q : Parser α} {ctx : Context}
  {ts ts' rest : List Token}

/-- Where it counts, `q` does the same with what stands instead as `p` does. -/
structure Keeps (V : Variation) (S : Scale V α) (b : Bool) (p q : Parser α) (ctx : Context)
    (ts : List Token) : Prop where
  suffix : (p ctx ts).rest <:+ ts
  same : V.Admits ctx → ∀ ts', Varied V ts ts' → Counts V S b (p ctx ts) →
    Matches V S (p ctx ts) (q (V.context ctx) ts')

/-- The reader gives the same value. -/
abbrev Steady (V : Variation) (p : Parser α) (ctx : Context) (ts : List Token) : Prop :=
  Keeps V .plain ctx.bracketed p p ctx ts

/-- The reader gives the same value with the same faults on the way. -/
abbrev Lasts (V : Variation) (p : Parser (Mended α)) (ctx : Context) (ts : List Token) : Prop :=
  Keeps V .mended ctx.bracketed p p ctx ts

theorem Counts.of_fault {e : Fault} (h : Counts V S b (.fault e rest)) : V.ending.heeds = true :=
  h.reads.resolve_right id

/-- Where code is left, it does not matter whether a bracket is open. -/
theorem kept_of_lookahead (h : (ctx.lookahead 0 ts).isLineEnd = false)
    (hlen : V.ending.old.length ≤ ts.length) : V.Kept b ts := by
  obtain ⟨hseen, skipped, hts, -⟩ := exists_skipped h
  have hmem := List.mem_append_right skipped
    (List.mem_cons_self : ctx.lookahead 0 ts ∈ _ :: (ts.dropWhile ctx.skips).tail)
  rw [← hts] at hmem
  exact ⟨hlen, .inr (.inr ⟨ctx.lookahead 0 ts, hmem, by grind⟩)⟩

/-- What has been taken from the old end does not count. -/
theorem Keeps.not_short {us : List Token} (hsuffix : rest <:+ us) (hkept : V.Kept b rest) :
    ¬ us.length < V.ending.old.length := by
  have hle := hsuffix.length_le
  have hold := hkept.1
  omega

namespace Keeps

theorem mono {S' : Scale V α} (h : Keeps V S b p q ctx ts) (hclean : ∀ a, S'.clean a → S.clean a)
    (hlike : ∀ a a', S.like a a' → S'.like a a') : Keeps V S' b p q ctx ts := by
  refine ⟨h.suffix, fun hadmits ts' hts hcounts => ?_⟩
  have hreads : S'.Reads (p ctx ts) → S.Reads (p ctx ts) := by
    cases p ctx ts with
    | ok a _ => exact hclean a
    | fault _ _ => exact id
  have hsame := h.same hadmits ts' hts ⟨hcounts.kept, hcounts.reads.imp_right hreads⟩
  revert hsame
  generalize p ctx ts = r
  generalize q (V.context ctx) ts' = r'
  rintro (⟨ha, hrest⟩ | ⟨he, hrest⟩)
  · exact .ok (hlike _ _ ha) hrest
  · exact .fault he hrest

theorem pure {a a' : α} (h : S.like a a') : Keeps V S b (Pure.pure a) (Pure.pure a') ctx ts :=
  ⟨List.suffix_refl ts, fun _ _ hts _ => .ok h hts⟩

theorem ite {c : Prop} [Decidable c] {p' q' : Parser α} (hp : c → Keeps V S b p q ctx ts)
    (hp' : ¬ c → Keeps V S b p' q' ctx ts) :
    Keeps V S b (if c then p else p') (if c then q else q') ctx ts := by
  split
  · exact hp ‹_›
  · exact hp' ‹_›

theorem bind {g g' : α → Parser β} (hp : Keeps V S c p q ctx ts)
    (hcounts : ∀ a mid, p ctx ts = .ok a mid → Counts V T b (g a ctx mid) →
      Counts V S c (.ok a mid))
    (hg : ∀ a a' mid, p ctx ts = .ok a mid → S.like a a' → Keeps V T b (g a) (g' a') ctx mid) :
    Keeps V T b (p >>= g) (q >>= g') ctx ts := by
  have hsuffix := hp.suffix
  have hsame := hp.same
  cases hread : p ctx ts with
  | fault e mid =>
    have hboth : (p >>= g) ctx ts = .fault e mid := by rw [bind_apply, hread]
    rw [hread] at hsuffix hsame
    refine ⟨by rwa [hboth], fun hadmits ts' hts hall => ?_⟩
    rw [hboth] at hall ⊢
    have hheeds := hall.of_fault
    have hfirst := hsame hadmits ts' hts ⟨⟨hall.kept.1, .inl hheeds⟩, .inl hheeds⟩
    rw [bind_apply]
    generalize q (V.context ctx) ts' = r at hfirst
    cases hfirst with
    | fault he hmid => exact .fault he hmid
  | ok a mid =>
    have hboth : (p >>= g) ctx ts = g a ctx mid := by rw [bind_apply, hread]
    have hmore := (hg a a mid hread (S.like_refl a)).suffix
    rw [hread] at hsuffix hsame
    refine ⟨by rw [hboth]; exact hmore.trans hsuffix, fun hadmits ts' hts hall => ?_⟩
    rw [hboth] at hall ⊢
    have hfirst := hsame hadmits ts' hts (hcounts a mid hread hall)
    rw [bind_apply]
    generalize q (V.context ctx) ts' = r at hfirst
    cases hfirst with
    | @ok _ a' _ mid' ha hmid => exact (hg a a' mid hread ha).same hadmits mid' hmid hall

/-- A plain value counts where the whole does. -/
theorem after {g g' : α → Parser β} (hp : Keeps V .plain b p q ctx ts)
    (hg : ∀ a mid, p ctx ts = .ok a mid → Keeps V T b (g a) (g' a) ctx mid) :
    Keeps V T b (p >>= g) (q >>= g') ctx ts := by
  refine hp.bind (fun a mid hread hall => ?_) fun a _ mid hread ha => ha ▸ hg a mid hread
  exact ⟨hall.kept.of_suffix (hg a mid hread).suffix, .inr trivial⟩

/-- A part is without fault where the whole is. -/
theorem part {g g' : α → Parser β} (hp : Keeps V S b p q ctx ts)
    (hclean : ∀ a mid, T.Reads (g a ctx mid) → S.clean a)
    (hg : ∀ a a' mid, p ctx ts = .ok a mid → S.like a a' → Keeps V T b (g a) (g' a') ctx mid) :
    Keeps V T b (p >>= g) (q >>= g') ctx ts := by
  refine hp.bind (fun a mid hread hall => ?_) hg
  exact ⟨hall.kept.of_suffix (hg a a mid hread (S.like_refl a)).suffix,
    hall.reads.imp_right (hclean a mid)⟩

/-- What is made of something that was read keeps its faults. -/
theorem wrap {p q : Parser (Mended α)} {g : Mended α → β}
    (hg : ∀ m m', m.value = m'.value → g m = g m') (hp : Keeps V .mended b p q ctx ts) :
    Keeps V .mended b (p >>= fun m => Pure.pure ⟨g m, m.faults⟩)
      (q >>= fun m => Pure.pure ⟨g m, m.faults⟩) ctx ts :=
  hp.part (fun _ _ => id) fun m m' _ _ hm => .pure ⟨hg m m' hm.value, hm.faults⟩

/-- What is only looked at, and looks the same, may be seen before. -/
theorem look {k k' : α → Parser β} {a : α} (hp : p ctx ts = .ok a ts)
    (hq : ∀ ts', Varied V ts ts' → Counts V T b (k a ctx ts) → q (V.context ctx) ts' = .ok a ts')
    (h : Keeps V T b (k a) (k' a) ctx ts) : Keeps V T b (p >>= k) (q >>= k') ctx ts := by
  have hboth : (p >>= k) ctx ts = k a ctx ts := by rw [bind_apply, hp]
  refine ⟨hboth ▸ h.suffix, fun hadmits ts' hts hcounts => ?_⟩
  rw [hboth] at hcounts ⊢
  have hboth' : (q >>= k') (V.context ctx) ts' = k' a (V.context ctx) ts' := by
    rw [bind_apply, hq ts' hts hcounts]
  rw [hboth']
  exact h.same hadmits ts' hts hcounts

/-! ### Seeing and taking tokens -/

/-- Behind the end of a line it must not matter what is seen. -/
theorem peekAt {n : Nat} {k k' : Token → Parser α} (hblind : Blind k')
    (hidle : ∀ m < n, (ctx.lookahead m ts).isLineEnd = true → ∀ t t', k' t = k' t')
    (hseen : Counts V S b (k (ctx.lookahead n ts) ctx ts) →
      V.ending.heeds = true ∨ ctx.bracketed = false ∨ n < (ctx.seen ts).length)
    (h : Keeps V S b (k (ctx.lookahead n ts)) (k' (ctx.lookahead n ts)) ctx ts) :
    Keeps V S b (peekAt n >>= k) (Parser.peekAt n >>= k') ctx ts := by
  refine ⟨h.suffix, fun hadmits ts' hts hcounts => ?_⟩
  have hsame : k' ((V.context ctx).lookahead n ts') = k' (ctx.lookahead n ts) := by
    by_cases hbefore : ∀ m < n, (ctx.lookahead m ts).isLineEnd = false
    · rcases hts.lookahead (hseen hcounts) hbefore with heq | ⟨hend, hend'⟩
      · rw [heq]
      · exact hblind _ _ hend' hend
    · simp only [Classical.not_forall, Bool.not_eq_false] at hbefore
      obtain ⟨m, hm, hend⟩ := hbefore
      exact hidle m hm hend _ _
  change Matches V S (k (ctx.lookahead n ts) ctx ts) (k' _ _ ts')
  rw [hsame]
  exact h.same hadmits ts' hts hcounts

theorem peek {k k' : Token → Parser α} (hblind : Blind k')
    (h : Keeps V S ctx.bracketed (k (ctx.lookahead 0 ts)) (k' (ctx.lookahead 0 ts)) ctx ts) :
    Keeps V S ctx.bracketed (peek >>= k) (Parser.peek >>= k') ctx ts := by
  refine peekAt hblind (fun m hm => absurd hm (Nat.not_lt_zero m)) (fun hcounts => ?_) h
  refine hcounts.kept.2.imp_right (.imp_right fun ⟨t, ht, hcode⟩ => ?_)
  exact List.length_pos_of_mem (Context.mem_seen (h.suffix.mem ht) (Context.skips_of_code hcode))

/-- Code is seen as it stands. -/
theorem peek_code {k k' : Token → Parser α} (hreal : (ctx.lookahead 0 ts).isLineEnd = false)
    (h : Keeps V S b (k (ctx.lookahead 0 ts)) (k' (ctx.lookahead 0 ts)) ctx ts) :
    Keeps V S b (Parser.peek >>= k) (Parser.peek >>= k') ctx ts := by
  refine ⟨h.suffix, fun hadmits ts' hts hcounts => ?_⟩
  change Matches V S (k (ctx.lookahead 0 ts) ctx ts) (k' _ _ ts')
  rw [(hts.advance hreal).1]
  exact h.same hadmits ts' hts hcounts

theorem advance {k k' : Token → Parser α} (hreal : (ctx.lookahead 0 ts).isLineEnd = false)
    (h : Keeps V S b (k (ctx.lookahead 0 ts)) (k' (ctx.lookahead 0 ts)) ctx
      (ts.dropWhile ctx.skips).tail) :
    Keeps V S b (advance >>= k) (Parser.advance >>= k') ctx ts := by
  have hboth : (Parser.advance >>= k) ctx ts =
      k (ctx.lookahead 0 ts) ctx (ts.dropWhile ctx.skips).tail := by rw [bind_apply, advance_apply]
  refine ⟨?_, fun hadmits ts' hts hcounts => ?_⟩
  · rw [hboth]
    exact h.suffix.trans ((List.tail_suffix _).trans (List.dropWhile_suffix _))
  · rw [hboth] at hcounts ⊢
    obtain ⟨hsame, hmore | ⟨-, hshort⟩⟩ := hts.advance hreal
    · rw [bind_apply, advance_apply, hsame]
      exact h.same hadmits _ hmore hcounts
    · exact absurd hshort (not_short h.suffix hcounts.kept)

theorem fail (cause : Fault.Cause) (range : Range) :
    Keeps V S b (fail cause range) (Parser.fail cause range) ctx ts :=
  ⟨List.suffix_refl ts, fun _ _ hts _ => .fault (.refl _) hts⟩

/-- A fault at the next token is the same, though it may be reported elsewhere. -/
theorem failAt (cause : Token → Fault.Cause)
    (hcause : ∀ (t : Token) (r : Range), cause (t.moveTo r) = cause t) :
    Keeps V S b (Parser.peek >>= fun t => Parser.fail (cause t) t.range)
      (Parser.peek >>= fun t => Parser.fail (cause t) t.range) ctx ts := by
  refine ⟨List.suffix_refl ts, fun _ ts' hts hcounts => ?_⟩
  rcases hts.lookahead_zero ctx with ⟨r, hsame, hnear, -⟩ | ⟨hheeds, -⟩
  · refine .fault ⟨?_, ?_⟩ hts
    · exact (congrArg cause hsame).trans (hcause _ r)
    · rwa [hsame]
  · have hfault := hcounts.reads.resolve_right id
    rw [hheeds] at hfault
    cases hfault

theorem failHere (cause : Fault.Cause) :
    Keeps V S b (failHere cause) (Parser.failHere cause) ctx ts :=
  failAt (fun _ => cause) fun _ _ => rfl

theorem unexpected (wanted : Expected) :
    Keeps V S b (unexpected wanted) (Parser.unexpected wanted) ctx ts :=
  failAt (fun t => .unexpected t.kind t.text wanted) fun _ _ => rfl

/-- What passes a test that no line end passes is code. -/
theorem isLineEnd_of_test {test : Token → Bool} {t : Token}
    (htest : ∀ t : Token, t.isLineEnd = true → test t = false) (h : test t = true) :
    t.isLineEnd = false := by
  refine Bool.eq_false_iff.2 fun hend => ?_
  rw [htest t hend] at h
  cases h

/-- What passes the test is taken, and what does not is a fault. -/
theorem expect {test : Token → Bool} {wanted : Expected} {k k' : Token → Parser α}
    (htest : ∀ t : Token, t.isLineEnd = true → test t = false)
    (h : test (ctx.lookahead 0 ts) = true →
      Keeps V S b (k (ctx.lookahead 0 ts)) (k' (ctx.lookahead 0 ts)) ctx
        (ts.dropWhile ctx.skips).tail) :
    Keeps V S b (expect test wanted >>= k) (Parser.expect test wanted >>= k') ctx ts := by
  cases hpass : test (ctx.lookahead 0 ts) with
  | true =>
    have hreal := isLineEnd_of_test htest hpass
    have hread := advance hreal (h hpass)
    have hboth : (Parser.expect test wanted >>= k) ctx ts = (Parser.advance >>= k) ctx ts := by
      rw [bind_apply, bind_apply, expect_of_test hpass]
    refine ⟨hboth ▸ hread.suffix, fun hadmits ts' hts hcounts => ?_⟩
    rw [hboth] at hcounts ⊢
    have hpass' : test ((V.context ctx).lookahead 0 ts') = true := by
      rwa [(hts.advance hreal).1]
    have hboth' : (Parser.expect test wanted >>= k') (V.context ctx) ts' =
        (Parser.advance >>= k') (V.context ctx) ts' := by
      rw [bind_apply, bind_apply, expect_of_test hpass']
    rw [hboth']
    exact hread.same hadmits ts' hts hcounts
  | false =>
    have hboth : (Parser.expect test wanted >>= k) ctx ts =
        (Parser.unexpected wanted : Parser α) ctx ts := by
      rw [bind_apply, expect_of_not_test hpass]
      rfl
    refine ⟨hboth ▸ List.suffix_refl ts, fun hadmits ts' hts hcounts => ?_⟩
    rw [hboth] at hcounts ⊢
    have hpass' : test ((V.context ctx).lookahead 0 ts') = false := by
      rcases hts.lookahead (.inl (hcounts.reads.resolve_right id))
          (fun m hm => absurd hm (Nat.not_lt_zero m)) with heq | ⟨-, hend⟩
      · rwa [heq]
      · exact htest _ hend
    rw [bind_apply, expect_of_not_test hpass']
    exact (unexpected wanted).same hadmits ts' hts hcounts

/-- Where nothing is left behind layout, nothing is read there. -/
theorem passLayout {k k' : Unit → Parser α} (hhungry : ∀ v rest, k () ctx [] ≠ .ok v rest)
    (h : Keeps V S b (k ()) (k' ()) ctx (ts.dropWhile Token.isLayout)) :
    Keeps V S b (passLayout >>= k) (Parser.passLayout >>= k') ctx ts := by
  refine ⟨h.suffix.trans (List.dropWhile_suffix _), fun hadmits ts' hts hcounts => ?_⟩
  change Counts V S b (k () ctx (ts.dropWhile Token.isLayout)) at hcounts
  have hmore : Varied V (ts.dropWhile Token.isLayout) (ts'.dropWhile Token.isLayout) := by
    rcases hts.behind_layout with ⟨hnil, hfresh⟩ | ⟨t, more, more', hdrop, hdrop', hcode, hmore⟩
    · rw [hnil] at hcounts h ⊢
      cases hheeds : V.ending.heeds with
      | false =>
        have hreads := hcounts.reads.resolve_left (by simp [hheeds])
        cases hread : k () ctx [] with
        | ok v rest => exact absurd hread (hhungry v rest)
        | fault e rest =>
          rw [hread] at hreads
          cases hreads
      | true =>
        have hold : V.ending.old = [] :=
          List.length_eq_zero_iff.1 (Nat.eq_zero_of_not_pos (not_short h.suffix hcounts.kept))
        rw [hfresh.eq_nil hheeds]
        exact .ends hold.symm (Ending.new_eq_nil hheeds hold).symm
    · rw [hdrop] at hcounts h
      rw [hdrop, hdrop']
      exact .keep (by grind) (hmore.resolve_right (not_short h.suffix hcounts.kept))
  exact h.same hadmits _ hmore hcounts

theorem withMargin {margin : Int} (hmargin : V.Fits margin)
    (h : Keeps V S b p q { ctx with margin := some margin } ts) :
    Keeps V S b (withMargin margin p) (Parser.withMargin margin q) ctx ts := by
  refine ⟨h.suffix, fun _ => h.same fun m hm => ?_⟩
  cases hm
  exact hmargin

/-- The same line is joined, whatever stands between; further lines are not. -/
theorem joinLine (spellings : List String) :
    Keeps V .plain b (joinLine spellings) (Parser.joinLine spellings) ctx ts := by
  constructor
  · rcases joinLine_cases spellings ctx ts with hstay | ⟨-, t, more, -, -, hdrop, -, hjoin⟩
    · rw [hstay]
      exact List.suffix_refl ts
    · rw [hjoin]
      exact hdrop ▸ List.dropWhile_suffix _
  intro hadmits ts' hts hcounts
  rcases hts.behind_layout with ⟨hnil, hfresh⟩ | ⟨t, more, more', hdrop, hdrop', hcode, hmore⟩
  · rw [joinLine_of_not_carriesOn (by simp [hnil]), joinLine_of_not_carriesOn]
    · exact .ok rfl hts
    · intro margin t more hmargin hdrop
      obtain ⟨hheeds, hindent, -⟩ := hfresh t more hdrop
      have hle : 0 ≤ margin := (hadmits margin hmargin).resolve_left (by simp [hheeds])
      simp only [carriesOn, hindent, Int.not_lt.2 hle, decide_false, Bool.false_and]
  · have hkind : ((V.context ctx).lookahead 0 ts').kind = (ctx.lookahead 0 ts).kind := by
      rcases hts.lookahead_zero ctx with ⟨r, hsame, -⟩ | ⟨-, hnil, -⟩
      · rw [hsame]
        rfl
      · -- The next code stands behind skipped tokens, if these are all.
        have hmem : t ∈ ts := (List.dropWhile_suffix Token.isLayout).mem (hdrop ▸ List.mem_cons_self)
        have hskips : ctx.skips t = true := by simpa using List.dropWhile_eq_nil_iff.1 hnil t hmem
        rw [Context.skips_of_code hcode] at hskips
        cases hskips
    have hmargin : (V.context ctx).margin = ctx.margin := rfl
    have hbracketed : (V.context ctx).bracketed = ctx.bracketed := rfl
    unfold Parser.joinLine at hcounts ⊢
    rw [hmargin, hbracketed, hkind, hdrop']
    rw [hdrop] at hcounts ⊢
    split
    · exact .ok rfl hts
    · rename_i margin hm
      simp only [hm] at hcounts
      split
      · exact .ok rfl hts
      · rename_i hline
        simp only [hline, Bool.false_eq_true, ↓reduceIte] at hcounts ⊢
        split
        · rename_i hcarries
          rw [if_pos hcarries] at hcounts
          have hjoined := hmore.resolve_right (not_short (List.suffix_refl _) hcounts.kept)
          exact .ok rfl (.keep (by grind) hjoined)
        · exact .ok rfl hts

/-! ### Brackets -/

/-- What is read up to the closing bracket does not depend on what is left behind it. -/
theorem bracketed (h : Keeps V S b p q { ctx with bracketed := true } ts) :
    Keeps V S b (bracketed p) (Parser.bracketed q) ctx ts := ⟨h.suffix, h.same⟩

/-- Up to a token that is asked for, code is left. -/
theorem upTo {test : Token → Bool} {wanted : Expected} {k : α → Token → Parser β}
    (htest : ∀ t : Token, t.isLineEnd = true → test t = false)
    (hp : Keeps V .plain true p q ctx ts)
    (hk : ∀ a t mid, Keeps V T b (k a t) (k a t) ctx mid) :
    Keeps V T b (p >>= fun a => Parser.expect test wanted >>= k a)
      (q >>= fun a => Parser.expect test wanted >>= k a) ctx ts := by
  have hclose : ∀ a mid, Keeps V T b (Parser.expect test wanted >>= k a)
      (Parser.expect test wanted >>= k a) ctx mid :=
    fun a mid => .expect htest fun _ => hk a _ _
  refine hp.bind (fun a mid _ hall => ⟨?_, .inr trivial⟩) fun a _ mid _ ha => ha ▸ hclose a mid
  have hlen := (hall.kept.of_suffix (hclose a mid).suffix).1
  cases hpass : test (ctx.lookahead 0 mid) with
  | true => exact kept_of_lookahead (isLineEnd_of_test htest hpass) hlen
  | false =>
    have hreads := hall.reads
    rw [bind_apply, expect_of_not_test hpass] at hreads
    exact ⟨hlen, .inl (hreads.resolve_right id)⟩

/-! ### Loops -/

theorem iterate {σ : Type} {step : σ → Parser (Option σ)}
    (hstep : ∀ state ts, Keeps V .plain b (step state) (step state) ctx ts)
    (hshort : ∀ state ctx ts next rest, step state ctx ts = .ok (some next) rest →
      rest.length < ts.length) (state : σ) :
    Keeps V .plain b (iterate step state) (Parser.iterate step state) ctx ts := by
  induction hlen : ts.length using Nat.strongRecOn generalizing ts state with
  | ind n ih =>
    rw [iterate_eq_bind hshort]
    refine (hstep state ts).after fun o mid hmid => ?_
    cases o with
    | none => exact .pure rfl
    | some next => exact ih _ (hlen ▸ hshort state ctx ts next mid hmid) next rfl

theorem collect {item : Parser (Option α)}
    (hitem : ∀ ts, Keeps V S.option b item item ctx ts)
    (hshort : ∀ ctx ts a rest, item ctx ts = .ok (some a) rest → rest.length < ts.length) :
    Keeps V S.list b (collect item) (Parser.collect item) ctx ts := by
  induction hlen : ts.length using Nat.strongRecOn generalizing ts with
  | ind n ih =>
    rw [collect_eq_bind hshort]
    refine (hitem ts).part ?_ fun o o' mid hmid ho => ?_
    · rintro (_ | a) mid hreads
      · exact nofun
      · change S.list.Reads ((Parser.collect item >>= fun more => Pure.pure (a :: more)) ctx mid)
          at hreads
        rw [bind_apply] at hreads
        cases hmore : Parser.collect item ctx mid with
        | ok more rest =>
          rw [hmore] at hreads
          exact fun _ h => Option.some.inj h ▸ (List.forall_mem_cons.1 hreads).1
        | fault e rest =>
          rw [hmore] at hreads
          cases hreads
    · cases ho with
      | none => exact .pure .nil
      | some ha =>
        refine (ih _ (hlen ▸ hshort ctx ts _ mid hmid) rfl).part (fun _ _ hall => ?_)
          fun _ _ _ _ hmore => .pure (.cons ha hmore)
        exact (List.forall_mem_cons.1 hall).2

/-- The items of a list are the same. -/
theorem collect_plain {item : Parser (Option α)}
    (hitem : ∀ ts, Keeps V .plain b item item ctx ts)
    (hshort : ∀ ctx ts a rest, item ctx ts = .ok (some a) rest → rest.length < ts.length) :
    Keeps V .plain b (Parser.collect item) (Parser.collect item) ctx ts := by
  have hoption : ∀ ts, Keeps V (Scale.option .plain) b item item ctx ts := fun ts =>
    (hitem ts).mono (fun _ _ => trivial) fun o _ ho => ho ▸ (Scale.option .plain).like_refl o
  refine (collect hoption hshort).mono (fun _ _ _ _ => trivial) fun as as' hall => ?_
  change List.Forall₂ Eq as as' at hall
  rwa [List.forall₂_eq_eq_eq] at hall

end Keeps

theorem advance_steady (hreal : (ctx.lookahead 0 ts).isLineEnd = false) : Steady V advance ctx ts := by
  rw [← bind_pure advance]
  exact .advance hreal (.pure rfl)

theorem expect_steady {test : Token → Bool} {wanted : Expected}
    (htest : ∀ t : Token, t.isLineEnd = true → test t = false) :
    Steady V (expect test wanted) ctx ts := by
  rw [← bind_pure (expect test wanted)]
  exact .expect htest fun _ => .pure rfl

end Parser

end PineScript
