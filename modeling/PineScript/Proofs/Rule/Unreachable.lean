import PineScript.Proofs.Grammar.Frame
import PineScript.Proofs.Grammar.Heads
import PineScript.Proofs.Grammar.Script
import PineScript.Proofs.Lexer.Rows
import PineScript.Proofs.Rule.Layout

/-!
# Reports of unreachable code

Every body in which a statement stands behind a jump that ends it is reported once, and no other. The
report ends with the last statement of the body. It begins behind the range of the jump, which leaves
out the parentheses around its value: main statement `Unreachable.check_reports_dead`.
-/

namespace PineScript.Rule.Unreachable

open Token (codeOf)

variable {terminators : List String} {tokens : List Token}

/-! ## Jumps -/

/-- The statement is a jump that ends the body it stands in. -/
def isTerminator (terminators : List String) : Stmt → Bool
  | .jump _ kind _ => decide (kind.text ∈ terminators)
  | _ => false

/-- In the body a statement stands behind a jump that ends it. -/
def HasDead (terminators : List String) (body : List Stmt) : Prop :=
  ∃ before jump behind, body = before ++ jump :: behind ∧ isTerminator terminators jump = true ∧
    ∃ s ∈ behind, s.isComment = false

/-- The jump is the first to end the body. Up to the first statement behind it there are comments. -/
structure Cut (terminators : List String) (body before : List Stmt) (r : Range) (kind : JumpKind)
    (value : Option Expr) (comments : List Stmt) (first : Stmt) (more : List Stmt) : Prop where
  split : body = before ++ .jump r kind value :: (comments ++ first :: more)
  isFirst : ∀ s ∈ before, isTerminator terminators s = false
  terminates : kind.text ∈ terminators
  areComments : ∀ s ∈ comments, s.isComment = true
  isCode : first.isComment = false

theorem splitAtJump_append {before behind : List Stmt} {r : Range} {kind : JumpKind}
    {value : Option Expr} (hbefore : ∀ s ∈ before, isTerminator terminators s = false)
    (hkind : kind.text ∈ terminators) :
    splitAtJump terminators (before ++ .jump r kind value :: behind) = some (r, kind, behind) := by
  induction before with
  | nil => simp [splitAtJump, hkind]
  | cons s before ih =>
    rw [List.forall_mem_cons] at hbefore
    cases s with
    | jump r' kind' value' =>
      have hother : kind'.text ∉ terminators := by simpa [isTerminator] using hbefore.1
      simpa [splitAtJump, hother] using ih hbefore.2
    | _ => exact ih hbefore.2

theorem splitAtJump_eq_none {body : List Stmt} (h : ∀ s ∈ body, isTerminator terminators s = false) :
    splitAtJump terminators body = none := by
  induction body with
  | nil => rfl
  | cons s body ih =>
    rw [List.forall_mem_cons] at h
    cases s with
    | jump r kind value =>
      have hother : kind.text ∉ terminators := by simpa [isTerminator] using h.1
      simpa [splitAtJump, hother] using ih h.2
    | _ => exact ih h.2

/-- Without a jump that ends it, or with comments only behind that jump, a body is not reported. -/
theorem judge_eq_none {body : List Stmt} (h : ¬ HasDead terminators body) :
    judge terminators tokens body = none := by
  cases hfind : body.find? (isTerminator terminators) with
  | none =>
    have hnone : splitAtJump terminators (body.filter (!·.isComment)) = none :=
      splitAtJump_eq_none fun s hs => by
        simpa using List.find?_eq_none.1 hfind s (List.mem_filter.1 hs).1
    simp [judge, hnone]
  | some jump =>
    obtain ⟨hjump, before, behind, rfl, hbefore⟩ := List.find?_eq_some_iff_append.1 hfind
    have hdead : behind.filter (!·.isComment) = [] := by
      rw [List.filter_eq_nil_iff]
      intro s hs hcode
      exact h ⟨before, jump, behind, rfl, hjump, s, hs, by simpa using hcode⟩
    cases jump with
    | jump r kind value =>
      have hsplit : splitAtJump terminators
          ((before ++ .jump r kind value :: behind).filter (!·.isComment)) = some (r, kind, []) := by
        rw [List.filter_append, List.filter_cons_of_pos rfl, hdead]
        refine splitAtJump_append (fun s hs => ?_) (by simpa [isTerminator] using hjump)
        simpa using hbefore s (List.mem_filter.1 hs).1
      unfold judge
      rw [hsplit]
      rfl
    | _ => cases hjump

/-- A body with a statement behind its jump is reported. -/
theorem Cut.judge_eq {body before comments more : List Stmt} {r : Range} {kind : JumpKind}
    {value : Option Expr} {first last : Stmt}
    (h : Cut terminators body before r kind value comments first more)
    (hlast : ((first :: more).filter (!·.isComment)).getLast? = some last) {anchor : Token}
    (hanchor : codeFrom tokens r.stop = some anchor) :
    judge terminators tokens body = some {
      code := id
      message := message kind
      severity := .warning
      range := ⟨anchor.range.start, last.range.stop⟩ } := by
  have hcomments : comments.filter (!·.isComment) = [] := by
    rw [List.filter_eq_nil_iff]
    intro s hs
    simp [h.areComments s hs]
  have hsplit : splitAtJump terminators (body.filter (!·.isComment)) =
      some (r, kind, (first :: more).filter (!·.isComment)) := by
    rw [h.split, List.filter_append, List.filter_cons_of_pos rfl, List.filter_append, hcomments,
      List.nil_append]
    exact splitAtJump_append (fun s hs => h.isFirst s (List.mem_filter.1 hs).1) h.terminates
  have hfirst : ((first :: more).filter (!·.isComment)).head? = some first := by
    rw [List.filter_cons_of_pos (by simp [h.isCode])]
    rfl
  simp [judge, hsplit, hfirst, hlast, hanchor]

/-! ## Where a report begins -/

theorem inTurn_of_rows (h : Token.Rows tokens) : Token.InTurn tokens :=
  h.ordered.imp_of_mem fun hs _ hst => Position.le_trans (Position.le_of_lt (h.flat _ hs).2) hst

/-- The first code behind the end of a range is what follows the code that fills it. -/
theorem codeFrom_of_ceases {front own behind : List Token} {p : Position} (h : Token.Rows tokens)
    (hcode : codeOf tokens = front ++ (own ++ behind)) (hown : Token.Ceases p own) :
    codeFrom tokens p = behind.head? := by
  obtain ⟨last, hlast, rfl⟩ := hown
  obtain ⟨own, rfl⟩ := List.getLast?_eq_some_iff.1 hlast
  have hsplit : codeOf tokens = (front ++ own) ++ last :: behind := by simpa using hcode
  have hordered := h.ordered.filter (!·.isLayout)
  change (codeOf tokens).Pairwise _ at hordered
  have hflat : ∀ t ∈ codeOf tokens, t.range.start < t.range.stop :=
    fun t ht => (h.flat t (Token.mem_codeOf.1 ht).1).2
  rw [codeFrom_eq (inTurn_of_rows h)]
  change (codeOf tokens).find? _ = _
  rw [hsplit] at hordered hflat ⊢
  obtain ⟨-, hlater, hbefore⟩ := List.pairwise_append.1 hordered
  have hself : last.range.start < last.range.stop := hflat last (by simp)
  -- Up to the last token of the range all code starts before the range ends, and behind it none does.
  have hnone : (front ++ own).find? (fun t => decide (last.range.stop ≤ t.range.start)) = none := by
    refine List.find?_eq_none.2 fun t ht => ?_
    have hstart : t.range.start < last.range.start := by
      have hle := hbefore t ht last List.mem_cons_self
      have hlt := hflat t (List.mem_append_left _ ht)
      rw [Position.lt_def] at hlt ⊢
      rw [Position.le_def] at hle
      omega
    rw [Position.lt_def] at hself hstart
    simp only [decide_eq_true_eq, Position.le_def]
    omega
  rw [List.find?_append, hnone, Option.none_or,
    List.find?_cons_of_neg (by simpa [← Position.not_lt] using hself)]
  cases behind with
  | nil => rfl
  | cons t behind =>
    have hstart := (List.pairwise_cons.1 hlater).1 t List.mem_cons_self
    rw [List.find?_cons_of_pos (by simpa using hstart)]
    rfl

/-! ## The lines of a body -/

theorem heads_of_body? {n : Node} {body : List Stmt} (h : body? n = some body) :
    n.heads = Stmt.headsOf body := by
  cases n with
  | program p =>
    cases h
    rfl
  | block b =>
    cases h
    exact Node.heads_block b
  | _ => cases h

/-- The lines of the jump and of the first statement behind it follow each other. -/
theorem Cut.exists_pieces {program : Program} {ps : List Piece} {body before comments more : List Stmt}
    {r : Range} {kind : JumpKind} {value : Option Expr} {first : Stmt}
    (h : Cut terminators body before r kind value comments first more)
    (hbody : body ∈ program.walk.filterMap body?) (hps : ps.map Piece.head = program.heads) :
    ∃ front jump next back, ps = front ++ jump :: next :: back ∧
      jump.head = .statement (.jump r kind value) ∧ next.head = .statement first := by
  obtain ⟨n, hn, hbody⟩ := List.mem_filterMap.1 hbody
  obtain ⟨above, below, hheads⟩ := Program.infix_heads hn
  have hlines : Stmt.headsOf body = Stmt.headsOf before ++ .statement (.jump r kind value) ::
      .statement first :: (first.headsBelow ++ Stmt.headsOf more) := by
    rw [h.split, Stmt.headsOf_append, Stmt.headsOf, Stmt.headsOf_append,
      Stmt.headsOf_comments h.areComments, Stmt.headsOf, h.isCode]
    rfl
  rw [heads_of_body? hbody, hlines] at hheads
  rw [← hheads] at hps
  simp only [List.append_assoc, List.cons_append] at hps
  obtain ⟨front, rest, rfl, -, hrest⟩ := List.map_eq_append_iff.1 hps
  obtain ⟨front', rest', rfl, -, hrest⟩ := List.map_eq_append_iff.1 hrest
  obtain ⟨jump, rest', rfl, hjump, hrest⟩ := List.map_eq_cons_iff.1 hrest
  obtain ⟨next, back, rfl, hnext, -⟩ := List.map_eq_cons_iff.1 hrest
  exact ⟨front ++ front', jump, next, back, by simp, hjump, hnext⟩

/-- The first jump that ends a body with something behind it, and the first statement there. -/
theorem HasDead.exists_cut {body : List Stmt} (h : HasDead terminators body) :
    ∃ before r kind value comments first more,
      Cut terminators body before r kind value comments first more := by
  obtain ⟨before', jump', behind', hbody, hjump', s, hs, hcode⟩ := h
  have hmem : jump' ∈ body := by simp [hbody]
  obtain ⟨jump, hfind⟩ : ∃ jump, body.find? (isTerminator terminators) = some jump :=
    Option.isSome_iff_exists.1 (List.find?_isSome.2 ⟨jump', hmem, hjump'⟩)
  obtain ⟨hjump, before, behind, rfl, hbefore⟩ := List.find?_eq_some_iff_append.1 hfind
  -- What stands behind any jump that ends the body stands behind the first one.
  have hbehind : s ∈ behind := by
    rcases List.append_eq_append_iff.1 hbody with ⟨a, -, ha⟩ | ⟨c, rfl, hc⟩
    · cases a with
      | nil =>
        obtain ⟨-, rfl⟩ := List.cons.inj ha
        exact hs
      | cons x a =>
        obtain ⟨-, rfl⟩ := List.cons.inj ha
        simp [hs]
    · cases c with
      | nil =>
        obtain ⟨-, rfl⟩ := List.cons.inj hc
        exact hs
      | cons x c =>
        obtain ⟨rfl, -⟩ := List.cons.inj hc
        have hnot := hbefore jump' (by simp)
        simp [hjump'] at hnot
  obtain ⟨first, hfirst⟩ : ∃ first, behind.find? (!·.isComment) = some first :=
    Option.isSome_iff_exists.1 (List.find?_isSome.2 ⟨s, hbehind, by simp [hcode]⟩)
  obtain ⟨hisCode, comments, more, rfl, hcomments⟩ := List.find?_eq_some_iff_append.1 hfirst
  cases jump with
  | jump r kind value =>
    exact ⟨before, r, kind, value, comments, first, more, rfl, fun t ht => by simpa using hbefore t ht,
      by simpa [isTerminator] using hjump, fun t ht => by simpa using hcomments t ht,
      by simpa using hisCode⟩
  | _ => cases hjump

/-- The code of a jump up to the end of its range; parentheses may follow. -/
theorem exists_own {r : Range} {kind : JumpKind} {value : Option Expr} {ts : List Token}
    (h : (Head.statement (.jump r kind value)).Spelled ts) :
    ∃ own closing, ts = own ++ closing ∧ Token.Ceases r.stop own ∧
      ∀ t ∈ closing, t.isPunctuation ")" = true := by
  cases h with
  | statement h =>
    cases h with
    | simple h =>
      obtain ⟨before, own, after, rfl, -, hafter, hfills⟩ := h.framed
      exact ⟨before ++ own, after, by simp, hfills.ceases.append before, hafter⟩

/-- A line break stands between two lines. -/
theorem line_lt_of_pieces {source : String} {ps front back : List Piece} {p q : Piece}
    (hruns : Parser.Runs (tokenize source) ps []) (hps : ps = front ++ p :: q :: back) :
    ∀ t ∈ p.span, ∀ u ∈ q.span, t.range.start.line < u.range.start.line := by
  obtain ⟨above, habove, -, hline, hmore⟩ := hruns.at_piece hps
  have hstop : p.stop <:+ tokenize source :=
    habove ▸ (List.suffix_append _ _).trans (List.suffix_append _ _)
  obtain ⟨gap, b, gap', hb, -, hsplit⟩ := hmore.behind
    (fun t ht => scanned_of_mem_tokenize (hstop.mem ht)) hline q List.mem_cons_self
  have hbreak : tokenize source = (above ++ (p.span ++ gap)) ++ b :: (gap' ++ (q.span ++ q.stop)) := by
    rw [habove, hsplit]
    simp
  intro t ht u hu
  exact (rows_tokenize source).line_lt hbreak hb t (by simp [ht]) u (by simp [hu])

/-- Exactly the bodies in which a statement stands behind a jump that ends them are reported, each
once. The report begins with the first token of that statement, on a later line than the jump, unless
parentheses close behind the range of the jump: then it begins with the first of these. It ends with
the last statement of the body. -/
theorem check_reports_dead (source : String) (terminators : List String) :
    check terminators (Program.parse (tokenize source)).1 (tokenize source) =
        ((Program.parse (tokenize source)).1.walk.filterMap body?).filterMap
          (judge terminators (tokenize source)) ∧
    ∃ lines : List (Head × List Token),
      lines.map Prod.fst = (Program.parse (tokenize source)).1.heads ∧
      lines.flatMap Prod.snd = codeOf (tokenize source) ∧
      (∀ line ∈ lines, line.1.Spelled line.2) ∧
      ∀ body ∈ (Program.parse (tokenize source)).1.walk.filterMap body?,
        (¬ HasDead terminators body → judge terminators (tokenize source) body = none) ∧
        (HasDead terminators body → ∃ before r kind value comments first more,
          Cut terminators body before r kind value comments first more ∧
          ∃ front own closing next back anchor last,
            lines = front ++ (.statement (.jump r kind value), own ++ closing) ::
              (.statement first, next) :: back ∧
            Token.Ceases r.stop own ∧ (∀ t ∈ closing, t.isPunctuation ")" = true) ∧
            (∀ t ∈ own ++ closing, ∀ u ∈ next, t.range.start.line < u.range.start.line) ∧
            (closing ++ next).head? = some anchor ∧
            ((first :: more).filter (!·.isComment)).getLast? = some last ∧
            judge terminators (tokenize source) body = some {
              code := id
              message := message kind
              severity := .warning
              range := ⟨anchor.range.start, last.range.stop⟩ }) := by
  obtain ⟨ps, hheads, hruns, -⟩ := Program.parse_lines source
  have hrows := rows_tokenize source
  have hcodes : (ps.map fun p => (p.head, codeOf p.span)).flatMap Prod.snd =
      codeOf (tokenize source) := by
    rw [List.flatMap_map, hruns.codeOf_eq, Token.codeOf_nil, List.append_nil]
  refine ⟨rfl, ps.map fun p => (p.head, codeOf p.span), ?_, hcodes, ?_, fun body hbody =>
    ⟨judge_eq_none, fun hdead => ?_⟩⟩
  · rw [List.map_map]
    exact hheads
  · intro line hline
    obtain ⟨p, hp, rfl⟩ := List.mem_map.1 hline
    exact hruns.spelled p hp
  · obtain ⟨before, r, kind, value, comments, first, more, hcut⟩ := hdead.exists_cut
    obtain ⟨front, jump, next, back, hps, hjump, hnext⟩ := hcut.exists_pieces hbody hheads
    have hspelled := hruns.spelled jump (by simp [hps])
    rw [hjump] at hspelled
    obtain ⟨own, closing, hown, hceases, hclosing⟩ := exists_own hspelled
    have hne : codeOf next.span ≠ [] := (hruns.spelled next (by simp [hps])).ne_nil
    obtain ⟨anchor, hanchor⟩ : ∃ anchor, (closing ++ codeOf next.span).head? = some anchor :=
      ⟨_, List.head?_eq_some_head (by simp [hne])⟩
    obtain ⟨last, hlast⟩ : ∃ last, ((first :: more).filter (!·.isComment)).getLast? = some last :=
      ⟨_, List.getLast?_eq_some_getLast (by simp [hcut.isCode])⟩
    refine ⟨before, r, kind, value, comments, first, more, hcut,
      front.map (fun p => (p.head, codeOf p.span)), own, closing, codeOf next.span,
      back.map (fun p => (p.head, codeOf p.span)), anchor, last, ?_, hceases, hclosing, ?_, hanchor,
      hlast, hcut.judge_eq hlast ?_⟩
    · simp [hps, hjump, hnext, hown]
    · intro t ht u hu
      rw [← hown] at ht
      exact line_lt_of_pieces hruns hps t (Token.mem_codeOf.1 ht).1 u (Token.mem_codeOf.1 hu).1
    -- Behind the range of the jump there are its parentheses, and then the next line.
    · have hsplit : codeOf (tokenize source) = front.flatMap (fun p => codeOf p.span) ++
          (own ++ (closing ++ (codeOf next.span ++ back.flatMap fun p => codeOf p.span))) := by
        rw [hruns.codeOf_eq, hps]
        simp [hown]
      rw [codeFrom_of_ceases hrows hsplit hceases, ← List.append_assoc, List.head?_append, hanchor]
      rfl

/-- The parenthesis that closes the value of the jump is reported as unreachable; the statement behind
the jump begins on the next line. -/
theorem check_begins_with_parenthesis :
    (check ["return"] (Program.parse (tokenize "return (x)\ny")).1 (tokenize "return (x)\ny")).map
      (·.range) = [⟨⟨0, 9⟩, ⟨1, 1⟩⟩] := by
  decide +kernel

end PineScript.Rule.Unreachable
