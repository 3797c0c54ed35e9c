import PineScript.Proofs.Parser.Levels
import PineScript.Proofs.Rule.Continuation
import PineScript.Proofs.Rule.Located
import PineScript.Proofs.Tree.Header

/-!
# Lines of headers

Main statement: in any document the headers of two statements have no physical line in common,
whether the statements are comments, could not be read, or stand one below the other; and each
header ends before the block of its statement begins (`Program.headers_share_no_line`). So no line
is judged for more than one of them.
-/

namespace PineScript

open Token (codeOf)

/-- The range has a part on the physical line. -/
def Range.RunsOver (r : Range) (line : Int) : Prop := r.start.line ≤ line ∧ line ≤ r.stop.line

namespace Stmt

/-- The headers have no line in common. -/
def Apart (s t : Stmt) : Prop := ∀ line, s.header.RunsOver line → ¬ t.header.RunsOver line

theorem Apart.symm {s t : Stmt} (h : s.Apart t) : t.Apart s := fun line ht hs => h line hs ht

theorem apart_of_lt {s t : Stmt} (h : s.header.stop.line < t.header.start.line) : s.Apart t := by
  rintro line ⟨-, hle⟩ ⟨hge, -⟩
  omega

instance : Std.Symm Apart := ⟨fun _ _ => Apart.symm⟩

end Stmt

/-! ## Lines of code -/

namespace Parser

/-- Each line of the script begins on a new physical line. -/
theorem Runs.pairwise_lines {all ts rest : List Token} {ps : List Piece} (hrows : Token.Rows all)
    (h : Runs ts ps rest) (hts : ts <:+ all) (hscans : Scans ts) :
    ps.Pairwise fun p q => ∀ t ∈ p.span, ∀ u ∈ codeOf q.span,
      t.range.start.line < u.range.start.line := by
  induction h with
  | done => exact .nil
  | @piece ts span stop rest last head ps hstart hlast hcode hspelled hline hmore ih =>
    have hspan : span ++ stop <:+ ts := hstart ▸ List.dropWhile_suffix _
    have hstop : stop <:+ ts := (List.suffix_append span stop).trans hspan
    refine .cons (fun q hq t ht u hu => ?_) (ih (hstop.trans hts) (hscans.suffix hstop))
    -- The code of a later line lies behind the break that ends this one.
    have hmem : u ∈ codeOf (stop.dropWhile Token.isLayout) := by
      rw [Token.codeOf_dropWhile_isLayout, hmore.codeOf_eq]
      exact List.mem_append_left _ (List.mem_flatMap.2 ⟨q, hq, hu⟩)
    cases hdrop : stop.dropWhile Token.isLayout with
    | nil => simp [hdrop, codeOf] at hmem
    | cons first more =>
      rw [hdrop] at hmem
      obtain ⟨front, b, gap, hb, -, rfl⟩ := exists_break (hscans.suffix hstop) hline hdrop
      obtain ⟨taken, hall⟩ := hspan.trans hts
      have hsplit : all = (taken ++ (span ++ front)) ++ b :: (gap ++ first :: more) := by
        simpa using hall.symm
      refine hrows.line_lt hsplit hb t ?_ u ?_
      · simp [ht]
      · exact List.mem_append_right _ (Token.mem_codeOf.1 hmem).1

end Parser

/-- The header of the statement on a line begins and ends with code of the line. -/
theorem Head.Spelled.exists_ends {head : Head} {ts : List Token} {s : Stmt} (h : head.Spelled ts)
    (hs : head.stmt? = some s) :
    (∃ t ∈ ts, t.range.start = s.header.start) ∧ ∃ t ∈ ts, t.range.stop = s.header.stop := by
  obtain ⟨before, own, after, rfl, -, -, ⟨first, hfirst, hstart⟩, ⟨last, hlast, hstop⟩⟩ := h.framed hs
  refine ⟨⟨first, ?_, hstart⟩, ⟨last, ?_, hstop⟩⟩
  · simp [List.mem_of_mem_head? hfirst]
  · simp [List.mem_of_getLast? hlast]

/-! ## Lines of comments -/

namespace Token

variable {tokens : List Token} {t u : Token}

/-- There is no code on the line of a comment that opens it. -/
theorem line_ne_of_comment (hrows : Rows tokens) (hfollows : tokens.IsChain Follows)
    (ht : t ∈ tokens) (hcomment : t.kind = .comment) (hlead : t.isLineLeading = true)
    (hu : u ∈ codeOf tokens) : u.range.start.line ≠ t.range.start.line := by
  obtain ⟨hmem, hcode⟩ := mem_codeOf.1 hu
  obtain ⟨front, behind, rfl⟩ := List.append_of_mem ht
  rcases List.mem_append.1 hmem with hfront | hbehind
  · exact Int.ne_of_lt ((List.pairwise_append.1 hrows.line_lt_of_leading).2.2 u hfront t
      List.mem_cons_self hlead)
  rcases List.mem_cons.1 hbehind with rfl | hbehind
  · rw [isLayout_iff.2 (.inr hcomment)] at hcode
    cases hcode
  cases behind with
  | nil => cases hbehind
  | cons b behind =>
    -- The token behind the comment is the break of its line.
    have hnext := (List.isChain_cons_cons.1 (List.isChain_append.1 hfollows).2.1).1
    have hbreak := hnext.closes hcomment
    have hsame := hnext.stays (by simp [hcomment])
    rcases List.mem_cons.1 hbehind with rfl | hbehind
    · rw [isLayout_iff.2 (.inl hbreak)] at hcode
      cases hcode
    · have hbreaks := (List.pairwise_append.1 hrows.breaks).2.1
      have hlt := (List.pairwise_cons.1 (List.pairwise_cons.1 hbreaks).2).1 u hbehind hbreak
      omega

/-- Two tokens that open the same line are one. -/
theorem eq_of_leading (hrows : Rows tokens) (ht : t ∈ tokens) (hu : u ∈ tokens)
    (htlead : t.isLineLeading = true) (hulead : u.isLineLeading = true)
    (hline : t.range.start.line = u.range.start.line) : t = u := by
  obtain ⟨more, hmore⟩ := hrows.filter_line_of_leading ht htlead
  obtain ⟨more', hmore'⟩ := hrows.filter_line_of_leading hu hulead
  rw [← hline, hmore] at hmore'
  exact (List.cons.inj hmore').1

end Token

namespace Stmt

/-- Headers that follow one another and end and begin on different lines. -/
theorem Follow.apart {s t : Stmt} (h : s.Follow t)
    (hst : s.header.stop.line ≠ t.header.start.line) (hts : t.header.stop.line ≠ s.header.start.line) :
    s.Apart t := by
  rcases h with h | h <;> rw [Position.le_def] at h
  · exact apart_of_lt (by omega)
  · exact Apart.symm (apart_of_lt (by omega))

end Stmt

/-! ## Documents -/

namespace Program

variable {source : String} {s t : Stmt}

/-- Each block was read with a number of levels left. -/
theorem exists_readWithin {ts : List Token} {b : Block} (h : .block b ∈ (parse ts).1.walk) :
    ∃ n, Parser.ReadWithin (finishOf ts) ts n b := by
  rw [walk_eq] at h
  rcases List.mem_cons.1 h with heq | hbelow
  · cases heq
  obtain ⟨_, hm, levels, hpath⟩ := Path.of_mem_walkFrom hbelow
  obtain ⟨top, htop, rfl⟩ := List.mem_map.1 hm
  rw [← Edge.node_stmt] at hpath
  exact ⟨_, ((Parser.parse_fits ts top htop).2 levels _ hpath).2 b rfl⟩

/-- A comment in the tree is one that opens a line. -/
theorem exists_comment {ts : List Token} (hs : s ∈ (parse ts).1.statements)
    (hcomment : s.isComment = true) :
    ∃ t ∈ ts, t.kind = .comment ∧ t.isLineLeading = true ∧ s = .comment t.range t.text := by
  have horigin : ∀ n, Parser.Origin (Parser.statement (Parser.expression n) (Parser.block n))
      (finishOf ts) ts s → ∃ t ∈ ts, t.kind = .comment ∧ t.isLineLeading = true ∧
        s = .comment t.range t.text := by
    rintro n (hown | ⟨indent, first, more, -, rfl⟩)
    · exact hown
    · rw [Parser.attempt_isComment] at hcomment
      cases hcomment
  obtain ⟨n, hn, hown⟩ := List.mem_flatMap.1 hs
  cases n with
  | program p =>
    obtain ⟨_, hroot, _, hpath⟩ := Path.of_mem_walkFrom hn
    have heq := hpath.eq_program rfl
    rw [List.mem_singleton.1 hroot] at heq
    obtain rfl : (parse ts).1 = p := Node.program.inj heq
    exact horigin _ (Parser.parse_fits ts s hown).1
  | block b =>
    obtain ⟨n, hread⟩ := exists_readWithin hn
    exact horigin n (hread.origin s hown)
  | stmt u =>
    cases u with
    | conditional b =>
      rw [Node.ownStatements] at hown
      split at hown
      · rw [List.mem_singleton.1 hown] at hcomment
        cases hcomment
      · cases hown
    | _ => cases hown
  | _ => cases hown

/-- The headers of statements that are no comments stand on lines of their own. -/
theorem pairwise_apart_code (source : String) :
    ((parse (tokenize source)).1.statements.filter (!·.isComment)).Pairwise Stmt.Apart := by
  obtain ⟨ps, hheads, hruns, -⟩ := parse_lines source
  have hrows := rows_tokenize source
  have hlines := hruns.pairwise_lines hrows (List.suffix_refl _) fun _ => scanned_of_mem_tokenize
  rw [← (perm_heads _).pairwise_iff Stmt.Apart.symm, ← hheads, List.pairwise_filterMap,
    List.pairwise_map]
  refine hlines.imp_of_mem fun {p q} hp hq hpq s hs t ht => Stmt.apart_of_lt ?_
  obtain ⟨-, last, hlast, hstop⟩ := (hruns.spelled p hp).exists_ends hs
  obtain ⟨⟨first, hfirst, hstart⟩, -⟩ := (hruns.spelled q hq).exists_ends ht
  have hlast := (Token.mem_codeOf.1 hlast).1
  have hmem : last ∈ tokenize source := by
    obtain ⟨-, front, hsplit⟩ := hruns.split hp
    rw [hsplit]
    exact List.mem_append_right _ (List.mem_append_left _ hlast)
  rw [← hstop, ← hstart, (hrows.flat last hmem).1]
  exact hpq last hlast first hfirst

/-- The header of a statement that is no comment begins and ends with code. -/
theorem exists_ends (hs : s ∈ (parse (tokenize source)).1.statements)
    (hcomment : s.isComment = false) :
    (∃ t ∈ codeOf (tokenize source), t.range.start = s.header.start) ∧
      ∃ t ∈ codeOf (tokenize source), t.range.stop = s.header.stop := by
  obtain ⟨ps, hheads, hruns, -⟩ := parse_lines source
  have hmem : s ∈ (parse (tokenize source)).1.heads.filterMap Head.stmt? :=
    (perm_heads _).mem_iff.2 (List.mem_filter.2 ⟨hs, by simp [hcomment]⟩)
  rw [← hheads] at hmem
  obtain ⟨_, hhead, hstmt⟩ := List.mem_filterMap.1 hmem
  obtain ⟨p, hp, rfl⟩ := List.mem_map.1 hhead
  obtain ⟨⟨first, hfirst, hstart⟩, ⟨last, hlast, hstop⟩⟩ := (hruns.spelled p hp).exists_ends hstmt
  have hsub : codeOf p.span ⊆ codeOf (tokenize source) := by
    intro t ht
    rw [hruns.codeOf_eq]
    exact List.mem_append_left _ (List.mem_flatMap.2 ⟨p, hp, ht⟩)
  exact ⟨⟨first, hsub hfirst, hstart⟩, ⟨last, hsub hlast, hstop⟩⟩

/-- The header of a comment has its line for itself. -/
theorem apart_of_comment (hs : s ∈ (parse (tokenize source)).1.statements)
    (ht : t ∈ (parse (tokenize source)).1.statements) (hcomment : s.isComment = true)
    (h : s.Follow t) : s.Apart t := by
  have hrows := rows_tokenize source
  obtain ⟨c, hc, hkind, hlead, rfl⟩ := exists_comment hs hcomment
  obtain ⟨hflat, hproper⟩ := hrows.flat c hc
  cases hother : t.isComment with
  | false =>
    obtain ⟨⟨first, hfirst, hstart⟩, ⟨last, hlast, hstop⟩⟩ := exists_ends ht hother
    have hfirstLine := Token.line_ne_of_comment hrows (follows_tokenize source) hc hkind hlead hfirst
    have hlastLine := Token.line_ne_of_comment hrows (follows_tokenize source) hc hkind hlead hlast
    have hlastFlat := (hrows.flat last (Token.mem_codeOf.1 hlast).1).1
    refine h.apart ?_ ?_
    · rw [← hstart]
      exact fun heq => hfirstLine (heq.symm.trans hflat)
    · rw [← hstop, hlastFlat]
      exact hlastLine
  | true =>
    obtain ⟨d, hd, -, hdlead, rfl⟩ := exists_comment ht hother
    have hdflat := (hrows.flat d hd).1
    have hline : c.range.start.line ≠ d.range.start.line := by
      intro hline
      obtain rfl := Token.eq_of_leading hrows hc hd hlead hdlead hline
      have hle : c.range.stop ≤ c.range.start := h.elim id id
      rw [Position.le_def] at hle
      rw [Position.lt_def] at hproper
      omega
    refine h.apart ?_ ?_
    · exact fun heq => hline (hflat.symm.trans heq)
    · exact fun heq => hline (heq.symm.trans hdflat)

/-- No two headers have a line in common. -/
theorem pairwise_apart (source : String) :
    (parse (tokenize source)).1.statements.Pairwise Stmt.Apart := by
  have hfollow : (parse (tokenize source)).1.statements.Pairwise Stmt.Follow :=
    (spelled_parse source).placed.pairwise_follow
  have hcode := List.pairwise_filter.1 (pairwise_apart_code source)
  refine (hfollow.and hcode).imp_of_mem fun {s t} hs ht ⟨hst, hcode⟩ => ?_
  cases hscomment : s.isComment with
  | true => exact apart_of_comment hs ht hscomment hst
  | false =>
    cases htcomment : t.isComment with
    | true => exact (apart_of_comment ht hs htcomment hst.symm).symm
    | false => exact hcode (by simp [hscomment]) (by simp [htcomment])

/-- A header ends on an earlier line than the block of its statement begins. -/
theorem header_stop_lt_block {b : Block} (hs : s ∈ (parse (tokenize source)).1.statements)
    (hb : .block b ∈ s.children) : s.header.stop.line < b.range.start.line := by
  have hplaced := (spelled_parse source).placed
  have hvisited : s.node ∈ (parse (tokenize source)).1.walk := Node.node_mem_walkFrom hs
  have hhead := hplaced.headFirst hvisited
  have hblock : .block b ∈ (parse (tokenize source)).1.walk :=
    Node.mem_walkFrom_of_child hvisited (s.children_node ▸ hb)
  obtain ⟨n, hread⟩ := exists_readWithin hblock
  obtain ⟨first, more, hstatements⟩ := List.exists_cons_of_ne_nil hread.ne_nil
  have hown : first ∈ b.statements := hstatements ▸ List.mem_cons_self
  have hfirst : first ∈ (parse (tokenize source)).1.statements :=
    List.mem_flatMap.2 ⟨.block b, hblock, hown⟩
  have hstart : b.range.start = first.header.start := by
    rw [hread.range_eq, first.header_start, hstatements]
    rfl
  -- The block is a part of the statement, so that its first statement is another one.
  have hne : s ≠ first := by
    rintro rfl
    have hinner := Node.size_lt_of_child (n := .block b) (List.mem_map_of_mem (f := Stmt.node) hown)
    have houter := Node.size_lt_of_child (n := s.node) (s.children_node ▸ hb)
    omega
  have hproper := hhead.proper
  have hafter := (hplaced.headFirst (Node.node_mem_walkFrom hfirst)).proper
  have hle : s.header.stop ≤ b.range.start := hhead.ahead (.block b) hb rfl
  rw [hstart] at hle ⊢
  rw [Position.le_def] at hproper hafter hle
  have hline : s.header.stop.line ≠ first.header.start.line := by
    intro hline
    have hapart : s.Apart first := (pairwise_apart source).forall hs hfirst hne
    have hends : s.header.RunsOver s.header.stop.line := ⟨by omega, Int.le_refl _⟩
    exact hapart _ hends ⟨Int.le_of_eq hline.symm, by omega⟩
  omega

end Program

/-! ## Reports -/

namespace Rule.Continuation

variable {tokens : List Token} {minIndent required n : Int}

theorem start_of_judgeLine {d : Diagnostic} (h : judgeLine required (onLine tokens n) = some d) :
    d.range.start.line = n := by
  unfold judgeLine at h
  obtain ⟨first, hfirst, h⟩ := Option.bind_eq_some_iff.1 h
  obtain ⟨last, -, h⟩ := Option.bind_eq_some_iff.1 h
  simp only at h
  split at h <;> cases h
  have hon := (List.mem_filter.1 (List.mem_of_mem_head? hfirst)).2
  exact eq_of_beq hon

/-- The reports on a statement are on further lines of its header, each on one of its own. -/
theorem sublist_judge (minIndent : Int) (tokens : List Token) (s : Stmt) :
    ((judge minIndent tokens s).map (·.range.start.line)).Sublist (furtherLines tokens s.header) := by
  have hlines (required : Int) (lines : List Int) :
      ((lines.filterMap fun n => judgeLine required (onLine tokens n)).map
        (·.range.start.line)).Sublist lines := by
    induction lines with
    | nil => exact List.nil_sublist _
    | cons n lines ih =>
      rw [List.filterMap_cons]
      split
      · exact ih.cons n
      · rename_i d hd
        rw [List.map_cons, start_of_judgeLine hd]
        exact ih.cons_cons n
  unfold judge
  dsimp only
  split
  · split
    · exact hlines _ _
    · exact List.nil_sublist _
  · exact List.nil_sublist _

/-- Where no two headers share a line, no line is reported twice. -/
theorem nodup_check {program : Program} (h : program.statements.Pairwise Stmt.Apart)
    (minIndent : Int) (tokens : List Token) :
    ((check minIndent program tokens).map (·.range.start.line)).Nodup := by
  rw [check, List.map_flatMap, List.nodup_flatMap]
  refine ⟨fun s _ => ?_, h.imp fun {s t} hst n hs ht => ?_⟩
  · exact ((pairwise_furtherLines tokens s.header).imp Int.ne_of_lt).sublist
      (sublist_judge minIndent tokens s)
  · have hs := mem_furtherLines.1 ((sublist_judge minIndent tokens s).subset hs)
    have ht := mem_furtherLines.1 ((sublist_judge minIndent tokens t).subset ht)
    exact hst n ⟨Int.le_of_lt hs.2.1, hs.2.2⟩ ⟨Int.le_of_lt ht.2.1, ht.2.2⟩

end Rule.Continuation

/-- In any document the headers of two statements have no physical line in common. Each is a part
of its statement and ends before the block of the statement begins. So each line is reported at most
once, however deep continuation lines have to be indented. -/
theorem Program.headers_share_no_line (source : String) :
    (parse (tokenize source)).1.statements.Pairwise
      (fun s t => ∀ line, s.header.RunsOver line → ¬ t.header.RunsOver line) ∧
    (∀ s ∈ (parse (tokenize source)).1.statements,
      s.header.start ≤ s.header.stop ∧ s.range.contains s.header = true ∧
        ∀ b, .block b ∈ s.children → s.header.stop < b.range.start) ∧
    ∀ minIndent, ((Rule.Continuation.check minIndent (parse (tokenize source)).1
      (tokenize source)).map (·.range.start.line)).Nodup := by
  have hapart := pairwise_apart source
  refine ⟨hapart, fun s hs => ?_, fun minIndent => Rule.Continuation.nodup_check hapart _ _⟩
  have hhead := (spelled_parse source).placed.headFirst (Node.node_mem_walkFrom hs)
  refine ⟨hhead.proper, ?_, fun b hb => ?_⟩
  · simp [Range.contains, s.header_start, hhead.within, Position.le_refl]
  · exact Position.lt_def.2 (.inl (header_stop_lt_block hs hb))

end PineScript
