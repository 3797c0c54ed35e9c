import Mathlib.Data.List.DropRight
import PineScript.Proofs.Grammar.Lines
import PineScript.Proofs.Parser.Joined

/-!
# Scripts are lines

The tokens of a script fall into the lines that its statements belong to, with layout between them.
What could not be read is a line from the first to the last code that was passed over.
-/

namespace PineScript

namespace Token

variable {t : Token} {ts : List Token}

theorem getLast?_codeOf (h : ts.getLast? = some t) (ht : t.isLayout = false) :
    (codeOf ts).getLast? = some t := by
  obtain ⟨front, rfl⟩ := List.getLast?_eq_some_iff.1 h
  rw [codeOf_append, codeOf_cons_of_code ht]
  simp

end Token

namespace Parser

open Token (codeOf codeOf_append codeOf_of_layout codeOf_cons_of_code)

variable {read : Int → Parser (Mended Stmt)} {indent : Int} {ctx : Context} {finish : Position}
  {first : Token} {ts more rest : List Token}

/-! ## Malformed lines -/

theorem LineEnds.behind_layout {gap : List Token} (hgap : ∀ t ∈ gap, t.isLayout = true)
    (h : LineEnds rest) : LineEnds (gap ++ rest) := by
  induction gap with
  | nil => exact h
  | cons t gap ih =>
    rw [List.forall_mem_cons] at hgap
    rcases Token.isLayout_iff.1 hgap.1 with ht | ht
    · exact .of_newline ht _
    · intro u us heq
      rw [List.cons_append, List.dropWhile_cons_of_pos (by simp [ht])] at heq
      exact ih hgap.2 u us heq

theorem skipLine_lineEnds (ts : List Token) : LineEnds (skipLine ts) := by
  cases h : skipLine ts with
  | nil => exact .nil
  | cons t more =>
    unfold skipLine at h
    have hhead := List.head?_dropWhile_not (fun t : Token => t.kind != .newline) ts
    rw [h] at hhead
    exact .of_newline (by simpa using hhead) more

theorem resync_lineEnds (indent : Int) (ts : List Token) : LineEnds (resync indent ts) := by
  fun_induction resync indent ts with
  | case1 ts _ => exact skipLine_lineEnds ts
  | case2 ts _ _ _ _ _ => exact skipLine_lineEnds ts
  | case3 _ _ _ _ _ _ ih => exact ih

/-- The tokens that recovery passes over are a line that ends with the last code among them. -/
theorem malformed_runs (hcode : first.isLayout = false) (hrest : rest <:+ more) (hline : LineEnds rest)
    (cause : Fault.Cause) :
    ∃ p, p.head = .statement (.malformed (codeRange first (consumed (first :: more) rest)) cause) ∧
      Runs (first :: more) [p] rest := by
  obtain ⟨passed, rfl⟩ := hrest
  -- The line is what is left without the layout at its end.
  have hsplit : (first :: passed).rdropWhile Token.isLayout ++
      (first :: passed).rtakeWhile Token.isLayout = first :: passed :=
    List.rdropWhile_append_rtakeWhile
  have hgap : ∀ t ∈ (first :: passed).rtakeWhile Token.isLayout, t.isLayout = true :=
    fun _ => List.mem_rtakeWhile_imp
  have hne : (first :: passed).rdropWhile Token.isLayout ≠ [] := by
    rw [ne_eq, List.rdropWhile_eq_nil_iff]
    exact fun h => by simp [hcode] at h
  have hlastcode := List.rdropWhile_last_not Token.isLayout (first :: passed) hne
  generalize (first :: passed).rdropWhile Token.isLayout = span at *
  generalize (first :: passed).rtakeWhile Token.isLayout = gap at *
  have hlast := List.getLast?_eq_some_getLast hne
  have hlastcode : (span.getLast hne).isLayout = false := by simpa using hlastcode
  have hcodeOf : codeOf (first :: passed) = codeOf span := by
    rw [← hsplit, codeOf_append, codeOf_of_layout hgap, List.append_nil]
  have hcodelast := Token.getLast?_codeOf hlast hlastcode
  have hrange : codeRange first (consumed (first :: (passed ++ rest)) rest) =
      ⟨first.range.start, (span.getLast hne).range.stop⟩ := by
    rw [← List.cons_append, consumed_append, codeRange]
    change first.range.span (((codeOf (first :: passed)).getLast?.getD first).range) = _
    rw [hcodeOf, hcodelast]
    rfl
  refine ⟨⟨_, span, gap ++ rest⟩, rfl, .piece ?_ hlast hlastcode ?_ (hline.behind_layout hgap)
    (.done hgap fun _ => hline)⟩
  · rw [List.dropWhile_cons_of_neg (by simp [hcode]), ← List.append_assoc, hsplit, List.cons_append]
  · rw [hrange]
    refine .statement (.malformed ?_ hcodelast)
    rw [← hcodeOf, codeOf_cons_of_code hcode]
    rfl

/-! ## Statements of a suite -/

theorem ownComments_isComment {layout : List Token} : ∀ s ∈ ownComments layout, s.isComment = true := by
  intro s hs
  obtain ⟨t, -, ht⟩ := List.mem_filterMap.1 hs
  split at ht
  · cases ht
    rfl
  · cases ht

/-- Behind the first token, the layout in a line makes no difference to where the code begins. -/
theorem exists_replayed {p : Piece} (hsolid : p.Solid) {front : List Token}
    (h : first :: more = front ++ (p.span ++ p.stop)) :
    ∃ more', first :: more' = front ++ (codeOf p.span ++ p.stop) := by
  obtain ⟨a, us, hspan, ha⟩ := hsolid.opens
  rw [hspan] at h ⊢
  rw [codeOf_cons_of_code ha]
  cases front with
  | nil =>
    obtain ⟨rfl, -⟩ := List.cons.inj h
    exact ⟨_, rfl⟩
  | cons t front =>
    obtain ⟨rfl, -⟩ := List.cons.inj h
    exact ⟨_, rfl⟩

/-- A line is not empty, so that less is left behind it. -/
theorem length_le_of_line {span stop front : List Token} (hspan : span ≠ []) (hrest : rest <:+ stop)
    (h : first :: more = front ++ (span ++ stop)) : rest.length ≤ more.length := by
  have hlen := congrArg List.length h
  have hpos := List.length_pos_iff.2 hspan
  have hle := hrest.length_le
  simp only [List.length_cons, List.length_append] at hlen
  omega

/-- The lines of an item are those of its statement. -/
theorem headsOf_item {layout : List Token} {s : Stmt} (hs : s.isComment = false) :
    Stmt.headsOf (ownComments layout ++ [s]) = .statement s :: s.headsBelow := by
  rw [Stmt.headsOf_append, Stmt.headsOf_comments ownComments_isComment, Stmt.headsOf, Stmt.headsOf, hs]
  simp

theorem headsOf_item_ne_nil {item : Mended (List Stmt)}
    (hcomment : ∀ first more, (attempt read indent ctx first more).1.value.isComment = false)
    (h : suiteItem read indent ctx ts = .ok (some item) rest) : Stmt.headsOf item.value ≠ [] := by
  obtain ⟨first, more, hdrop, hindent⟩ := exists_first_of_item h
  rw [suiteItem_of_first hdrop hindent] at h
  cases h
  rw [headsOf_item (hcomment first more)]
  exact List.cons_ne_nil _ _

/-- What could not be read is one line, and not a simple statement. -/
theorem recover_runs (indent : Int) (fault : Fault) {stopped : List Token}
    (hcode : first.isLayout = false) (hstopped : stopped <:+ first :: more) :
    ∃ ps, ps.map Piece.head = .statement (recover indent fault first (first :: more) stopped).1 ::
        (recover indent fault first (first :: more) stopped).1.headsBelow ∧
      Runs (first :: more) ps (recover indent fault first (first :: more) stopped).2 ∧
      ∀ p ∈ ps, p.head.isSimple = false := by
  obtain ⟨p, hhead, hruns⟩ :=
    malformed_runs hcode (resync_behind hcode hstopped) (resync_lineEnds indent stopped) fault.cause
  refine ⟨[p], ?_, hruns, fun q hq => ?_⟩
  · rw [List.map_singleton, hhead]
    rfl
  · rw [List.mem_singleton.1 hq, hhead]
    rfl

section

variable (hread : ∀ ts, Scans ts → ts.dropWhile Token.isLayout = ts →
    Folds (read indent) ⟨ctx.finish, false, none⟩ ts fun m => .statement m.value :: m.value.headsBelow)
  (hstop : ∀ ts, (read indent ⟨ctx.finish, false, none⟩ ts).rest <:+ ts)
include hread hstop

theorem attempt_runs (hcode : first.isLayout = false) (hts : Scans (first :: more)) :
    ∃ ps, ps.map Piece.head = .statement (attempt read indent ctx first more).1.value ::
        (attempt read indent ctx first more).1.value.headsBelow ∧
      Runs (first :: more) ps (attempt read indent ctx first more).2 ∧
      ∀ p ∈ ps, p.head.isSimple = true → ∀ front more', first :: more = front ++ (p.span ++ p.stop) →
        first :: more' = front ++ (codeOf p.span ++ p.stop) →
        attempt read indent ctx first more' = attempt read indent ctx first more := by
  by_cases hdeep : indent < indentOf indent first
  · obtain ⟨ps, hheads, hruns, hnone⟩ :=
      recover_runs indent ⟨.indentation, first.range⟩ hcode (List.suffix_refl _)
    simp only [attempt, hdeep, ↓reduceIte]
    exact ⟨ps, hheads, hruns, fun p hp hsimple => absurd hsimple (by simp [hnone p hp])⟩
  · cases hrun : read indent ⟨ctx.finish, false, none⟩ (first :: more) with
    | ok s rest =>
      obtain ⟨ps, hheads, hruns, hreplays⟩ :=
        hread _ hts (List.dropWhile_cons_of_neg (by simp [hcode])) s rest hrun
      simp only [attempt, hdeep, ↓reduceIte, hrun]
      refine ⟨ps, hheads, hruns, fun p hp hsimple front more' hold hnew => ?_⟩
      have hsame := hreplays p hp hsimple front hold
      rw [← hnew, hrun] at hsame
      rw [hsame]
    | fault fault stopped =>
      have hstopped := hstop (first :: more)
      rw [hrun] at hstopped
      obtain ⟨ps, hheads, hruns, hnone⟩ := recover_runs indent fault hcode hstopped
      simp only [attempt, hdeep, ↓reduceIte, hrun]
      exact ⟨ps, hheads, hruns, fun p hp hsimple => absurd hsimple (by simp [hnone p hp])⟩

theorem suiteItem_folds
    (hcomment : ∀ first more, (attempt read indent ctx first more).1.value.isComment = false)
    (hts : Scans ts) :
    Folds (suiteItem read indent) ctx ts fun o => Stmt.headsOf ((o.map (·.value)).getD []) := by
  intro o rest hitem
  rcases suiteItem_cases read indent ctx ts with hnone | ⟨item, rest', hsome⟩
  · rw [hnone] at hitem
    cases hitem
    exact ⟨[], rfl, .refl ts, by simp⟩
  · obtain ⟨first, more, hdrop, hindent⟩ := exists_first_of_item hsome
    have hcode := Token.isLayout_of_dropWhile hdrop
    obtain ⟨layout, hlayout, rfl⟩ : ∃ layout, (∀ t ∈ layout, t.isLayout = true) ∧
        ts = layout ++ first :: more :=
      ⟨ts.takeWhile Token.isLayout, fun _ => List.mem_takeWhile_imp,
        by rw [← hdrop, List.takeWhile_append_dropWhile]⟩
    obtain ⟨ps, hheads, hruns, hreplays⟩ :=
      attempt_runs hread hstop hcode (hts.suffix (List.suffix_append _ _))
    match ps, hheads, hruns, hreplays with
    | p :: ps, hheads, hruns, hreplays =>
      have hshort : (attempt read indent ctx first more).2.length ≤ more.length := by
        obtain ⟨hsuffix, front, hfront⟩ := hruns.split List.mem_cons_self
        obtain ⟨t, hlast, -⟩ := hruns.last p List.mem_cons_self
        exact length_le_of_line (by rintro h; simp [h] at hlast) hsuffix hfront
      rw [suiteItem_behind hlayout hcode hindent hshort] at hitem
      cases hitem
      refine ⟨p :: ps, ?_, hruns.of_dropWhile (by simp [hdrop, hcode]), ?_⟩
      · exact hheads.trans (headsOf_item (hcomment first more)).symm
      · intro q hq hsimple front hfront
        obtain ⟨hsuffix, left, hleft⟩ := hruns.split hq
        have hsolid := hruns.solid q hq hsimple
        obtain ⟨more', hmore'⟩ := exists_replayed hsolid hleft
        obtain rfl : front = layout ++ left := by
          refine List.append_cancel_right (hfront.symm.trans ?_)
          rw [List.append_assoc, ← hleft]
        -- Without the layout in one of its lines the item is the same, and still leaves as much.
        have hsame := hreplays q hq hsimple left more' hleft hmore'
        have hshort' : (attempt read indent ctx first more').2.length ≤ more'.length := by
          obtain ⟨a, us, hspan, ha⟩ := hsolid.opens
          rw [hsame]
          exact length_le_of_line (by simp [hspan, codeOf_cons_of_code ha]) hsuffix hmore'
        rw [List.append_assoc, ← hmore', suiteItem_behind hlayout hcode hindent hshort', hsame,
          suiteItem_behind hlayout hcode hindent hshort]

/-! ## Suites -/

/-- By induction on the items: each takes its lines, behind which the next one begins a line. -/
theorem items_folds
    (hcomment : ∀ first more, (attempt read indent ctx first more).1.value.isComment = false)
    (hkeeps : ∀ E finish ts, Lasts (Exchange.variation E) (read indent) ⟨finish, false, none⟩ ts)
    (hts : Scans ts) :
    Folds (collect (suiteItem read indent)) ctx ts fun items =>
      Stmt.headsOf (items.flatMap (·.value)) := by
  induction hlen : ts.length using Nat.strongRecOn generalizing ts with
  | ind k ih =>
    rw [collect_eq_bind fun _ _ _ _ => suiteItem_length]
    intro items rest hitems
    obtain ⟨o, mid, hitem, hmore⟩ := exists_of_bind_ok hitems
    obtain ⟨ps, hfolded⟩ := suiteItem_folds hread hstop hcomment hts o mid hitem
    cases o with
    | none =>
      cases hmore
      exact ⟨ps, hfolded.first⟩
    | some item =>
      obtain ⟨more, left, hcollect, hpure⟩ := exists_of_bind_ok hmore
      cases hpure
      -- The lines of the next items follow, since this one ends with its line.
      have hmid := hts.suffix hfolded.runs.suffix
      obtain ⟨qs, hnext⟩ := ih mid.length (hlen ▸ suiteItem_length hitem) hmid rfl more rest hcollect
      have hne : ps ≠ [] := by
        rintro rfl
        exact headsOf_item_ne_nil hcomment hitem hfolded.heads.symm
      have hheads : Stmt.headsOf ((item :: more).flatMap (·.value)) =
          Stmt.headsOf item.value ++ Stmt.headsOf (more.flatMap (·.value)) := by
        rw [List.flatMap_cons, Stmt.headsOf_append]
      refine ⟨ps ++ qs, ?_⟩
      simp only [hheads]
      exact hfolded.append hmid (hfolded.runs.lineEnds (.inr hne))
        (suiteItem_withstands hkeeps ts) hitem hnext.first

theorem suite_folds
    (hcomment : ∀ first more, (attempt read indent ctx first more).1.value.isComment = false)
    (hkeeps : ∀ E finish ts, Lasts (Exchange.variation E) (read indent) ⟨finish, false, none⟩ ts)
    (hts : Scans ts) : Folds (suite read indent) ctx ts fun body => Stmt.headsOf body.value :=
  (items_folds hread hstop hcomment hkeeps hts).map fun _ => rfl

end

/-! ## Blocks -/

/-- The first code is the same without the layout in a line behind it. -/
theorem head?_dropWhile_replayed {p : Piece} (hsolid : p.Solid) (front : List Token) :
    ((front ++ (codeOf p.span ++ p.stop)).dropWhile Token.isLayout).head? =
      ((front ++ (p.span ++ p.stop)).dropWhile Token.isLayout).head? := by
  obtain ⟨a, us, hspan, ha⟩ := hsolid.opens
  rw [hspan, codeOf_cons_of_code ha]
  simp only [List.dropWhile_append, List.cons_append]
  split
  · rw [List.dropWhile_cons_of_neg (by simp [ha]), List.dropWhile_cons_of_neg (by simp [ha])]
    rfl
  · rename_i hne
    cases h : front.dropWhile Token.isLayout with
    | nil => simp [h] at hne
    | cons t more => rfl

section

variable {header : Int} {body : Int → Token → Parser (Mended Block)}

theorem under_folds {heads : Mended Block → List Head}
    (hbody : ∀ indent first, Folds (body indent first) ctx ts heads) (o : Option Token) :
    Folds (under header body o) ctx ts heads := by
  have hfault : Folds (failHere .missingBlock) ctx ts heads := by
    intro b rest hread
    cases hread
  cases o with
  | none => exact hfault
  | some first =>
    change Folds (if _ then _ else _) ctx ts heads
    split
    · exact hfault
    · exact hbody _ _

theorem indented_folds {heads : Mended Block → List Head} (hctx : ctx.bracketed = false) (hts : Scans ts)
    (hbody : ∀ indent first, Folds (body indent first) ctx ts heads) :
    Folds (indented header body) ctx ts heads := by
  rw [indented_eq]
  intro b rest hread
  obtain ⟨_, mid, hend, hmore⟩ := exists_of_bind_ok hread
  obtain ⟨rfl, hline⟩ := (wp_of_ok hend).1 (wp_endOfLine_lineEnds hctx)
  obtain ⟨ps, hfolded⟩ := under_folds hbody _ b rest hmore
  refine ⟨ps, hfolded.heads, hfolded.runs, fun p hp hsimple => ?_⟩
  have hsolid := hfolded.runs.solid p hp hsimple
  refine .behind (fun _ => withstands_of_steady (endOfLine_steady ctx mid)) hend hsolid
    (hfolded.runs.behind hts hline p hp) fun front hfront => ?_
  have hsame := hfolded.replays p hp hsimple front hfront
  have hfirst := head?_dropWhile_replayed hsolid front
  rw [← hfront] at hfirst
  exact hfirst ▸ hsame

theorem indented_lineEnds {b : Mended Block} (hctx : ctx.bracketed = false)
    (h : indented header body ctx ts = .ok b rest) : LineEnds ts := by
  rw [indented_eq] at h
  obtain ⟨_, mid, hend, -⟩ := exists_of_bind_ok h
  exact ((wp_of_ok hend).1 (wp_endOfLine_lineEnds hctx)).2

end

/-- The statements below each other, whose blocks are lines. -/
theorem statements_fold {n : Nat} {block : Int → Parser (Mended Block)}
    (hblock : Lays block ⟨ctx.finish, false, none⟩) (hts : Scans ts) :
    Folds (suite (statement (expression n) block) indent) ctx ts fun body =>
      Stmt.headsOf body.value := by
  have hkeeps (E : Exchange) (finish : Position) (us : List Token) :
      Lasts E.variation (statement (expression n) block indent) ⟨finish, false, none⟩ us :=
    statement_lasts (expression_sturdy _ n) (hblock.keeps _) (.inl rfl) rfl us
  exact suite_folds (fun us hus hcode => statement_folds hblock hus hcode)
    (fun us => (hkeeps default _ us).suffix) (attempt_isComment _ _ indent ctx) hkeeps hts

theorem blockOf_heads (finish : Position) (ss : List Stmt) :
    (blockOf finish ss).heads = Stmt.headsOf ss := by
  unfold blockOf
  split <;> rfl

theorem block_lays (n : Nat) (finish : Position) : Lays (block n) ⟨finish, false, none⟩ := by
  induction n with
  | zero =>
    refine ⟨(block_keeps · 0), fun indent ts hts => ?_, fun _ _ _ _ => indented_lineEnds rfl⟩
    refine indented_folds rfl hts fun _ _ b rest hread => ?_
    cases hread
  | succ n ih =>
    refine ⟨(block_keeps · (n + 1)), fun indent ts hts => ?_, fun _ _ _ _ => indented_lineEnds rfl⟩
    refine indented_folds rfl hts fun deeper _ b rest hread => ?_
    obtain ⟨body, mid, hsuite, hblock⟩ := exists_of_bind_ok hread
    cases hblock
    obtain ⟨ps, hfolded⟩ := statements_fold ih hts body rest hsuite
    simp only [blockOf_heads]
    exact ⟨ps, hfolded.first⟩

/-! ## Scripts -/

theorem script_folds (finish : Position) (hts : Scans ts) :
    Folds script ⟨finish, false, none⟩ ts fun body => Stmt.headsOf body.value := by
  intro body rest hread
  obtain ⟨statements, mid, hsuite, hscript⟩ := exists_of_bind_ok hread
  cases hscript
  obtain ⟨ps, hfolded⟩ := statements_fold (block_lays nestingLimit finish) hts statements mid hsuite
  have hcomments : Stmt.headsOf (if mid.all Token.isLayout then ownComments mid else []) = [] := by
    split
    · exact Stmt.headsOf_comments ownComments_isComment
    · rfl
  have hrest : Runs mid [] (if mid.all Token.isLayout then [] else mid) := by
    split
    · rename_i hlayout
      have hdone := @Runs.done mid [] (by simpa using hlayout) fun _ => .nil
      rwa [List.append_nil] at hdone
    · exact .refl mid
  have hruns := hfolded.runs.append hrest
  rw [List.append_nil] at hruns
  simp only [Stmt.headsOf_append, hcomments, List.append_nil]
  exact ⟨ps, hfolded.heads, hruns, fun p hp hsimple => (hfolded.replays p hp hsimple).first⟩

/-- Where no line is indented less than a script, all of it is read. -/
theorem all_isLayout_of_items {items : List (Mended (List Stmt))} (hindent : ∀ t ∈ ts, 0 ≤ indentOf 0 t)
    (h : Items (suiteItem topStatement 0) ctx ts items rest) : ∀ t ∈ rest, t.isLayout = true := by
  induction h with
  | @stop ts rest hstop =>
    have hstay : rest = ts := by
      rcases suiteItem_cases topStatement 0 ctx ts with hnone | ⟨item, left, hsome⟩
      · rw [hnone] at hstop
        cases hstop
        rfl
      · rw [hsome] at hstop
        cases hstop
    rw [hstay]
    exact all_isLayout_of_end hindent hstop
  | @item _ _ ts mid rest hitem _ _ ih =>
    have hsuffix : (suiteItem topStatement 0 ctx ts).rest <:+ ts :=
      suiteItem_suffix (@statement_keeps .still nestingLimit 0 (.inl rfl)) ts
    rw [hitem] at hsuffix
    exact ih fun t ht => hindent t (hsuffix.mem ht)

theorem exists_script (ctx : Context) (hindent : ∀ t ∈ ts, 0 ≤ indentOf 0 t) :
    ∃ body, script ctx ts = .ok body [] := by
  obtain ⟨items, rest, hitems⟩ := exists_items topStatement 0 ctx ts
  have hscript := script_of_suite (suite_of_items hitems)
  have hlayout : rest.all Token.isLayout = true := by simpa using all_isLayout_of_items hindent hitems
  simp only [hlayout, ↓reduceIte] at hscript
  exact ⟨_, hscript⟩

/-- Without the layout in a line the tokens end at the same place. -/
theorem finishOf_replayed {front span stop : List Token} {last : Token}
    (hlast : span.getLast? = some last)
    (hcode : last.isLayout = false) :
    finishOf (front ++ (codeOf span ++ stop)) = finishOf (front ++ (span ++ stop)) := by
  have hsame := Token.getLast?_codeOf hlast hcode
  simp only [finishOf, List.getLast?_append, hlast, hsame]

end Parser

/-- The tokens of a script are the lines of its statements. A simple statement may be written on one
line. -/
theorem Program.parse_lines (source : String) :
    ∃ ps : List Piece, ps.map Piece.head = (Program.parse (tokenize source)).1.heads ∧
      Parser.Runs (tokenize source) ps [] ∧
      ∀ p ∈ ps, p.head.isSimple = true → ∀ front, tokenize source = front ++ (p.span ++ p.stop) →
        Program.parse (front ++ (Token.codeOf p.span ++ p.stop)) = Program.parse (tokenize source) := by
  have hindent : ∀ t ∈ tokenize source, 0 ≤ Parser.indentOf 0 t :=
    fun _ => indentOf_nonneg_of_mem_tokenize
  obtain ⟨body, hscript⟩ := Parser.exists_script ⟨finishOf (tokenize source), false, none⟩ hindent
  obtain ⟨ps, hheads, hruns, hreplays⟩ :=
    Parser.script_folds _ (fun _ => scanned_of_mem_tokenize) body [] hscript
  refine ⟨ps, ?_, hruns, fun p hp hsimple front hfront => ?_⟩
  · rw [Parser.parse_of_script hscript]
    exact hheads
  · obtain ⟨last, hlast, hcode⟩ := hruns.last p hp
    have hsame := hreplays p hp hsimple front hfront
    have hfinish := @Parser.finishOf_replayed front _ p.stop _ hlast hcode
    rw [← hfront] at hfinish
    rw [hscript] at hsame
    rw [Parser.parse_of_script hscript, Parser.parse_of_script (hfinish ▸ hsame), hfinish]

end PineScript
