import PineScript.Diagnostic.Suppression
import PineScript.Proofs.Lexer.Rows
import PineScript.Rule.Continuation

/-!
# What suppression comments take away

A comment asks for what its first directive of a kind says; further ones in the same comment are not
read. Of all comments that hold a directive for the same place, the last one decides: main statement
`apply_heeds_last`. A comment in front of it has no effect, so one more `disable-file` comment can
bring back what was silenced before (`apply_forgets_earlier`). A line of a document holds one comment
at most, so on lines no comment is passed over.
-/

namespace PineScript.Suppression

open Rule.Continuation (onLine)

/-- A comment with a directive, the first one in it of this kind. -/
def Directs (word : List Char) (t : Token) (coverage : Coverage) : Prop :=
  t.kind = .comment ∧ directive? word t.text.toList = some coverage

/-- Some comment covers the code. -/
def Covers (word : List Char) (ts : List Token) (code : String) : Prop :=
  ∃ t ∈ ts, ∃ coverage, Directs word t coverage ∧ coverage.covers code = true

/-- A comment with a directive, behind which there is no other. -/
def LastDirects (word : List Char) (ts : List Token) (coverage : Coverage) : Prop :=
  ∃ front t behind, ts = front ++ t :: behind ∧ Directs word t coverage ∧
    ∀ u ∈ behind, ∀ other, ¬Directs word u other

/-- The last comment that holds a directive covers the code. -/
def LastCovers (word : List Char) (ts : List Token) (code : String) : Prop :=
  ∃ coverage, LastDirects word ts coverage ∧ coverage.covers code = true

/-- Some comment in the document or on the line asks for silence. -/
def Covered (ts : List Token) (d : Diagnostic) : Prop :=
  Covers fileWord ts d.code ∨ Covers lineWord (onLine ts d.range.start.line) d.code

/-- The last comment that has a say asks for silence, in the document or on the line. -/
def Silenced (ts : List Token) (d : Diagnostic) : Prop :=
  LastCovers fileWord ts d.code ∨ LastCovers lineWord (onLine ts d.range.start.line) d.code

/-! ## The last directive -/

/-- The last directive in the comments. -/
def latest? (word : List Char) (ts : List Token) : Option Coverage :=
  ((comments ts).filterMap fun t => directive? word t.text.toList).getLast?

section

variable {word : List Char} {ts : List Token} {t : Token} {coverage : Coverage} {code : String}

theorem latest?_append (front behind : List Token) :
    latest? word (front ++ behind) = (latest? word behind).or (latest? word front) := by
  rw [latest?, comments, List.filter_append, List.filterMap_append, List.getLast?_append]
  rfl

theorem latest?_cons (behind : List Token) :
    latest? word (t :: behind) = (latest? word behind).or (latest? word [t]) :=
  latest?_append [t] behind

theorem latest?_singleton : latest? word [t] = some coverage ↔ Directs word t coverage := by
  by_cases hkind : t.kind = .comment
  · have hcomments : comments [t] = [t] := by simp [comments, hkind]
    rw [latest?, hcomments, List.filterMap_cons, List.filterMap_nil, Directs]
    cases directive? word t.text.toList <;> simp [hkind]
  · simp [latest?, comments, Directs, hkind]

theorem latest?_eq_none_iff : latest? word ts = none ↔ ∀ t ∈ ts, ∀ c, ¬Directs word t c := by
  induction ts with
  | nil => simp [latest?, comments]
  | cons t ts ih =>
    rw [latest?_cons, Option.or_eq_none_iff, ih, List.forall_mem_cons, and_comm,
      Option.eq_none_iff_forall_ne_some]
    simp only [ne_eq, latest?_singleton]

theorem latest?_eq_some_iff : latest? word ts = some coverage ↔ LastDirects word ts coverage := by
  constructor
  · intro h
    induction ts with
    | nil => cases h
    | cons t ts ih =>
      rw [latest?_cons, Option.or_eq_some_iff] at h
      rcases h with h | ⟨hnone, h⟩
      · obtain ⟨front, u, behind, rfl, hu, hbehind⟩ := ih h
        exact ⟨t :: front, u, behind, rfl, hu, hbehind⟩
      · exact ⟨[], t, ts, rfl, latest?_singleton.1 h, latest?_eq_none_iff.1 hnone⟩
  · rintro ⟨front, t, behind, rfl, ht, hbehind⟩
    rw [latest?_append, latest?_cons, latest?_eq_none_iff.2 hbehind, latest?_singleton.2 ht]
    rfl

theorem silences_latest? : silences (latest? word ts) code = true ↔ LastCovers word ts code := by
  simp [silences, Option.any_eq_true, latest?_eq_some_iff, LastCovers]

instance (word : List Char) (ts : List Token) (code : String) :
    Decidable (LastCovers word ts code) :=
  decidable_of_iff _ silences_latest?

theorem LastCovers.covers (h : LastCovers word ts code) : Covers word ts code := by
  obtain ⟨coverage, ⟨front, t, behind, rfl, ht, -⟩, hcode⟩ := h
  exact ⟨t, by simp, coverage, ht, hcode⟩

/-- Where all directives ask for the same, it does not matter which one counts. -/
theorem Covers.lastCovers (h : Covers word ts code)
    (hsame : ∀ t ∈ ts, ∀ u ∈ ts, ∀ a b, Directs word t a → Directs word u b → a = b) :
    LastCovers word ts code := by
  obtain ⟨t, ht, coverage, hdirects, hcode⟩ := h
  cases hlast : latest? word ts with
  | none => exact absurd hdirects (latest?_eq_none_iff.1 hlast t ht coverage)
  | some last =>
    obtain ⟨front, u, behind, rfl, hu, hbehind⟩ := latest?_eq_some_iff.1 hlast
    refine ⟨last, ⟨front, u, behind, rfl, hu, hbehind⟩, ?_⟩
    rwa [hsame u (by simp) t ht last coverage hu hdirects]

end

theorem ofLine_eq (ts : List Token) (n : Int) : ofLine ts n = latest? lineWord (onLine ts n) := by
  rw [ofLine, latest?, comments, comments, onLine, List.filter_filter, List.filter_filter]
  simp only [Bool.and_comm]

instance (ts : List Token) (d : Diagnostic) : Decidable (Silenced ts d) :=
  inferInstanceAs (Decidable (_ ∨ _))

theorem apply_eq (ts : List Token) (ds : List Diagnostic) :
    apply ts ds = ds.filter fun d => ¬Silenced ts d := by
  refine List.filter_congr fun d _ => ?_
  have hsilenced : (silences (ofFile ts) d.code ||
      silences (ofLine ts d.range.start.line) d.code) = decide (Silenced ts d) := by
    rw [Bool.eq_iff_iff, Bool.or_eq_true, decide_eq_true_iff, ofLine_eq, silences_latest?]
    exact or_congr silences_latest? .rfl
  rw [hsilenced, decide_not]

/-! ## One more comment -/

section

variable {front behind : List Token} {t : Token}

/-- A comment without a directive for lines changes nothing on any line. -/
theorem latest?_onLine_insert (h : ∀ c, ¬Directs lineWord t c) (n : Int) :
    latest? lineWord (onLine (front ++ t :: behind) n) =
      latest? lineWord (onLine (front ++ behind) n) := by
  have ht : latest? lineWord [t] = none := latest?_eq_none_iff.2 (by simpa using h)
  rw [onLine, onLine, List.filter_append, List.filter_append, List.filter_cons]
  split
  · rw [latest?_append, latest?_cons, ht, Option.or_none, ← latest?_append]
  · rfl

/-- A directive in front of another one for the document has no effect. -/
theorem apply_insert_of_later (hline : ∀ c, ¬Directs lineWord t c)
    (hlater : ∃ u ∈ behind, ∃ c, Directs fileWord u c) (ds : List Diagnostic) :
    apply (front ++ t :: behind) ds = apply (front ++ behind) ds := by
  have hsome : latest? fileWord behind ≠ none := by
    obtain ⟨u, hu, c, hc⟩ := hlater
    exact fun hnone => latest?_eq_none_iff.1 hnone u hu c hc
  obtain ⟨last, hlast⟩ := Option.ne_none_iff_exists'.1 hsome
  have hfile : ofFile (front ++ t :: behind) = ofFile (front ++ behind) := by
    change latest? _ _ = latest? _ _
    rw [latest?_append, latest?_append, latest?_cons, hlast]
    rfl
  simp only [apply, hfile, ofLine_eq, latest?_onLine_insert hline]

/-- A directive behind all others for the document takes their place. -/
theorem apply_insert_of_last {coverage : Coverage} (hfile : Directs fileWord t coverage)
    (hline : ∀ c, ¬Directs lineWord t c) (hlast : ∀ u ∈ behind, ∀ c, ¬Directs fileWord u c)
    (ds : List Diagnostic) :
    apply (front ++ t :: behind) ds = ds.filter fun d =>
      ¬(coverage.covers d.code = true ∨
        LastCovers lineWord (onLine (front ++ behind) d.range.start.line) d.code) := by
  have hlatest : ofFile (front ++ t :: behind) = some coverage :=
    latest?_eq_some_iff.2 ⟨front, t, behind, rfl, hfile, hlast⟩
  refine List.filter_congr fun d _ => ?_
  rw [hlatest, ofLine_eq, latest?_onLine_insert hline]
  simp [← silences_latest?, silences]

end

/-! ## Documents -/

/-- A comment takes all that is left of its line. -/
theorem length_comments_markedLine (number : Nat) (line : List Char) (closed : Bool) :
    (comments (Lexer.markedLine number line closed)).length ≤ 1 := by
  have hpairs : (comments (Lexer.markedLine number line closed)).Pairwise
      fun s t => s.kind = .comment → t.kind = .newline :=
    (Lexer.comments_markedLine number line closed).sublist List.filter_sublist
  have hkind : ∀ t ∈ comments (Lexer.markedLine number line closed), t.kind = .comment :=
    fun t ht => eq_of_beq (List.mem_filter.1 ht).2
  generalize comments (Lexer.markedLine number line closed) = found at hpairs hkind ⊢
  rcases found with _ | ⟨t, _ | ⟨u, more⟩⟩
  · simp
  · simp
  · have hbreak := (List.pairwise_cons.1 hpairs).1 u List.mem_cons_self (hkind t List.mem_cons_self)
    cases hbreak.symm.trans (hkind u (by simp))

theorem length_comments_onLine (source : String) (n : Int) :
    (comments (onLine (tokenize source) n)).length ≤ 1 := by
  cases hline : onLine (tokenize source) n with
  | nil => simp [comments]
  | cons t ts =>
    have ht : t ∈ onLine (tokenize source) n := hline ▸ List.mem_cons_self
    rw [onLine, List.mem_filter, beq_iff_eq] at ht
    obtain ⟨m, -, hm, hon⟩ := Lexer.on_of_mem_documentTokens ht.1
    have hmarked := Lexer.filter_line_documentTokens (Nat.zero_add _ ▸ hm) 0
    rw [← hline, ← ht.2, hon.1, onLine, tokenize]
    simp only [Nat.zero_add, Int.natCast_zero, Int.zero_add] at hmarked
    rw [hmarked]
    exact length_comments_markedLine ..

/-- On a line of a document every comment counts. -/
theorem lastCovers_onLine_iff (source : String) (n : Int) (code : String) :
    LastCovers lineWord (onLine (tokenize source) n) code ↔
      Covers lineWord (onLine (tokenize source) n) code := by
  refine ⟨LastCovers.covers, fun h => h.lastCovers fun t ht u hu a b ha hb => ?_⟩
  have hmem : ∀ v ∈ onLine (tokenize source) n, ∀ c, Directs lineWord v c →
      v ∈ comments (onLine (tokenize source) n) := fun v hv c hc => by
    simpa [comments, hc.1] using hv
  have ht := hmem t ht a ha
  have hu := hmem u hu b hb
  obtain ⟨v, hv⟩ : ∃ v, comments (onLine (tokenize source) n) = [v] :=
    List.length_eq_one_iff.1
      (Nat.le_antisymm (length_comments_onLine source n) (List.length_pos_of_mem ht))
  rw [hv, List.mem_singleton] at ht hu
  rw [ht] at ha
  rw [hu] at hb
  exact Option.some.inj (ha.2.symm.trans hb.2)

/-! ## Which diagnostics are taken away -/

/-- A diagnostic is taken away if the last directive for the document covers its code, or the last
one on the line where it starts, and the others stay in their order. Nothing is taken away that no
comment asks for. In a document every comment with a directive for its line counts, by the first
directive in it, and those for the document all count if they ask for the same. What one more
comment for the document asks for is void in front of another one, and takes the place of all that
others ask for behind them. -/
theorem apply_heeds_last (ts : List Token) (ds : List Diagnostic) :
    apply ts ds = ds.filter (fun d => ¬Silenced ts d) ∧
    (∀ d, Silenced ts d → Covered ts d) ∧
    (∀ source d, ts = tokenize source →
      (Silenced ts d ↔ LastCovers fileWord ts d.code ∨
        Covers lineWord (onLine ts d.range.start.line) d.code) ∧
      ((∀ t ∈ ts, ∀ u ∈ ts, ∀ a b, Directs fileWord t a → Directs fileWord u b → a = b) →
        (Silenced ts d ↔ Covered ts d))) ∧
    ∀ front t behind coverage, ts = front ++ behind → Directs fileWord t coverage →
      (∀ c, ¬Directs lineWord t c) →
      ((∃ u ∈ behind, ∃ c, Directs fileWord u c) →
        apply (front ++ t :: behind) ds = apply ts ds) ∧
      ((∀ u ∈ behind, ∀ c, ¬Directs fileWord u c) →
        apply (front ++ t :: behind) ds = ds.filter fun d =>
          ¬(coverage.covers d.code = true ∨
            LastCovers lineWord (onLine ts d.range.start.line) d.code)) := by
  refine ⟨apply_eq ts ds, fun d h => h.imp LastCovers.covers LastCovers.covers, ?_, ?_⟩
  · rintro source d rfl
    have hline := lastCovers_onLine_iff source d.range.start.line d.code
    exact ⟨or_congr .rfl hline,
      fun hsame => or_congr ⟨LastCovers.covers, fun h => h.lastCovers hsame⟩ hline⟩
  · rintro front t behind coverage rfl hfile hline
    exact ⟨fun hlater => apply_insert_of_later hline hlater ds,
      fun hlast => apply_insert_of_last hfile hline hlast ds⟩

/-- A second comment for the document brings back what the first silences. -/
theorem apply_forgets_earlier :
    apply (tokenize "// pine-lint: disable-file: A")
      [⟨"A", "m", .warning, ⟨⟨0, 0⟩, ⟨0, 1⟩⟩, "pine-lint"⟩] = [] ∧
    Covered (tokenize "// pine-lint: disable-file: A\n// pine-lint: disable-file: B")
      ⟨"A", "m", .warning, ⟨⟨0, 0⟩, ⟨0, 1⟩⟩, "pine-lint"⟩ ∧
    apply (tokenize "// pine-lint: disable-file: A\n// pine-lint: disable-file: B")
      [⟨"A", "m", .warning, ⟨⟨0, 0⟩, ⟨0, 1⟩⟩, "pine-lint"⟩] =
        [⟨"A", "m", .warning, ⟨⟨0, 0⟩, ⟨0, 1⟩⟩, "pine-lint"⟩] := by
  refine ⟨by decide +kernel, .inl ⟨⟨.comment, "// pine-lint: disable-file: A",
    ⟨⟨0, 0⟩, ⟨0, 29⟩⟩, some 0⟩, by decide +kernel, .codes ["A"], ⟨rfl, by decide +kernel⟩,
    by decide +kernel⟩, by decide +kernel⟩

end PineScript.Suppression
