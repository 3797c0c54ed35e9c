import PineScript.Proofs.Grammar.Sound

/-!
# Where expressions end

Behind an expression that was read, the next line of code does not carry it on: no operator of any
level opens that line, nor does a question mark.
-/

namespace PineScript.Parser

variable {ctx : Context} {ts rest : List Token}

/-- The next line does not open with an operator of these levels. -/
def Rests (levels : List (List BinaryOp)) (ctx : Context) (rest : List Token) : Prop :=
  ∀ level ∈ levels, joinLine (level.map BinaryOp.text) ctx rest = .ok () rest

/-- The next line does not carry an expression on. -/
structure Settles (ctx : Context) (rest : List Token) : Prop where
  operators : Rests BinaryOp.levels ctx rest
  question : joinLine ["?"] ctx rest = .ok () rest

/-- Whether a line is joined depends on the spelling of its first token only. -/
theorem joinLine_of_spelling {spellings spellings' : List String} {margin : Int} {t : Token}
    {more : List Token} (hmargin : ctx.margin = some margin)
    (hdrop : rest.dropWhile Token.isLayout = t :: more) (hcarries : carriesOn margin spellings t = true)
    (hmem : t.text ∈ spellings') (hstay : joinLine spellings' ctx rest = .ok () rest) :
    joinLine spellings ctx rest = .ok () rest := by
  have hcarries' : carriesOn margin spellings' t = true := by
    obtain ⟨hindent, hkind, -⟩ := carriesOn_iff.1 hcarries
    exact carriesOn_iff.2 ⟨hindent, hkind, hmem⟩
  simp only [joinLine, hmargin, hdrop, hcarries, hcarries', ↓reduceIte] at hstay ⊢
  exact hstay

theorem exists_level (op : BinaryOp) : ∃ level ∈ BinaryOp.levels, op ∈ level := by
  cases op <;> decide

theorem Settles.noJoin (h : Settles ctx rest) {spellings : List String}
    (hspellings : ∀ s ∈ spellings, Carries s) : joinLine spellings ctx rest = .ok () rest := by
  rcases joinLine_cases spellings ctx rest with
    hstay | ⟨margin, t, more, hmargin, -, hdrop, hcarries, -⟩
  · exact hstay
  · rcases hspellings _ (carriesOn_iff.1 hcarries).2.2 with htext | ⟨op, htext⟩
    · exact joinLine_of_spelling hmargin hdrop hcarries (by simp [htext]) h.question
    · obtain ⟨level, hlevel, hop⟩ := exists_level op
      refine joinLine_of_spelling hmargin hdrop hcarries ?_ (h.operators level hlevel)
      exact htext ▸ List.mem_map_of_mem hop

/-- No line is joined where code stands. -/
theorem Settles.of_code {t : Token} (ht : t.isLayout = false) : Settles ctx (t :: rest) := by
  have hkind : (ctx.lookahead 0 (t :: rest)).kind ≠ .newline := by
    rw [Context.lookahead_zero_of_seen (Context.skips_of_code ht)]
    grind
  exact ⟨fun _ _ => joinLine_of_lookahead hkind, joinLine_of_lookahead hkind⟩

/-! ## Levels -/

theorem operation_rests {level : List BinaryOp} {levels : List (List BinaryOp)}
    {tighter : Parser Expr} (htakes : Takes tighter)
    (htighter : ∀ ts, wp tighter ctx ts (fun _ rest => Rests levels ctx rest) (fun _ _ => True))
    {left : Expr} (hts : Rests levels ctx ts) :
    wp (operation level tighter left) ctx ts
      (fun o rest => (o = none → Rests (level :: levels) ctx rest) ∧
        ∀ e, o = some e → rest.length < ts.length ∧ Rests levels ctx rest)
      (fun _ _ => True) := by
  have hshort : wp (operation level tighter left) ctx ts
      (fun o rest => ∀ e, o = some e → rest.length < ts.length) (fun _ _ => True) := by
    refine wp_imp (operation_takes level htakes left ctx ts) ?_
    rintro o rest ⟨-, hsome⟩ e rfl
    exact (hsome rfl).length_lt
  refine wp_mono (wp_and hshort (?_ : wp _ ctx ts
      (fun o rest => (o = none → Rests (level :: levels) ctx rest) ∧
        ∀ e, o = some e → Rests levels ctx rest) (fun _ _ => True))) ?_ (fun _ _ _ => trivial)
  · unfold operation
    rw [wp_bind]
    rcases joinLine_cases (level.map BinaryOp.text) ctx ts with
      hstay | ⟨margin, t, more, -, -, hdrop, hcarries, hjoin⟩
    · rw [wp_of_ok hstay, wp_bind, wp_peek]
      split
      · refine ⟨fun _ => ?_, by simp⟩
        rintro other (_ | ⟨_, hmem⟩)
        · exact hstay
        · exact hts other hmem
      · simp only [wp_bind, wp_discard, wp_advance, wp_passLayout, wp_pure]
        exact wp_imp (htighter _) (fun _ _ h => ⟨by simp, fun _ _ => h⟩)
    · have hcode := Token.isLayout_of_dropWhile hdrop
      rw [wp_of_ok hjoin, wp_bind, wp_peek,
        Context.lookahead_zero_of_seen (Context.skips_of_code hcode)]
      split
      · rename_i hnone
        exact absurd hnone (binaryOp?_of_carriesOn hcarries)
      · simp only [wp_bind, wp_discard, wp_advance, wp_passLayout, wp_pure]
        exact wp_imp (htighter _) (fun _ _ h => ⟨by simp, fun _ _ => h⟩)
  · rintro o rest ⟨hlen, hnone, hsome⟩
    exact ⟨hnone, fun e ho => ⟨hlen e ho, hsome e ho⟩⟩

section

variable {nested : Parser Expr} (htakes : Takes nested)
include htakes

/-- By induction on the levels: each loop ends where no operator of its own level follows. -/
theorem operations_rests (levels : List (List BinaryOp)) (ctx : Context) (ts : List Token) :
    wp (operations nested levels) ctx ts (fun _ rest => Rests levels ctx rest) (fun _ _ => True) := by
  induction levels generalizing ts with
  | nil =>
    refine wp_imp (wp_trivial _ _ _) (fun _ _ _ level h => ?_)
    exact absurd h List.not_mem_nil
  | cons level levels ih =>
    have htighter := operations_takes htakes levels
    rw [operations, wp_bind]
    refine wp_imp (ih ts) (fun e mid hmid => ?_)
    exact wp_iterate_of_progress (fun _ rest => Rests levels ctx rest) _
      (fun _ _ h => operation_rests htighter ih h) hmid

theorem ternary_settles
    (hn : ∀ ctx ts, wp nested ctx ts (fun _ rest => Settles ctx rest) (fun _ _ => True))
    (ctx : Context) (ts : List Token) :
    wp (ternary nested) ctx ts (fun _ rest => Settles ctx rest) (fun _ _ => True) := by
  unfold ternary
  rw [wp_bind]
  refine wp_imp (operations_rests htakes _ ctx ts) (fun condition mid hmid => ?_)
  -- Behind a question mark the choice ends with its last branch, else where the condition does.
  have hchoice : ∀ line, Settles ctx line →
      wp (do
        if (← peek).isOperator "?" then
          discard advance
          passLayout
          let whenTrue ← nested
          joinLine [":"]
          discard <| expect (·.isOperator ":") .colon
          passLayout
          let whenFalse ← nested
          return .ternary (condition.range.span whenFalse.range) condition whenTrue whenFalse
        else return condition) ctx line (fun _ rest => Settles ctx rest) (fun _ _ => True) := by
    intro line hline
    simp only [wp_bind, wp_peek, wp_ite, wp_discard, wp_advance, wp_passLayout, wp_pure]
    split
    · refine wp_imp (wp_trivial _ _ _) (fun _ _ _ => ?_)
      refine wp_joinLine_past fun _ _ => wp_expect_of_test fun _ => ?_
      exact wp_imp (hn ctx _) (fun _ _ h => h)
    · exact hline
  rw [wp_bind]
  rcases joinLine_cases ["?"] ctx mid with hstay | ⟨margin, t, more, -, -, hdrop, -, hjoin⟩
  · rw [wp_of_ok hstay]
    exact hchoice mid ⟨hmid, hstay⟩
  · rw [wp_of_ok hjoin]
    exact hchoice (t :: more) (.of_code (Token.isLayout_of_dropWhile hdrop))

end

theorem expression_settles (n : Nat) (ctx : Context) (ts : List Token) :
    wp (expression n) ctx ts (fun _ rest => Settles ctx rest) (fun _ _ => True) := by
  induction n generalizing ctx ts with
  | zero => trivial
  | succ n ih => exact ternary_settles (expression_takes n) ih ctx ts

end PineScript.Parser
