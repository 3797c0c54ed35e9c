import PineScript.Diagnostic
import PineScript.Proofs.Lexer.Joined
import PineScript.Proofs.Parser.KeptScript
import PineScript.Proofs.Parser.Resume

/-!
# Scripts one behind the other

Main statement: behind a script without faults a second one, which begins with a statement of its
own, is read as if it stood alone, only further down (`parse_append_newline`).
-/

namespace PineScript

/-- The input ends where the further lines do. -/
def Sequel.context (s : Sequel) (ctx : Context) : Context := { ctx with finish := s.finish }

/-- Further lines follow, and nothing else varies. -/
def Sequel.variation (s : Sequel) : Variation :=
  ⟨.sequel s, Eq, fun _ => rfl, fun _ => s.finish, nofun⟩

namespace Parser

variable {s : Sequel} {ctx : Context} {ts rest : List Token}

/-! ## Scripts -/

/-- A statement that is read without a fault is the next one with more behind, too. -/
theorem suiteItem_sequel {item : Mended (List Stmt)}
    (h : suiteItem topStatement 0 ctx ts = .ok (some item) rest) (hclean : item.Clean) :
    rest <:+ ts ∧ suiteItem topStatement 0 (s.context ctx) (ts ++ s.tail) =
      .ok (some item) (rest ++ s.tail) := by
  have hread := @statement_keeps s.variation nestingLimit 0 (.inr (Int.le_refl 0))
  have hsuffix : (suiteItem topStatement 0 ctx ts).rest <:+ ts := suiteItem_suffix hread ts
  obtain ⟨first, more, hdrop, -⟩ := exists_first_of_item h
  have hvaried : Varied s.variation ts (ts ++ s.tail) := by
    have hend : Varied s.variation [] s.tail := .ends rfl rfl
    have hts := hend.append_left ts
    rwa [List.append_nil] at hts
  have hmatch : Counts s.variation _ false (suiteItem topStatement 0 ctx ts) →
      Matches s.variation _ (suiteItem topStatement 0 ctx ts)
        (suiteItem topStatement 0 (s.context ctx) (ts ++ s.tail)) :=
    suiteItem_varied hread hdrop hvaried
  rw [h] at hmatch hsuffix
  have hmatch := hmatch ⟨⟨Nat.zero_le _, .inr (.inl rfl)⟩, .inr fun _ ho => Option.some.inj ho ▸ hclean⟩
  refine ⟨hsuffix, ?_⟩
  revert hmatch
  generalize suiteItem topStatement 0 (s.context ctx) (ts ++ s.tail) = r
  intro hmatch
  cases hmatch with
  | ok hlike hrest =>
    cases hlike with
    | some hlike =>
      obtain ⟨us, hold, rfl⟩ := hrest.exists_front (fun _ _ => id) (by intro h; cases h)
      obtain rfl : rest = us := hold.trans (List.append_nil us)
      have hfaults := hlike.faults
      rw [show item.faults = [] from hclean, List.forall₂_nil_left_iff] at hfaults
      refine congrArg (fun item => Reply.ok (some item) _) (?_ : Mended.mk _ _ = Mended.mk _ _)
      rw [hlike.value, hfaults, show item.faults = [] from hclean]

theorem ownComments_append (front behind : List Token) :
    ownComments (front ++ behind) = ownComments front ++ ownComments behind := by
  simp [ownComments]

/-- Where no line is indented less than a script, the statements end where the code does. -/
theorem all_isLayout_of_end (hindent : ∀ t ∈ ts, 0 ≤ indentOf 0 t)
    (h : suiteItem topStatement 0 ctx ts = .ok none rest) : ∀ t ∈ ts, t.isLayout = true := by
  cases hdrop : ts.dropWhile Token.isLayout with
  | nil => exact fun t ht => by simpa using List.dropWhile_eq_nil_iff.1 hdrop t ht
  | cons first more =>
    have hmem : first ∈ ts :=
      (List.dropWhile_suffix Token.isLayout).mem (hdrop ▸ List.mem_cons_self)
    rw [suiteItem_of_first hdrop (hindent first hmem)] at h
    cases h

/-- A script without code has the comments that stand on lines of their own. -/
theorem bodyOf_of_layout (h : ∀ t ∈ ts, t.isLayout = true) :
    bodyOf ctx ts = ⟨ownComments ts, []⟩ := by
  have hend : suiteItem topStatement 0 ctx ts = .ok none ts := by
    rw [suiteItem, List.dropWhile_eq_nil_iff.2 (by simpa using h)]
  rw [bodyOf_of_end hend, if_pos (List.all_eq_true.2 h)]

/-- Layout in front of a script adds its comments. -/
theorem bodyOf_layout_append {layout : List Token} (hlayout : ∀ t ∈ layout, t.isLayout = true)
    (hindent : ∀ t ∈ ts, 0 ≤ indentOf 0 t) :
    bodyOf ctx (layout ++ ts) =
      ⟨ownComments layout ++ (bodyOf ctx ts).value, (bodyOf ctx ts).faults⟩ := by
  rcases suiteItem_cases topStatement 0 ctx ts with hend | ⟨item, rest, hitem⟩
  · have hts := all_isLayout_of_end hindent hend
    have hall : ∀ t ∈ layout ++ ts, t.isLayout = true :=
      fun t ht => (List.mem_append.1 ht).elim (hlayout t) (hts t)
    rw [bodyOf_of_layout hall, bodyOf_of_layout hts, ownComments_append]
  · obtain ⟨first, more, hdrop, hfirst⟩ := exists_first_of_item hitem
    have hdrop' : (layout ++ ts).dropWhile Token.isLayout = first :: more := by
      rw [List.dropWhile_append_of_pos hlayout, hdrop]
    rw [bodyOf_of_item (suiteItem_of_first hdrop hfirst),
      bodyOf_of_item (suiteItem_of_first hdrop' hfirst), List.takeWhile_append_of_pos hlayout,
      ownComments_append]
    simp only [List.append_assoc]

/-- Behind a script without faults, further lines are read as a script of their own. -/
theorem bodyOf_sequel (hindent : ∀ t ∈ ts, 0 ≤ indentOf 0 t)
    (hmore : ∀ t ∈ s.tokens, 0 ≤ indentOf 0 t) (hclean : (bodyOf ctx ts).Clean) :
    bodyOf (s.context ctx) (ts ++ s.tail) =
      ⟨(bodyOf ctx ts).value ++ (bodyOf (s.context ctx) s.tokens).value,
        (bodyOf (s.context ctx) s.tokens).faults⟩ := by
  induction ts using suite_induction topStatement 0 ctx with
  | hend ts hend =>
    -- The line break joins the layout that is left and adds no comment to it.
    have hts := all_isLayout_of_end hindent hend
    have hlayout : ∀ t ∈ ts ++ [s.lineBreak], t.isLayout = true := by
      intro t ht
      rcases List.mem_append.1 ht with ht | ht
      · exact hts t ht
      · rw [List.mem_singleton.1 ht]
        exact s.isLayout_lineBreak
    have hbreak : ownComments [s.lineBreak] = [] := by simp [ownComments, s.isBreak]
    have htail : ts ++ s.tail = (ts ++ [s.lineBreak]) ++ s.tokens := by simp [Sequel.tail]
    rw [htail, bodyOf_layout_append hlayout hmore, ownComments_append, hbreak, List.append_nil,
      bodyOf_of_layout hts]
  | hitem ts item rest hitem ih =>
    rw [bodyOf_of_item hitem] at hclean ⊢
    obtain ⟨hfirst, hrest⟩ := List.append_eq_nil_iff.1 hclean
    obtain ⟨hsuffix, hnext⟩ := suiteItem_sequel hitem hfirst
    rw [bodyOf_of_item hnext, ih (fun t ht => hindent t (hsuffix.mem ht)) hrest, hfirst]
    simp only [List.append_assoc, List.nil_append]

theorem bodyOf_move (f : Position → Position) (ctx : Context) (ts : List Token) :
    bodyOf (ctx.move f) (ts.map (Token.move f)) =
      (bodyOf ctx ts).move f (List.map (Stmt.move f)) := by
  rw [bodyOf, bodyOf, script_mirrors ctx ts]
  cases script ctx ts <;> rfl

end Parser

/-! ## Texts -/

def Diagnostic.move (f : Position → Position) (d : Diagnostic) : Diagnostic :=
  { d with range := d.range.move f }

theorem finishOf_move (f : Position → Position) {ts : List Token} (h : ts ≠ []) :
    finishOf (ts.map (Token.move f)) = f (finishOf ts) := by
  obtain ⟨front, last, rfl⟩ := List.eq_nil_or_concat ts |>.resolve_left h
  simp [finishOf]

/-- The first code of a text opens a statement of its own. -/
def OpensStatement (b : String) : Prop :=
  ∀ t ∈ (tokenize b).find? fun t => !t.isLayout,
    t.range.start.character = 0 ∧ t.isKeyword "else" = false

theorem OpensStatement.fresh {b : String} (h : OpensStatement b) {f : Position → Position}
    {t : Token} {more : List Token}
    (hdrop : ((tokenize b).map (Token.move f)).dropWhile Token.isLayout = t :: more) :
    t.indent = some 0 ∧ t.isKeyword "else" = false := by
  rw [List.dropWhile_map, Token.isLayout_comp_move] at hdrop
  obtain ⟨u, _, hcode, rfl, -⟩ := List.map_eq_cons_iff.1 hdrop
  have hfind : (tokenize b).find? (fun t => !t.isLayout) = some u := by
    simp [List.find?_eq_head?_dropWhile_not, hcode]
  obtain ⟨hcolumn, helse⟩ := h u hfind
  have hlayout : u.isLayout = false := by simpa using List.find?_some hfind
  have hindent : u.indent = some 0 :=
    Lexer.indent_of_column_zero (List.mem_of_find?_eq_some hfind) hlayout hcolumn
  exact ⟨hindent, helse⟩

/-- Moved tokens are read as they were, wherever the input ends if there are none. -/
theorem Parser.bodyOf_moved (f : Position → Position) (ts : List Token) {finish : Position}
    (h : ts ≠ [] → finish = f (finishOf ts)) :
    bodyOf ⟨finish, false, none⟩ (ts.map (Token.move f)) =
      (bodyOf ⟨finishOf ts, false, none⟩ ts).move f (List.map (Stmt.move f)) := by
  by_cases hnil : ts = []
  · subst hnil
    rw [List.map_nil, bodyOf_of_layout (by simp), bodyOf_of_layout (by simp)]
    rfl
  · rw [h hnil]
    exact bodyOf_move f ⟨finishOf ts, false, none⟩ ts

namespace Program

/-- Behind a text without diagnostics, a second text that begins with a statement of its own is read
as if it stood alone, moved down by the lines of the first. -/
theorem parse_append_newline {a b : String}
    (hvalid : (parse (tokenize a)).2.map Fault.diagnostic = [])
    (hend : a.toList.getLast? ≠ some '\r') (hopens : OpensStatement b) :
    (parse (tokenize (a ++ "\n" ++ b))).1.body =
        (parse (tokenize a)).1.body ++ (parse (tokenize b)).1.body.map
          (Stmt.move (Position.down (Text.lines a.toList).length)) ∧
      (parse (tokenize (a ++ "\n" ++ b))).2.map Fault.diagnostic =
        ((parse (tokenize b)).2.map Fault.diagnostic).map
          (Diagnostic.move (Position.down (Text.lines a.toList).length)) := by
  obtain ⟨nl, hbreak, htokens⟩ := tokenize_append_newline hend b
  generalize Position.down (Text.lines a.toList).length = f at htokens ⊢
  let s : Sequel :=
    { lineBreak := nl
      tokens := (tokenize b).map (Token.move f)
      finish := finishOf (tokenize (a ++ "\n" ++ b))
      isBreak := hbreak
      fresh := fun _ _ => hopens.fresh }
  have hclean : (Parser.bodyOf ⟨finishOf (tokenize a), false, none⟩ (tokenize a)).Clean := by
    rw [List.map_eq_nil_iff, Parser.parse_eq] at hvalid
    exact hvalid
  have hindent : ∀ t ∈ s.tokens, 0 ≤ Parser.indentOf 0 t := by
    intro t ht
    obtain ⟨u, hu, rfl⟩ := List.mem_map.1 ht
    have hnonneg : 0 ≤ Parser.indentOf 0 u := indentOf_nonneg_of_mem_tokenize hu
    exact hnonneg
  have hfinish : tokenize b ≠ [] →
      finishOf (tokenize (a ++ "\n" ++ b)) = f (finishOf (tokenize b)) := by
    intro hne
    rw [← finishOf_move f hne]
    refine (Parser.finishOf_of_suffix ?_ (by simpa using hne)).symm
    rw [htokens]
    exact (List.suffix_cons nl _).trans (List.suffix_append _ _)
  have hall := Parser.bodyOf_sequel (fun t => indentOf_nonneg_of_mem_tokenize) hindent hclean
  have hcontext : s.context ⟨finishOf (tokenize a), false, none⟩ =
      ⟨finishOf (tokenize (a ++ "\n" ++ b)), false, none⟩ := rfl
  rw [hcontext, show tokenize a ++ s.tail = tokenize (a ++ "\n" ++ b) from htokens.symm,
    Parser.bodyOf_moved f (tokenize b) hfinish] at hall
  rw [Parser.parse_eq, Parser.parse_eq (tokenize a), Parser.parse_eq (tokenize b), hall]
  refine ⟨rfl, ?_⟩
  -- A diagnostic is made from its fault alone, so that it may be moved before or after.
  rw [List.map_map]
  exact List.map_map

/-- An unclosed bracket is reported where it stands behind a function and a block. -/
theorem parse_append_newline_unclosed :
    (parse (tokenize ("f(x) =>\n    x + 1\nif f(1) > 0\n    y = 2 // note" ++ "\n" ++
        "plot(y)\nz = ("))).1.body.map Stmt.range =
      [⟨⟨0, 0⟩, ⟨1, 9⟩⟩, ⟨⟨2, 0⟩, ⟨3, 9⟩⟩, ⟨⟨4, 0⟩, ⟨4, 7⟩⟩, ⟨⟨5, 0⟩, ⟨5, 5⟩⟩] ∧
    (parse (tokenize ("f(x) =>\n    x + 1\nif f(1) > 0\n    y = 2 // note" ++ "\n" ++
        "plot(y)\nz = ("))).2.map (Diagnostic.range ∘ Fault.diagnostic) =
      [⟨⟨5, 5⟩, ⟨5, 5⟩⟩] := by
  obtain ⟨hbody, hfaults⟩ := parse_append_newline
    (a := "f(x) =>\n    x + 1\nif f(1) > 0\n    y = 2 // note") (b := "plot(y)\nz = (")
    (by decide +kernel) (by decide +kernel) (by unfold OpensStatement; decide +kernel)
  rw [hbody, ← List.map_map, hfaults]
  constructor <;> decide +kernel

end Program

end PineScript
