import Mathlib.Data.List.TakeWhile
import PineScript.Proofs.Diagnostic.Suppression
import PineScript.Proofs.Lexer.Respaced

/-!
# Directives read back

A list of codes stands for its codes, with any blanks around them and letters in either case. Main
statement: a comment with a directive silences the codes in its list and no others
(`apply_written`).
-/

namespace PineScript.Suppression

open Rule.Continuation (onLine)

/-! ## Words and blanks -/

/-- The blanks in front of a text, and no more. -/
def Apart (blanks cs : List Char) : Prop :=
  (∀ c ∈ blanks, Text.isBlank c = true) ∧ ∀ c ∈ cs.head?, Text.isBlank c = false

theorem Apart.dropWhile {blanks cs : List Char} (h : Apart blanks cs) :
    (blanks ++ cs).dropWhile Text.isBlank = cs := by
  rw [List.dropWhile_append_of_pos h.1]
  cases cs with
  | nil => rfl
  | cons c cs => rw [List.dropWhile_cons_of_neg (by simp [h.2 c rfl])]

theorem apart_of_word {blanks word : List Char} (hblanks : ∀ c ∈ blanks, Text.isBlank c = true)
    (hword : ∀ c ∈ word, Text.isBlank c = false) (hne : word ≠ []) (rest : List Char) :
    Apart blanks (word ++ rest) := by
  obtain ⟨c, cs, rfl⟩ := List.exists_cons_of_ne_nil hne
  refine ⟨hblanks, ?_⟩
  rintro _ ⟨⟩
  exact hword c List.mem_cons_self

theorem behindWord_of_map {word text : List Char} (h : text.map Char.toLower = word)
    (rest : List Char) : behindWord word (text ++ rest) = some rest := by
  subst h
  induction text with
  | nil => rfl
  | cons c text ih => simpa [behindWord, spells] using ih

theorem behindWord_of_first {letter c : Char} (h : spells letter c = false) (word cs : List Char) :
    behindWord (letter :: word) (c :: cs) = none := by
  simp [behindWord, h]

/-- Blanks have no case. -/
theorem toLower_of_isBlank {c : Char} (h : Text.isBlank c = true) : c.toLower = c := by
  refine dif_neg fun hupper => ?_
  rw [ge_iff_le, UInt32.le_iff_toNat_le, UInt32.le_iff_toNat_le] at hupper
  have hletter : 65 ≤ c.toNat ∧ c.toNat ≤ 90 := hupper
  have hletters : ∀ i < 26, Text.blankTable.holds (65 + i) = false := by decide
  have hblank : Text.blankTable.holds c.toNat = true := h
  rw [← Nat.add_sub_cancel' hletter.1, hletters _ (by omega)] at hblank
  cases hblank

/-- A word in either case has neither blanks nor slashes if it has none in lower case. -/
theorem plain_of_map {word text : List Char} (h : text.map Char.toLower = word)
    (hword : word.all (fun c => !Text.isBlank c && c != '/') = true) :
    ∀ c ∈ text, Text.isBlank c = false ∧ c ≠ '/' := by
  subst h
  intro c hc
  have hplain := List.all_eq_true.1 hword c.toLower (List.mem_map_of_mem hc)
  obtain ⟨hblank, hslash⟩ : Text.isBlank c.toLower = false ∧ c.toLower ≠ '/' := by simpa using hplain
  refine ⟨?_, ?_⟩
  · by_contra hc
    rw [Bool.not_eq_false] at hc
    rw [toLower_of_isBlank hc, hc] at hblank
    cases hblank
  · rintro rfl
    exact hslash rfl

/-- A directive begins with two slashes. -/
theorem directive?_of_no_slash {cs : List Char} (h : '/' ∉ cs) (word : List Char) :
    directive? word cs = none := by
  induction cs with
  | nil => rfl
  | cons c cs ih =>
    rw [List.mem_cons, not_or] at h
    have hhere : directiveHere? word (c :: cs) = none := by
      unfold directiveHere?
      split
      · rename_i heq
        exact absurd (List.cons.inj heq).1.symm h.1
      · rfl
    rw [directive?, hhere, ih h.2]
    rfl

/-! ## Letters -/

/-- The characters of codes. -/
def isCodeLetter (c : Char) : Bool := c.isAlphanum || c == '_'

theorem toNat_of_isCodeLetter {c : Char} (h : isCodeLetter c = true) : c.toNat < 128 := by
  simp only [isCodeLetter, Char.isAlphanum, Char.isDigit, Bool.or_eq_true, Bool.and_eq_true,
    decide_eq_true_eq, beq_iff_eq, UInt32.le_iff_toNat_le] at h
  rcases h with (hletter | hdigit) | rfl
  · exact Nat.lt_of_le_of_lt (Lexer.toNat_of_isAlpha hletter).2 (by decide)
  · exact Nat.lt_of_le_of_lt hdigit.2 (by decide)
  · decide

/-- What holds of the code points below 128 holds of a code's letters. -/
theorem of_isCodeLetter {P : Char → Prop}
    (h : ∀ n < 128, isCodeLetter (Char.ofNat n) = true → P (Char.ofNat n)) {c : Char}
    (hc : isCodeLetter c = true) : P c := by
  have hp := h c.toNat (toNat_of_isCodeLetter hc)
  rw [Char.ofNat_toNat] at hp
  exact hp hc

theorem isCodeLetter_spec {c : Char} (h : isCodeLetter c = true) :
    isCodeChar c = true ∧ Text.isBlank c = false ∧ c ≠ ',' ∧ c ≠ '/' :=
  of_isCodeLetter (P := fun c => isCodeChar c = true ∧ Text.isBlank c = false ∧ c ≠ ',' ∧ c ≠ '/')
    (by decide +kernel) h

theorem upperChar_of_isCodeLetter {c : Char} (h : isCodeLetter c = true) :
    Text.upperChar c = [c.toUpper] := by
  rw [Text.upperChar, if_pos (toNat_of_isCodeLetter h)]

theorem toLower_toUpper {c : Char} (h : isCodeLetter c = true) :
    c.toUpper.toLower = c.toLower ∧ c.toLower.toUpper = c.toUpper :=
  of_isCodeLetter
    (P := fun c => c.toUpper.toLower = c.toLower ∧ c.toLower.toUpper = c.toUpper)
    (by decide +kernel) h

theorem upper_of_letters {text : String} (h : ∀ c ∈ text.toList, isCodeLetter c = true) :
    Text.upper text = String.ofList (text.toList.map Char.toUpper) := by
  rw [Text.upper, List.map_eq_flatMap, List.flatMap_def, List.flatMap_def,
    List.map_congr_left fun c hc => upperChar_of_isCodeLetter (h c hc)]

/-- Equal in upper case is equal in lower case. -/
theorem upper_eq_iff {a b : List Char} (ha : ∀ c ∈ a, isCodeLetter c = true)
    (hb : ∀ c ∈ b, isCodeLetter c = true) :
    a.map Char.toUpper = b.map Char.toUpper ↔ a.map Char.toLower = b.map Char.toLower := by
  have hlower : ∀ cs : List Char, (∀ c ∈ cs, isCodeLetter c = true) →
      (cs.map Char.toUpper).map Char.toLower = cs.map Char.toLower := by
    intro cs hcs
    rw [List.map_map]
    exact List.map_congr_left fun c hc => (toLower_toUpper (hcs c hc)).1
  have hupper : ∀ cs : List Char, (∀ c ∈ cs, isCodeLetter c = true) →
      (cs.map Char.toLower).map Char.toUpper = cs.map Char.toUpper := by
    intro cs hcs
    rw [List.map_map]
    exact List.map_congr_left fun c hc => (toLower_toUpper (hcs c hc)).2
  constructor
  · intro h
    rw [← hlower a ha, h, hlower b hb]
  · intro h
    rw [← hupper a ha, h, hupper b hb]

/-! ## Lists of codes -/

theorem splitCommas_of_no_comma {cs : List Char} (h : ',' ∉ cs) : splitCommas cs = [cs] := by
  induction cs with
  | nil => rfl
  | cons c cs ih =>
    rw [List.mem_cons, not_or] at h
    rw [splitCommas, if_neg (Ne.symm h.1), ih h.2]

theorem splitCommas_append {piece : List Char} (h : ',' ∉ piece) (rest : List Char) :
    splitCommas (piece ++ ',' :: rest) = piece :: splitCommas rest := by
  induction piece with
  | nil => rw [List.nil_append, splitCommas, if_pos rfl]
  | cons c piece ih =>
    rw [List.mem_cons, not_or] at h
    rw [List.cons_append, splitCommas, if_neg (Ne.symm h.1), ih h.2]

theorem splitCommas_intercalate {pieces : List (List Char)} (hne : pieces ≠ [])
    (h : ∀ piece ∈ pieces, ',' ∉ piece) : splitCommas ([','].intercalate pieces) = pieces := by
  induction pieces with
  | nil => exact absurd rfl hne
  | cons piece more ih =>
    obtain ⟨hpiece, hmore⟩ := List.forall_mem_cons.1 h
    cases more with
    | nil => rw [List.intercalate_singleton, splitCommas_of_no_comma hpiece]
    | cons next more =>
      rw [List.intercalate_cons_cons, List.append_assoc, List.singleton_append,
        splitCommas_append hpiece, ih (List.cons_ne_nil next more) hmore]

/-- A code with the blanks around it. -/
structure Entry where
  before : List Char
  code : List Char
  behind : List Char
  blank : ∀ c ∈ before ++ behind, c = ' ' ∨ c = '\t'
  letters : ∀ c ∈ code, isCodeLetter c = true
  ne_nil : code ≠ []

namespace Entry

def text (e : Entry) : List Char := e.before ++ (e.code ++ e.behind)

theorem isBlank_of_mem {e : Entry} {c : Char} (h : c ∈ e.before ++ e.behind) :
    Text.isBlank c = true := by
  rcases e.blank c h with rfl | rfl <;> decide

theorem isBlank_of_mem_code {e : Entry} {c : Char} (h : c ∈ e.code) : Text.isBlank c = false :=
  (isCodeLetter_spec (e.letters c h)).2.1

theorem apart (e : Entry) (rest : List Char) : Apart e.before (e.code ++ rest) :=
  apart_of_word (fun _ hc => isBlank_of_mem (List.mem_append_left _ hc))
    (fun _ => isBlank_of_mem_code) e.ne_nil rest

theorem trim_text (e : Entry) : Text.trim e.text = e.code := by
  have hbehind : Apart e.behind.reverse (e.code.reverse ++ []) := by
    refine apart_of_word (fun c hc => ?_) (fun c hc => ?_) (by simpa using e.ne_nil) []
    · exact isBlank_of_mem (List.mem_append_right _ (List.mem_reverse.1 hc))
    · exact isBlank_of_mem_code (List.mem_reverse.1 hc)
  rw [List.append_nil] at hbehind
  rw [Text.trim, text, (e.apart _).dropWhile, List.reverse_append, hbehind.dropWhile,
    List.reverse_reverse]

/-- What may stand in a list. -/
theorem mem_text {e : Entry} {c : Char} (h : c ∈ e.text) :
    c ≠ ',' ∧ c ≠ '/' ∧ (isCodeChar c || Text.isBlank c) = true := by
  have hcases : c ∈ e.before ++ e.behind ∨ c ∈ e.code := by
    rw [text, List.mem_append, List.mem_append] at h
    rw [List.mem_append]
    rcases h with h | h | h
    · exact .inl (.inl h)
    · exact .inr h
    · exact .inl (.inr h)
  rcases hcases with h | h
  · rcases e.blank c h with rfl | rfl <;> decide
  · obtain ⟨hchar, -, hcomma, hslash⟩ := isCodeLetter_spec (e.letters c h)
    exact ⟨hcomma, hslash, by rw [hchar, Bool.true_or]⟩

/-- The same code with nothing in front of it. -/
def flush (e : Entry) : Entry :=
  { e with before := [], blank := fun c hc => e.blank c (List.mem_append_right _ hc) }

end Entry

theorem mem_intercalate_text {entries : List Entry} {c : Char}
    (h : c ∈ [','].intercalate (entries.map Entry.text)) :
    c = ',' ∨ ∃ e ∈ entries, c ∈ e.text := by
  simpa using Text.mem_intercalate h

theorem ofList_entries {entries : List Entry} (hne : entries ≠ []) :
    Coverage.ofList ([','].intercalate (entries.map Entry.text)) =
      .codes (entries.map fun e => Text.upper (String.ofList e.code)) := by
  have hsplit : splitCommas ([','].intercalate (entries.map Entry.text)) =
      entries.map Entry.text := by
    refine splitCommas_intercalate (by simpa using hne) fun piece hpiece hcomma => ?_
    obtain ⟨e, -, rfl⟩ := List.mem_map.1 hpiece
    exact (Entry.mem_text hcomma).1 rfl
  have htrim : ((entries.map Entry.text).map Text.trim).filter (!·.isEmpty) =
      entries.map Entry.code := by
    rw [List.map_map, List.map_congr_left fun e _ => e.trim_text, List.filter_eq_self]
    intro code hcode
    obtain ⟨e, -, rfl⟩ := List.mem_map.1 hcode
    simpa using e.ne_nil
  simp only [Coverage.ofList, hsplit, htrim]
  rw [if_neg (by simpa using hne), List.map_map]
  rfl

/-- A list of codes is read back. -/
theorem codeList_entries (first : Entry) (more : List Entry) :
    codeList (':' :: [','].intercalate ((first :: more).map Entry.text)) =
      .codes ((first :: more).map fun e => Text.upper (String.ofList e.code)) := by
  have hfront : [','].intercalate ((first :: more).map Entry.text) =
      first.before ++ [','].intercalate ((first.flush :: more).map Entry.text) := by
    cases more <;> simp [Entry.text, Entry.flush]
  have hcode : ∃ rest, [','].intercalate ((first.flush :: more).map Entry.text) =
      first.code ++ rest := by
    cases more with
    | nil => exact ⟨first.behind, by simp [Entry.text, Entry.flush]⟩
    | cons next more =>
      exact ⟨first.behind ++ ',' :: [','].intercalate ((next :: more).map Entry.text),
        by simp [Entry.text, Entry.flush]⟩
  obtain ⟨rest, hrest⟩ := hcode
  have hdrop : ([','].intercalate ((first :: more).map Entry.text)).dropWhile Text.isBlank =
      [','].intercalate ((first.flush :: more).map Entry.text) := by
    rw [hfront, hrest]
    exact (first.apart rest).dropWhile
  have htake : ([','].intercalate ((first.flush :: more).map Entry.text)).takeWhile
      (fun d => isCodeChar d || d == ',' || Text.isBlank d) =
        [','].intercalate ((first.flush :: more).map Entry.text) := by
    refine List.takeWhile_eq_self_iff.2 fun c hc => ?_
    rcases mem_intercalate_text hc with rfl | ⟨e, -, hc⟩
    · decide
    · rw [Bool.or_right_comm, (Entry.mem_text hc).2.2, Bool.true_or]
  obtain ⟨c, cs, hfirst⟩ := List.exists_cons_of_ne_nil first.ne_nil
  have hc : isCodeChar c = true :=
    (isCodeLetter_spec (first.letters c (hfirst ▸ List.mem_cons_self))).1
  have hbegin : [','].intercalate ((first.flush :: more).map Entry.text) = c :: (cs ++ rest) := by
    rw [hrest, hfirst, List.cons_append]
  have hlist := ofList_entries (List.cons_ne_nil first.flush more)
  rw [codeList, hdrop, htake, hlist, hbegin]
  simp only [hc, if_true]
  rfl

/-! ## Written directives -/

/-- What a directive is for. -/
inductive Scope where
  | line
  | file
deriving DecidableEq

def Scope.word : Scope → List Char
  | line => lineWord
  | file => fileWord

/-- A comment with a directive and a list of codes. Blanks may stand in front of its words and around
the codes, and the letters of its words may be in either case. -/
structure Written where
  scope : Scope
  gap : List Char
  name : List Char
  blanks : List Char
  word : List Char
  first : Entry
  more : List Entry
  blank : ∀ c ∈ gap ++ blanks, c = ' ' ∨ c = '\t'
  name_eq : name.map Char.toLower = "pine-lint:".toList
  word_eq : word.map Char.toLower = scope.word

namespace Written

variable (w : Written)

def entries : List Entry := w.first :: w.more

def list : List Char := [','].intercalate (w.entries.map Entry.text)

def text : List Char :=
  '/' :: '/' :: (w.gap ++ (w.name ++ (w.blanks ++ (w.word ++ ':' :: w.list))))

theorem isBlank_of_mem {c : Char} (h : c ∈ w.gap ++ w.blanks) : Text.isBlank c = true ∧ c ≠ '/' := by
  rcases w.blank c h with rfl | rfl <;> decide

theorem name_plain : ∀ c ∈ w.name, Text.isBlank c = false ∧ c ≠ '/' :=
  plain_of_map w.name_eq (by decide)

theorem word_plain : ∀ c ∈ w.word, Text.isBlank c = false ∧ c ≠ '/' :=
  plain_of_map w.word_eq (by cases w.scope <;> decide)

theorem name_apart (rest : List Char) : Apart w.gap (w.name ++ rest) := by
  refine apart_of_word (fun c hc => (w.isBlank_of_mem (List.mem_append_left _ hc)).1)
    (fun c hc => (w.name_plain c hc).1) (fun hnil => ?_) rest
  have h := w.name_eq
  rw [hnil] at h
  cases h

theorem word_apart (rest : List Char) : Apart w.blanks (w.word ++ rest) := by
  refine apart_of_word (fun c hc => (w.isBlank_of_mem (List.mem_append_right _ hc)).1)
    (fun c hc => (w.word_plain c hc).1) (fun hnil => ?_) rest
  have h := w.word_eq
  rw [hnil] at h
  cases hscope : w.scope <;> rw [hscope] at h <;> cases h

theorem list_no_slash : '/' ∉ w.list := by
  intro h
  rcases mem_intercalate_text h with h | ⟨e, -, h⟩
  · cases h
  · exact (Entry.mem_text h).2.1 rfl

/-- Only the two slashes at its start can begin a directive. -/
theorem directive?_eq (word : List Char) :
    directive? word w.text =
      (behindWord word (w.word ++ ':' :: w.list)).map codeList := by
  have hslash : '/' ∉ w.gap ++ (w.name ++ (w.blanks ++ (w.word ++ ':' :: w.list))) := by
    simp only [List.mem_append, List.mem_cons, not_or]
    refine ⟨fun h => (w.isBlank_of_mem (List.mem_append_left _ h)).2 rfl,
      fun h => (w.name_plain _ h).2 rfl,
      fun h => (w.isBlank_of_mem (List.mem_append_right _ h)).2 rfl,
      fun h => (w.word_plain _ h).2 rfl, by decide, w.list_no_slash⟩
  have hbehind : directive? word ('/' :: (w.gap ++ (w.name ++ (w.blanks ++ (w.word ++
      ':' :: w.list))))) = none := by
    have hhere : directiveHere? word ('/' :: (w.gap ++ (w.name ++ (w.blanks ++ (w.word ++
        ':' :: w.list))))) = none := by
      unfold directiveHere?
      split
      · rename_i heq
        rw [(List.cons.inj heq).2] at hslash
        exact absurd List.mem_cons_self hslash
      · rfl
    rw [directive?, hhere, directive?_of_no_slash hslash]
    rfl
  rw [text, directive?, hbehind, Option.or_none, directiveHere?, (w.name_apart _).dropWhile,
    behindWord_of_map w.name_eq]
  simp only [Option.bind_eq_bind, Option.bind_some, (w.word_apart _).dropWhile]
  cases behindWord word (w.word ++ ':' :: w.list) <;> rfl

theorem directive?_own :
    directive? w.scope.word w.text =
      some (.codes (w.entries.map fun e => Text.upper (String.ofList e.code))) := by
  rw [w.directive?_eq, behindWord_of_map w.word_eq, Option.map_some, list]
  exact congrArg some (codeList_entries w.first w.more)

/-- The two words differ in their first letter. -/
theorem directive?_other {scope : Scope} (h : scope ≠ w.scope) :
    directive? scope.word w.text = none := by
  have hword := w.word_eq
  rw [w.directive?_eq]
  cases hw : w.word with
  | nil =>
    rw [hw] at hword
    cases hscope : w.scope <;> rw [hscope] at hword <;> cases hword
  | cons c cs =>
    rw [hw, List.map_cons] at hword
    cases hscope : w.scope <;> rw [hscope] at hword h <;> cases scope
    · exact absurd rfl h
    · have hc : c.toLower = 'n' := (List.cons.inj hword).1
      have hletter : spells 'd' c = false := by simp [spells, hc, looseCases]
      exact congrArg (Option.map codeList) (behindWord_of_first hletter _ _)
    · have hc : c.toLower = 'd' := (List.cons.inj hword).1
      have hletter : spells 'n' c = false := by simp [spells, hc, looseCases]
      exact congrArg (Option.map codeList) (behindWord_of_first hletter _ _)
    · exact absurd rfl h

/-- A code is covered if it is in the list. -/
theorem covers_iff {code : String} (hcode : ∀ c ∈ code.toList, isCodeLetter c = true) :
    (Coverage.codes (w.entries.map fun e => Text.upper (String.ofList e.code))).covers code = true ↔
      ∃ e ∈ w.entries, code.toList.map Char.toLower = e.code.map Char.toLower := by
  rw [Coverage.covers, decide_eq_true_iff, List.mem_map]
  refine exists_congr fun e => and_congr_right fun _ => ?_
  have hletters : ∀ c ∈ (String.ofList e.code).toList, isCodeLetter c = true := by
    rw [String.toList_ofList]
    exact e.letters
  rw [upper_of_letters hcode, upper_of_letters hletters, String.ofList_inj, upper_eq_iff hletters hcode,
    String.toList_ofList]
  exact eq_comm

end Written

/-! ## A single directive -/

section

variable {w : Written} {front behind : List Token} {t : Token}

theorem latest?_alone {word : List Char} (h : ∀ u ∈ front ++ behind, ∀ c, ¬Directs word u c) :
    latest? word (front ++ t :: behind) = latest? word [t] := by
  rw [List.forall_mem_append] at h
  rw [latest?_append, latest?_cons, latest?_eq_none_iff.2 h.1, latest?_eq_none_iff.2 h.2,
    Option.or_none, Option.none_or]

theorem latest?_onLine_alone (h : ∀ u ∈ front ++ behind, ∀ c, ¬Directs lineWord u c) (n : Int) :
    latest? lineWord (onLine (front ++ t :: behind) n) =
      if t.range.start.line = n then latest? lineWord [t] else none := by
  have hsub : ∀ u ∈ onLine (front ++ behind) n, ∀ c, ¬Directs lineWord u c :=
    fun u hu => h u (List.mem_filter.1 hu).1
  rw [onLine, List.filter_append] at hsub
  rw [onLine, List.filter_append, List.filter_cons]
  split
  · rename_i hline
    rw [if_pos (beq_iff_eq.1 hline), latest?_alone hsub]
  · rename_i hline
    rw [if_neg (by simpa using hline), latest?_eq_none_iff.2 hsub]

theorem Written.latest?_eq (hkind : t.kind = .comment) (htext : t.text = String.ofList w.text)
    (scope : Scope) :
    latest? scope.word [t] = if scope = w.scope then
      some (.codes (w.entries.map fun e => Text.upper (String.ofList e.code))) else none := by
  have hcomments : comments [t] = [t] := by simp [comments, hkind]
  rw [latest?, hcomments, List.filterMap_cons, List.filterMap_nil, htext, String.toList_ofList]
  by_cases hscope : scope = w.scope
  · rw [if_pos hscope, hscope, w.directive?_own]
    rfl
  · rw [if_neg hscope, w.directive?_other hscope]
    rfl

end

/-- A comment with a directive silences the codes in its list, ignoring case, and no others: on its
line or in the whole document. -/
theorem apply_written (w : Written) (front behind : List Token) (t : Token) (ds : List Diagnostic)
    (hkind : t.kind = .comment) (htext : t.text = String.ofList w.text)
    (hothers : ∀ u ∈ front ++ behind, ∀ scope c, ¬Directs (Scope.word scope) u c)
    (hcodes : ∀ d ∈ ds, ∀ c ∈ d.code.toList, isCodeLetter c = true) :
    apply (front ++ t :: behind) ds = ds.filter fun d =>
      ¬((w.scope = .file ∨ t.range.start.line = d.range.start.line) ∧
        ∃ e ∈ w.entries, d.code.toList.map Char.toLower = e.code.map Char.toLower) := by
  refine List.filter_congr fun d hd => ?_
  have hfile : ofFile (front ++ t :: behind) = latest? Scope.file.word [t] :=
    latest?_alone fun u hu => hothers u hu .file
  have hline : ofLine (front ++ t :: behind) d.range.start.line =
      if t.range.start.line = d.range.start.line then latest? Scope.line.word [t] else none := by
    rw [ofLine_eq]
    exact latest?_onLine_alone (fun u hu => hothers u hu .line) _
  rw [hfile, hline, w.latest?_eq hkind htext, w.latest?_eq hkind htext]
  simp only [← w.covers_iff (hcodes d hd)]
  cases hscope : w.scope <;>
    by_cases hon : t.range.start.line = d.range.start.line <;> simp [silences, hon]

/-- Tabs, a word and codes in mixed case, and a code on another line. -/
theorem apply_written_mixed :
    apply [⟨.comment, "//\tPine-Lint: NoQA:\ta1 ,B_\t, c", ⟨⟨3, 0⟩, ⟨3, 30⟩⟩, some 0⟩]
      [⟨"b_", "m", .warning, ⟨⟨3, 0⟩, ⟨3, 1⟩⟩, "pine-lint"⟩,
        ⟨"A1C", "m", .warning, ⟨⟨3, 0⟩, ⟨3, 1⟩⟩, "pine-lint"⟩,
        ⟨"C", "m", .warning, ⟨⟨2, 0⟩, ⟨2, 1⟩⟩, "pine-lint"⟩] =
      [⟨"A1C", "m", .warning, ⟨⟨3, 0⟩, ⟨3, 1⟩⟩, "pine-lint"⟩,
        ⟨"C", "m", .warning, ⟨⟨2, 0⟩, ⟨2, 1⟩⟩, "pine-lint"⟩] := by
  have h := apply_written
    { scope := .line
      gap := ['\t']
      name := "Pine-Lint:".toList
      blanks := [' ']
      word := "NoQA".toList
      first := ⟨['\t'], ['a', '1'], [' '], by simp, List.all_eq_true.1 (by decide), by simp⟩
      more := [⟨[], ['B', '_'], ['\t'], by simp, List.all_eq_true.1 (by decide), by simp⟩,
        ⟨[' '], ['c'], [], by simp, List.all_eq_true.1 (by decide), by simp⟩]
      blank := by simp
      name_eq := by decide
      word_eq := by decide }
    [] [] ⟨.comment, "//\tPine-Lint: NoQA:\ta1 ,B_\t, c", ⟨⟨3, 0⟩, ⟨3, 30⟩⟩, some 0⟩
    [⟨"b_", "m", .warning, ⟨⟨3, 0⟩, ⟨3, 1⟩⟩, "pine-lint"⟩,
      ⟨"A1C", "m", .warning, ⟨⟨3, 0⟩, ⟨3, 1⟩⟩, "pine-lint"⟩,
      ⟨"C", "m", .warning, ⟨⟨2, 0⟩, ⟨2, 1⟩⟩, "pine-lint"⟩]
    rfl (by decide) (by simp) (by simp only [← List.all_eq_true]; decide)
  exact h.trans (by decide)

end PineScript.Suppression
