import Mathlib.Data.List.Forall2
import PineScript.Proofs.Json.Scalar

/-!
# Payloads

The items of a list or record stand on lines of their own between its marks. A reader that takes
each of the items takes all of them, whatever blanks stand in front. So every payload is read back
from its text (`Payload.decode_render`).
-/

namespace PineScript

open Toml (Reader)
open Payload (escape quote digits spaces enclose)

namespace Json

/-! ## Blanks -/

theorem skip_append {blanks : List Char} (h : ∀ c ∈ blanks, isBlank c = true) (cs : List Char) :
    skip (blanks ++ cs) = skip cs :=
  List.dropWhile_append_of_pos h

theorem skip_cons {c : Char} (h : isBlank c = false) (cs : List Char) :
    skip (c :: cs) = c :: cs := by
  rw [skip, List.dropWhile_cons_of_neg (by rw [h]; decide)]

theorem isBlank_of_mem_spaces {level : Nat} {c : Char} (h : c ∈ spaces level) :
    isBlank c = true := by
  rw [(List.mem_replicate.1 h).2]
  rfl

/-! ## Items -/

/-- A mark that closes a list or a record. -/
def Closes (c : Char) : Prop := c = ']' ∨ c = '\x7d'

theorem Closes.ne_comma {c : Char} (h : Closes c) : c ≠ ',' := by
  rcases h with rfl | rfl <;> decide

theorem Closes.solid {c : Char} (h : Closes c) : isBlank c = false := by
  rcases h with rfl | rfl <;> rfl

theorem exists_intercalate_cons (mark line : List Char) (lines : List (List Char)) :
    ∃ tail, List.intercalate mark (line :: lines) = line ++ tail := by
  cases lines with
  | nil => exact ⟨[], by rw [List.intercalate_singleton, List.append_nil]⟩
  | cons next later => exact ⟨_, by rw [List.intercalate_cons_cons, List.append_assoc]⟩

theorem length_le_intercalate {mark : List Char} (hmark : mark ≠ []) (line : List Char)
    (lines : List (List Char)) : lines.length ≤ (List.intercalate mark (line :: lines)).length := by
  induction lines generalizing line with
  | nil => exact Nat.zero_le _
  | cons next later ih =>
    have hpos := List.length_pos_iff.2 hmark
    have hle := ih next
    rw [List.intercalate_cons_cons, List.length_append, List.length_append, List.length_cons]
    omega

/-- The text is read as the value, behind any blanks, and all of it is taken. -/
structure Reads {α : Type} (item? : Reader α) (text : List Char) (value : α) : Prop where
  opens : ∃ c more, text = c :: more ∧ isBlank c = false ∧ ¬Closes c
  reads : ∀ blanks rest, (∀ c ∈ blanks, isBlank c = true) → Stops rest →
    item? (blanks ++ (text ++ rest)) = some (value, rest)

section

variable {α : Type} {item? : Reader α} {closing : Char} (hclosing : Closes closing)
include hclosing

/-- Items on lines of their own, with commas behind all but the last, up to the closing mark. -/
theorem listed?_intercalate (level : Nat) (rest : List Char) {text : List Char} {value : α}
    {texts : List (List Char)} {values : List α} (hfirst : Reads item? text value)
    (hmore : List.Forall₂ (Reads item?) texts values) {rounds : Nat}
    (hrounds : texts.length ≤ rounds) {blanks : List Char}
    (hblanks : ∀ c ∈ blanks, isBlank c = true) :
    listed? closing item? (rounds + 1) (blanks ++
        (List.intercalate [',', '\n'] ((text :: texts).map (spaces (level + 1) ++ ·)) ++
          '\n' :: (spaces level ++ closing :: rest))) =
      some (value :: values, rest) := by
  have hindent {blanks : List Char} (h : ∀ c ∈ blanks, isBlank c = true) :
      ∀ c ∈ blanks ++ spaces (level + 1), isBlank c = true :=
    List.forall_mem_append.2 ⟨h, fun _ => isBlank_of_mem_spaces⟩
  induction hmore generalizing text value blanks rounds with
  | nil =>
    have hstops : Stops ('\n' :: (spaces level ++ closing :: rest)) :=
      fun c hc => .inr (Option.some.inj hc).symm
    have hskip : skip ('\n' :: (spaces level ++ closing :: rest)) = closing :: rest := by
      have hblank : ∀ c ∈ '\n' :: spaces level, isBlank c = true :=
        List.forall_mem_cons.2 ⟨rfl, fun _ => isBlank_of_mem_spaces⟩
      rw [← List.cons_append, skip_append hblank, skip_cons hclosing.solid]
    have hread := hfirst.reads _ _ (hindent hblanks) hstops
    rw [List.map_singleton, List.intercalate_singleton, List.append_assoc (spaces _),
      ← List.append_assoc blanks, listed?, hread]
    simp only [Option.bind_eq_bind, Option.bind_some, hskip, if_neg hclosing.ne_comma, if_true]
    rfl
  | @cons next _ later _ hnext _ ih =>
    cases rounds with
    | zero => cases hrounds
    | succ rounds =>
      have hbreak : ∀ c ∈ ['\n'], isBlank c = true := List.forall_mem_singleton.2 rfl
      have hrest := ih hnext (Nat.le_of_succ_le_succ hrounds) hbreak
      generalize hinner : List.intercalate [',', '\n']
        ((next :: later).map (spaces (level + 1) ++ ·)) = inner at hrest
      have hstops : Stops (',' :: '\n' :: (inner ++ '\n' :: (spaces level ++ closing :: rest))) :=
        fun c hc => .inl (Option.some.inj hc).symm
      have hread := hfirst.reads _ _ (hindent hblanks) hstops
      rw [List.map_cons, List.map_cons, List.intercalate_cons_cons, ← List.map_cons, hinner,
        List.append_assoc, List.append_assoc, List.append_assoc (spaces _),
        ← List.append_assoc blanks, listed?]
      simp only [List.cons_append, List.nil_append, Option.bind_eq_bind] at hread hrest ⊢
      rw [hread]
      simp only [Option.bind_some, skip_cons (show isBlank ',' = false from rfl), if_true]
      rw [hrest]
      rfl

/-- What stands between the marks of a list or record is read item by item. -/
theorem enclosed?_enclose (opening : Char) (level : Nat) (rest : List Char)
    {texts : List (List Char)} {values : List α} (h : List.Forall₂ (Reads item?) texts values) :
    ∃ body, enclose opening closing level texts ++ rest = opening :: body ∧
      enclosed? closing item? body = some (values, rest) := by
  cases h with
  | nil =>
    refine ⟨closing :: rest, rfl, ?_⟩
    rw [enclosed?, skip_cons hclosing.solid]
    exact if_pos rfl
  | @cons text value texts values hfirst hmore =>
    refine ⟨['\n'] ++ (List.intercalate [',', '\n']
      ((text :: texts).map (spaces (level + 1) ++ ·)) ++
        '\n' :: (spaces level ++ closing :: rest)), by simp [enclose], ?_⟩
    obtain ⟨c, more, rfl, hsolid, hopen⟩ := hfirst.opens
    have hhead : (skip (['\n'] ++ (List.intercalate [',', '\n']
        (((c :: more) :: texts).map (spaces (level + 1) ++ ·)) ++
          '\n' :: (spaces level ++ closing :: rest)))).head? ≠ some closing := by
      obtain ⟨tail, htail⟩ := exists_intercalate_cons [',', '\n'] (spaces (level + 1) ++ c :: more)
        (texts.map (spaces (level + 1) ++ ·))
      have hblank : ∀ d ∈ ['\n'] ++ spaces (level + 1), isBlank d = true :=
        List.forall_mem_append.2
          ⟨List.forall_mem_singleton.2 rfl, fun _ => isBlank_of_mem_spaces⟩
      rw [List.map_cons, htail, List.append_assoc, List.append_assoc, ← List.append_assoc ['\n'],
        skip_append hblank, List.cons_append, skip_cons hsolid]
      exact fun heq => hopen ((Option.some.inj heq).symm ▸ hclosing)
    have hlength := length_le_intercalate (show [',', '\n'] ≠ [] by decide)
      (spaces (level + 1) ++ c :: more) (texts.map (spaces (level + 1) ++ ·))
    rw [List.length_map] at hlength
    rw [enclosed?, if_neg hhead, List.singleton_append, List.length_cons]
    refine listed?_intercalate hclosing level rest hfirst hmore ?_
      (List.forall_mem_singleton.2 rfl)
    rw [List.length_append]
    exact Nat.le_trans hlength (Nat.le_add_right _ _)

end

/-! ## Values -/

theorem value?_list {depth : Nat} {cs rest : List Char} {items : List Json} {left : List Char}
    (h : skip cs = '[' :: rest) (hitems : enclosed? ']' (value? depth) rest = some (items, left)) :
    value? (depth + 1) cs = some (.array items, left) := by
  rw [value?, h]
  simp only [hitems]
  rfl

theorem value?_record {depth : Nat} {cs rest : List Char} {members : List (String × Json)}
    {left : List Char} (h : skip cs = '\x7b' :: rest)
    (hmembers : enclosed? '\x7d' (member? (value? depth)) rest = some (members, left)) :
    value? (depth + 1) cs = some (.object members, left) := by
  rw [value?, h]
  simp only [hmembers]
  rfl

theorem value?_scalar (depth : Nat) {c : Char} {cs rest : List Char} (h : skip cs = c :: rest)
    (hlist : c ≠ '[') (hrecord : c ≠ '\x7b') : value? (depth + 1) cs = scalar? (c :: rest) := by
  rw [value?, h]
  split
  · rename_i heq
    exact absurd (List.cons.inj heq).1 hlist
  · rename_i heq
    exact absurd (List.cons.inj heq).1 hrecord
  · rfl

theorem reads_quote (depth : Nat) (s : String) :
    Reads (value? (depth + 1)) (quote s) (.text s) where
  opens := ⟨'"', _, rfl, rfl, by rintro (h | h) <;> cases h⟩
  reads blanks rest hblanks _ := by
    have hskip : skip (blanks ++ (quote s ++ rest)) =
        '"' :: (s.toList.flatMap escape ++ '"' :: rest) := by
      rw [skip_append hblanks, quote_append, skip_cons rfl]
    rw [value?_scalar depth hskip (by decide) (by decide), scalar?, text?_flatMap_escape]
    rfl

/-- Digits, or a minus sign and digits. -/
theorem exists_digits_cons (n : Int) :
    ∃ c more, digits n = c :: more ∧ (c.isDigit = true ∨ c = '-') := by
  rw [digits]
  split
  · exact ⟨'-', _, rfl, .inr rfl⟩
  · obtain ⟨c, more, hcons, hc⟩ := exists_toDigits_cons n.natAbs
    exact ⟨c, more, hcons, .inl hc⟩

theorem reads_digits (depth : Nat) (n : Int) :
    Reads (value? (depth + 1)) (digits n) (.integer n) := by
  obtain ⟨c, more, hcons, hc⟩ := exists_digits_cons n
  have hne {d : Char} (hd : (d.isDigit || d == '-') = false) : c ≠ d := by
    rintro rfl
    rcases hc with hc | rfl
    · rw [hc] at hd
      cases hd
    · cases hd
  have hsolid : isBlank c = false := by
    simp only [isBlank, Bool.or_eq_false_iff, beq_eq_false_iff_ne]
    exact ⟨⟨⟨hne (by decide), hne (by decide)⟩, hne (by decide)⟩, hne (by decide)⟩
  constructor
  · refine ⟨c, more, hcons, hsolid, ?_⟩
    rintro (h | h)
    · exact hne (by decide) h
    · exact hne (by decide) h
  · intro blanks rest hblanks hstops
    have hskip : skip (blanks ++ (digits n ++ rest)) = c :: (more ++ rest) := by
      rw [skip_append hblanks, hcons, List.cons_append, skip_cons hsolid]
    rw [value?_scalar depth hskip (hne (by decide)) (hne (by decide)), ← List.cons_append, ← hcons,
      scalar?_digits n hstops]

/-- A list or a record is read if its reader takes what stands between its marks. -/
theorem reads_enclose {α : Type} {item? : Reader α} {value? : Reader Json} {wrap : List α → Json}
    {opening closing : Char} (hsolid : isBlank opening = false) (hopening : ¬Closes opening)
    (hclosing : Closes closing)
    (hvalue : ∀ {cs body : List Char} {values : List α} {left : List Char},
      skip cs = opening :: body → enclosed? closing item? body = some (values, left) →
      value? cs = some (wrap values, left))
    (level : Nat) {texts : List (List Char)} {values : List α}
    (h : List.Forall₂ (Reads item?) texts values) :
    Reads value? (enclose opening closing level texts) (wrap values) := by
  constructor
  · obtain ⟨body, hbody, -⟩ := enclosed?_enclose hclosing opening level [] h
    rw [List.append_nil] at hbody
    exact ⟨opening, body, hbody, hsolid, hopening⟩
  · intro blanks rest hblanks _
    obtain ⟨body, hbody, hread⟩ := enclosed?_enclose hclosing opening level rest h
    refine hvalue ?_ hread
    rw [skip_append hblanks, hbody, skip_cons hsolid]

theorem reads_list {depth : Nat} (level : Nat) {texts : List (List Char)} {items : List Json}
    (h : List.Forall₂ (Reads (value? depth)) texts items) :
    Reads (value? (depth + 1)) (enclose '[' ']' level texts) (.array items) :=
  reads_enclose rfl (by rintro (h | h) <;> cases h) (.inl rfl) value?_list level h

theorem reads_record {depth : Nat} (level : Nat) {texts : List (List Char)}
    {members : List (String × Json)}
    (h : List.Forall₂ (Reads (member? (value? depth))) texts members) :
    Reads (value? (depth + 1)) (enclose '\x7b' '\x7d' level texts) (.object members) :=
  reads_enclose rfl (by rintro (h | h) <;> cases h) (.inr rfl) value?_record level h

theorem reads_member {value? : Reader Json} (name : String) {text : List Char} {value : Json}
    (h : Reads value? text value) :
    Reads (member? value?) (quote name ++ [':', ' '] ++ text) (name, value) where
  opens := ⟨'"', _, rfl, rfl, by rintro (h | h) <;> cases h⟩
  reads blanks rest hblanks hstops := by
    have hskip : skip (blanks ++ (quote name ++ [':', ' '] ++ text ++ rest)) =
        '"' :: (name.toList.flatMap escape ++ '"' :: ([':', ' '] ++ (text ++ rest))) := by
      rw [skip_append hblanks, List.append_assoc, List.append_assoc, quote_append, skip_cons rfl]
    have hvalue := h.reads [' '] rest (List.forall_mem_singleton.2 rfl) hstops
    rw [member?, hskip]
    simp only [text?_flatMap_escape, Option.bind_eq_bind, Option.bind_some, List.cons_append,
      skip_cons (show isBlank ':' = false from rfl)] at hvalue ⊢
    rw [hvalue]
    rfl

end Json

/-! ## Payloads -/

namespace Payload

mutual

/-- A payload as a value of JSON. -/
def json : Payload → Json
  | number n => .integer n
  | text s => .text s
  | list items => .array (jsonItems items)
  | record fields => .object (jsonFields fields)

def jsonItems : List Payload → List Json
  | [] => []
  | p :: more => p.json :: jsonItems more

def jsonFields : List (String × Payload) → List (String × Json)
  | [] => []
  | (name, p) :: more => (name, p.json) :: jsonFields more

end

theorem length_le_of_mem_intercalate {mark line : List Char} {lines : List (List Char)}
    (h : line ∈ lines) : line.length ≤ (List.intercalate mark lines).length := by
  obtain ⟨i, hi⟩ := List.getElem?_of_mem h
  rw [← List.getElem?_intersperse_two_mul] at hi
  exact (List.sublist_flatten_of_mem (List.mem_of_getElem? hi)).length_le

/-- Every line is shorter than the text that encloses it. -/
theorem length_lt_enclose {opening closing : Char} {level : Nat} {lines : List (List Char)}
    {line : List Char} (h : line ∈ lines) :
    line.length < (enclose opening closing level lines).length := by
  cases lines with
  | nil => cases h
  | cons first more =>
    have hle := @length_le_of_mem_intercalate [',', '\n'] _ _
      (List.mem_map_of_mem (f := (spaces (level + 1) ++ ·)) h)
    simp only [enclose, List.length_append, List.length_cons] at hle ⊢
    omega

theorem render_ne_nil (level : Nat) (p : Payload) : render level p ≠ [] := by
  have hitems (opening closing : Char) (lines : List (List Char)) :
      enclose opening closing level lines ≠ [] := by
    cases lines <;> exact List.cons_ne_nil _ _
  cases p with
  | number n =>
    obtain ⟨c, more, hcons, -⟩ := Json.exists_digits_cons n
    rw [render, hcons]
    exact List.cons_ne_nil _ _
  | text s => exact List.cons_ne_nil _ _
  | list items => exact hitems _ _ _
  | record fields => exact hitems _ _ _

open Json (Reads value? member?)

mutual

/-- A payload is read back if values may be nested as deep as its text is long. -/
theorem reads_render (level : Nat) : ∀ (p : Payload) {depth : Nat},
    (render level p).length ≤ depth → Reads (value? depth) (render level p) p.json
  | p, 0, h => absurd (List.length_eq_zero_iff.1 (Nat.le_zero.1 h)) (render_ne_nil level p)
  | .number n, depth + 1, _ => Json.reads_digits depth n
  | .text s, depth + 1, _ => Json.reads_quote depth s
  | .list items, _ + 1, h =>
    Json.reads_list level (reads_renderItems (level + 1) items fun _ hline =>
      Nat.le_of_lt_succ (Nat.lt_of_lt_of_le (length_lt_enclose hline) h))
  | .record fields, _ + 1, h =>
    Json.reads_record level (reads_renderFields (level + 1) fields fun _ hline =>
      Nat.le_of_lt_succ (Nat.lt_of_lt_of_le (length_lt_enclose hline) h))

theorem reads_renderItems (level : Nat) : ∀ (items : List Payload) {depth : Nat},
    (∀ line ∈ renderItems level items, line.length ≤ depth) →
    List.Forall₂ (Reads (value? depth)) (renderItems level items) (jsonItems items)
  | [], _, _ => .nil
  | p :: more, _, h =>
    .cons (reads_render level p (h _ List.mem_cons_self))
      (reads_renderItems level more fun _ hline => h _ (List.mem_cons_of_mem _ hline))

theorem reads_renderFields (level : Nat) : ∀ (fields : List (String × Payload)) {depth : Nat},
    (∀ line ∈ renderFields level fields, line.length ≤ depth) →
    List.Forall₂ (Reads (member? (value? depth))) (renderFields level fields) (jsonFields fields)
  | [], _, _ => .nil
  | (name, p) :: more, depth, h => by
    have hfirst := h _ List.mem_cons_self
    rw [List.length_append] at hfirst
    exact .cons (Json.reads_member name (reads_render level p (by omega)))
      (reads_renderFields level more fun _ hline => h _ (List.mem_cons_of_mem _ hline))

end

/-- A payload that was written with a line feed behind it is decoded as what it was. -/
theorem decode_render (p : Payload) :
    Json.decode (String.ofList (render 0 p ++ ['\n'])) = some p.json := by
  have hdepth : (render 0 p).length ≤ (render 0 p ++ ['\n']).length := by
    rw [List.length_append]
    exact Nat.le_add_right _ _
  have hread := (reads_render 0 p hdepth).reads [] ['\n'] (List.forall_mem_nil _)
    fun c hc => .inr (Option.some.inj hc).symm
  rw [List.nil_append] at hread
  rw [Json.decode, String.toList_ofList, hread]
  rfl

end Payload

end PineScript
