import PineScript.Diagnostic.Payload
import PineScript.Proofs.Json.Decode

/-!
# Texts and numbers

A character is read back from its escape, and an integer from its digits. Between characters nothing
has to be told apart; behind a number, the end of its line tells where it ends.
-/

namespace PineScript

open Payload (escape escapeUnit hex4 quote digits)

namespace Json

/-! ## Characters -/

theorem hexValue?_digitChar {n : Nat} (h : n < 16) : Toml.hexValue? n.digitChar = some n := by
  have hall : (List.range 16).all (fun n => Toml.hexValue? n.digitChar == some n) = true := by
    decide
  exact eq_of_beq (List.all_eq_true.1 hall n (List.mem_range.2 h))

theorem hexNumber_hex4 {n : Nat} (h : n < 0x10000) (rest : List Char) :
    Toml.hexNumber 4 0 (hex4 n ++ rest) = some (n, rest) := by
  have hdigit (k : Nat) : Toml.hexValue? (k % 16).digitChar = some (k % 16) :=
    hexValue?_digitChar (Nat.mod_lt k (by decide))
  have hvalue : (((0 * 16 + n / 4096 % 16) * 16 + n / 256 % 16) * 16 + n / 16 % 16) * 16 + n % 16 =
      n := by omega
  simp only [hex4, List.map_cons, List.map_nil, List.cons_append, List.nil_append, Toml.hexNumber,
    hdigit]
  exact congrArg (fun k => some (k, rest)) hvalue

theorem toNat_cases (c : Char) : c.toNat < 0xd800 ∨ 0xdfff < c.toNat ∧ c.toNat < 0x110000 := c.valid

theorem charOf?_toNat (c : Char) : Toml.charOf? c.toNat = some c := by
  rw [Toml.charOf?, if_pos (toNat_cases c), Char.ofNat_toNat]

/-- A character of the basic plane is read from its number. -/
theorem escaped?_unit {c : Char} (h : c.toNat < 0x10000) (rest : List Char) :
    escaped? ('u' :: hex4 c.toNat ++ rest) = some (c, rest) := by
  have hwhole : ¬(0xd800 ≤ c.toNat ∧ c.toNat < 0xdc00) := by
    have := toNat_cases c
    omega
  rw [List.cons_append, escaped?, hexNumber_hex4 h]
  simp only [Option.bind_eq_bind, Option.bind_some, if_neg hwhole, charOf?_toNat]
  rfl

/-- A character outside the basic plane is read from its two halves. -/
theorem escaped?_halves {high low : Nat} (hhigh : 0xd800 ≤ high ∧ high < 0xdc00)
    (hlow : 0xdc00 ≤ low ∧ low < 0xe000) (rest : List Char) :
    escaped? ('u' :: hex4 high ++ (escapeUnit low ++ rest)) =
      some (Char.ofNat (0x10000 + (high - 0xd800) * 0x400 + (low - 0xdc00)), rest) := by
  rw [List.cons_append, escaped?, hexNumber_hex4 (by omega)]
  simp only [Option.bind_eq_bind, Option.bind_some, if_pos hhigh]
  rw [escapeUnit, List.cons_append, List.cons_append, secondHalf?, hexNumber_hex4 (by omega)]
  simp only [Option.bind_eq_bind, Option.bind_some, if_pos hlow]
  rfl

/-- A backslash and the escape behind it are read as one character. -/
theorem characters_escaped (rounds : Nat) {c : Char} {cs tail : List Char}
    (h : escaped? cs = some (c, tail)) :
    characters (rounds + 1) ('\\' :: cs) =
      (characters rounds tail).map fun read => (c :: read.1, read.2) := by
  rw [characters, if_neg (by decide), if_pos rfl, h]
  simp only [Option.bind_eq_bind, Option.bind_some]
  cases characters rounds tail <;> rfl

theorem characters_plain (rounds : Nat) {c : Char} (hquote : c ≠ '"') (hslash : c ≠ '\\')
    (hcode : 32 ≤ c.toNat) (tail : List Char) :
    characters (rounds + 1) (c :: tail) =
      (characters rounds tail).map fun read => (c :: read.1, read.2) := by
  rw [characters, if_neg hquote, if_neg hslash, if_neg (by omega)]
  cases characters rounds tail <;> rfl

/-- The marks behind a backslash with the characters they stand for. -/
def shortMarks : List (Char × Char) :=
  [('"', '"'), ('\\', '\\'), ('n', '\n'), ('r', '\r'), ('t', '\t'), ('f', '\x0c'), ('b', '\x08')]

theorem escaped?_short {mark c : Char} (h : (mark, c) ∈ shortMarks) (rest : List Char) :
    escaped? (mark :: rest) = some (c, rest) := by
  simp only [shortMarks, List.mem_cons, Prod.mk.injEq, List.not_mem_nil, or_false] at h
  rcases h with ⟨rfl, rfl⟩ | ⟨rfl, rfl⟩ | ⟨rfl, rfl⟩ | ⟨rfl, rfl⟩ | ⟨rfl, rfl⟩ | ⟨rfl, rfl⟩ |
    ⟨rfl, rfl⟩ <;> rfl

/-- The ways in which a character is written between quotes. -/
inductive EscapeForm : Char → List Char → Prop
  | short {mark c : Char} : (mark, c) ∈ shortMarks → EscapeForm c ['\\', mark]
  | plain {c : Char} : c ≠ '"' → c ≠ '\\' → 32 ≤ c.toNat → c.toNat < 127 → EscapeForm c [c]
  | unit {c : Char} : c.toNat < 0x10000 → EscapeForm c (escapeUnit c.toNat)
  | halves {c : Char} : 0x10000 ≤ c.toNat → EscapeForm c
      (escapeUnit (0xd800 + (c.toNat - 0x10000) / 0x400) ++
        escapeUnit (0xdc00 + (c.toNat - 0x10000) % 0x400))

theorem eq_of_toNat {c d : Char} (h : c.toNat = d.toNat) : c = d := by
  rw [← Char.ofNat_toNat c, h, Char.ofNat_toNat]

theorem escape_form (c : Char) : EscapeForm c (escape c) := by
  have hshort {mark d : Char} (h : c = d) (hmark : (mark, d) ∈ shortMarks) :
      EscapeForm c ['\\', mark] := .short (h ▸ hmark)
  fun_cases escape c with
  | case1 h => exact hshort h (by decide)
  | case2 _ h => exact hshort h (by decide)
  | case3 _ _ h => exact hshort h (by decide)
  | case4 _ _ _ h => exact hshort h (by decide)
  | case5 _ _ _ _ h => exact hshort h (by decide)
  | case6 n _ _ _ _ _ h => exact hshort (show c = '\x0c' from eq_of_toNat h) (by decide)
  | case7 n _ _ _ _ _ _ h => exact hshort (show c = '\x08' from eq_of_toNat h) (by decide)
  | case8 n hquote hslash _ _ _ _ _ hcode => exact .plain hquote hslash hcode.1 hcode.2
  | case9 n _ _ _ _ _ _ _ _ hplane => exact .unit hplane
  | case10 n _ _ _ _ _ _ _ _ hplane => exact .halves (Nat.le_of_not_lt hplane)

/-- Every character is read back from its escape. -/
theorem characters_escape (rounds : Nat) (c : Char) (tail : List Char) :
    characters (rounds + 1) (escape c ++ tail) =
      (characters rounds tail).map fun read => (c :: read.1, read.2) := by
  have hform := escape_form c
  generalize escape c = text at hform
  cases hform with
  | short hmark => exact characters_escaped rounds (escaped?_short hmark tail)
  | plain hquote hslash hcode _ => exact characters_plain rounds hquote hslash hcode tail
  | unit hplane => exact characters_escaped rounds (escaped?_unit hplane tail)
  | halves hplane =>
    have hlimit := toNat_cases c
    have hjoined : 0x10000 + (0xd800 + (c.toNat - 0x10000) / 0x400 - 0xd800) * 0x400 +
        (0xdc00 + (c.toNat - 0x10000) % 0x400 - 0xdc00) = c.toNat := by omega
    have hread := @escaped?_halves (0xd800 + (c.toNat - 0x10000) / 0x400)
      (0xdc00 + (c.toNat - 0x10000) % 0x400) (by omega) (by omega) tail
    rw [hjoined, Char.ofNat_toNat] at hread
    rw [List.append_assoc]
    exact characters_escaped rounds hread

/-! ## Texts -/

theorem escape_ne_nil (c : Char) : escape c ≠ [] := by
  intro hnil
  have hread := characters_escape 1 c ['"']
  rw [hnil] at hread
  cases hread

theorem length_le_flatMap_escape (cs : List Char) : cs.length ≤ (cs.flatMap escape).length := by
  induction cs with
  | nil => exact Nat.le_refl _
  | cons c cs ih =>
    have hc := List.length_pos_iff.2 (escape_ne_nil c)
    rw [List.flatMap_cons, List.length_append, List.length_cons]
    omega

theorem characters_flatMap_escape {rounds : Nat} {cs : List Char} (h : cs.length < rounds)
    (rest : List Char) :
    characters rounds (cs.flatMap escape ++ '"' :: rest) = some (cs, rest) := by
  induction cs generalizing rounds with
  | nil =>
    obtain ⟨rounds, rfl⟩ := Nat.exists_eq_add_of_lt h
    rfl
  | cons c cs ih =>
    cases rounds with
    | zero => cases h
    | succ rounds =>
      rw [List.flatMap_cons, List.append_assoc, characters_escape, ih (Nat.lt_of_succ_lt_succ h)]
      rfl

theorem text?_flatMap_escape (s : String) (rest : List Char) :
    text? (s.toList.flatMap escape ++ '"' :: rest) = some (s, rest) := by
  have hrounds : s.toList.length < (s.toList.flatMap escape ++ '"' :: rest).length := by
    have hle := length_le_flatMap_escape s.toList
    rw [List.length_append, List.length_cons]
    omega
  rw [text?, characters_flatMap_escape hrounds]
  simp only [Option.bind_eq_bind, Option.bind_some, String.ofList_toList]
  rfl

theorem quote_append (s : String) (rest : List Char) :
    quote s ++ rest = '"' :: (s.toList.flatMap escape ++ '"' :: rest) := by
  simp [quote]

/-! ## Numbers -/

/-- What stands behind a value in written text: the end of its line, with or without a comma. -/
def Stops (rest : List Char) : Prop := ∀ c, rest.head? = some c → c = ',' ∨ c = '\n'

theorem Stops.dropWhile_isDigit {rest : List Char} (h : Stops rest) :
    rest.takeWhile Char.isDigit = [] ∧ rest.dropWhile Char.isDigit = rest := by
  cases rest with
  | nil => exact ⟨rfl, rfl⟩
  | cons c rest =>
    have hc : c.isDigit = false := by
      rcases h c rfl with rfl | rfl <;> rfl
    simp [hc]

theorem digits?_append {ds rest : List Char} (hne : ds ≠ []) (hds : ∀ c ∈ ds, c.isDigit = true)
    (h : Stops rest) : digits? (ds ++ rest) = some (ds, rest) := by
  obtain ⟨c, more, rfl⟩ := List.exists_cons_of_ne_nil hne
  obtain ⟨htake, hdrop⟩ := h.dropWhile_isDigit
  rw [List.cons_append, digits?, if_pos (hds c List.mem_cons_self), ← List.cons_append,
    List.takeWhile_append_of_pos hds, List.dropWhile_append_of_pos hds, htake,
    hdrop, List.append_nil]

theorem exists_toDigits_cons (n : Nat) :
    ∃ c more, Nat.toDigits 10 n = c :: more ∧ c.isDigit = true := by
  obtain ⟨c, more, hcons⟩ := List.exists_cons_of_ne_nil
    (show Nat.toDigits 10 n ≠ [] from Nat.toDigits_ne_nil)
  refine ⟨c, more, hcons, ?_⟩
  exact Nat.isDigit_of_mem_toDigits (by decide) (by decide) (hcons ▸ List.mem_cons_self)

/-- The digits of a number do not start with a zero, unless it is zero. -/
theorem head?_toDigits {n : Nat} (h : 0 < n) : (Nat.toDigits 10 n).head? ≠ some '0' := by
  induction n using Nat.strongRecOn with
  | ind n ih =>
    by_cases hlt : n < 10
    · have hall : (List.range 10).all (fun n => n == 0 || n.digitChar != '0') = true := by decide
      have hn := List.all_eq_true.1 hall n (List.mem_range.2 hlt)
      have hzero : (n == 0) = false := beq_false_of_ne (Nat.ne_of_gt h)
      rw [hzero, Bool.false_or] at hn
      rw [Nat.toDigits_of_lt_base hlt]
      exact fun heq => bne_iff_ne.1 hn (Option.some.inj heq)
    · have hfront := ih (n / 10) (by omega) (by omega)
      obtain ⟨c, more, hcons, -⟩ := exists_toDigits_cons (n / 10)
      rw [hcons] at hfront
      rw [Nat.toDigits_of_base_le (by decide) (by omega), hcons]
      exact hfront

theorem whole?_toDigits (n : Nat) {rest : List Char} (h : Stops rest) :
    whole? (Nat.toDigits 10 n ++ rest) = some (Nat.toDigits 10 n, rest) := by
  cases n with
  | zero => rfl
  | succ n =>
    have hdigits : ∀ c ∈ Nat.toDigits 10 (n + 1), c.isDigit = true :=
      fun c hc => Nat.isDigit_of_mem_toDigits (by decide) (by decide) hc
    rw [whole?, digits?_append Nat.toDigits_ne_nil hdigits h]
    intro cs heq
    obtain ⟨c, more, hcons, -⟩ := exists_toDigits_cons (n + 1)
    have hhead := head?_toDigits (Nat.succ_pos n)
    rw [hcons] at heq hhead
    exact hhead (congrArg some (List.cons.inj heq).1)

theorem Stops.fraction_eq {rest : List Char} (h : Stops rest) : fraction rest = ([], rest) := by
  cases rest with
  | nil => rfl
  | cons c rest => rcases h c rfl with rfl | rfl <;> rfl

theorem Stops.exponent_eq {rest : List Char} (h : Stops rest) : exponent rest = (none, rest) := by
  cases rest with
  | nil => rfl
  | cons c rest => rcases h c rfl with rfl | rfl <;> rfl

theorem unsigned?_toDigits (sign : Int) (n : Nat) {rest : List Char} (h : Stops rest) :
    unsigned? sign (Nat.toDigits 10 n ++ rest) = some (.integer (sign * n), rest) := by
  rw [unsigned?, whole?_toDigits n h]
  simp only [Option.bind_eq_bind, Option.bind_some, h.fraction_eq, h.exponent_eq, List.append_nil,
    Nat.ofDigitChars_toDigits (show 1 < 10 by decide) (Nat.le_refl 10), and_self, if_true]
  rfl

theorem cons_ne_of_isDigit {c d : Char} (hc : c.isDigit = true) (hd : d.isDigit = false)
    (cs ds : List Char) : c :: cs ≠ d :: ds := by
  rintro h
  rw [(List.cons.inj h).1, hd] at hc
  cases hc

theorem scalar?_of_isDigit {c : Char} (hc : c.isDigit = true) (cs : List Char) :
    scalar? (c :: cs) = unsigned? 1 (c :: cs) := by
  have hword : word? (c :: cs) = none := by
    rw [word?]
    · exact fun _ => cons_ne_of_isDigit hc (by decide) cs _
    · exact fun _ => cons_ne_of_isDigit hc (by decide) cs _
    · exact fun _ => cons_ne_of_isDigit hc (by decide) cs _
  rw [scalar?, hword, Option.none_or, number?]
  · exact fun _ => cons_ne_of_isDigit hc (by decide) cs _
  · exact fun _ => cons_ne_of_isDigit hc (by decide) cs _

theorem scalar?_digits (n : Int) {rest : List Char} (h : Stops rest) :
    scalar? (digits n ++ rest) = some (.integer n, rest) := by
  rw [digits]
  split
  · have hread := unsigned?_toDigits (-1) n.natAbs h
    have hn : -1 * (n.natAbs : Int) = n := by omega
    rw [hn] at hread
    exact hread
  · have hread := unsigned?_toDigits 1 n.natAbs h
    have hn : 1 * (n.natAbs : Int) = n := by omega
    obtain ⟨c, more, hcons, hc⟩ := exists_toDigits_cons n.natAbs
    rw [hn, hcons] at hread
    rw [hcons, List.cons_append, scalar?_of_isDigit hc]
    exact hread

end Json

end PineScript
