import PineScript.Proofs.Json.Layout

/-!
# Published diagnostics

Published text is made of line feeds and of ASCII characters that can be seen, and closed by one
line feed. Whoever decodes it gets back the diagnostics, each as a record of its fields. So no two
lists of diagnostics are published alike.

Main statement: `publish_faithful`.
-/

namespace PineScript

/-! ## Characters of published text -/

namespace Payload

/-- A line feed or an ASCII character that is no control character. -/
def IsPlain (c : Char) : Prop := c = '\n' ∨ 32 ≤ c.toNat ∧ c.toNat < 127

instance (c : Char) : Decidable (IsPlain c) :=
  inferInstanceAs (Decidable (c = '\n' ∨ 32 ≤ c.toNat ∧ c.toNat < 127))

theorem isPlain_digitChar (n : Nat) : IsPlain (n % 16).digitChar := by
  have hall : (List.range 16).all (fun n => IsPlain n.digitChar) = true := by decide
  exact of_decide_eq_true
    (List.all_eq_true.1 hall _ (List.mem_range.2 (Nat.mod_lt n (by decide))))

theorem isPlain_escapeUnit (n : Nat) : ∀ d ∈ escapeUnit n, IsPlain d := by
  refine List.forall_mem_cons.2 ⟨by decide, List.forall_mem_cons.2 ⟨by decide, fun d hd => ?_⟩⟩
  simp only [hex4, List.map_cons, List.map_nil, List.mem_cons, List.not_mem_nil, or_false] at hd
  rcases hd with rfl | rfl | rfl | rfl <;> exact isPlain_digitChar _

theorem isPlain_escape (c : Char) : ∀ d ∈ escape c, IsPlain d := by
  have hform := Json.escape_form c
  generalize escape c = text at hform
  cases hform with
  | @short mark _ hmark =>
    have hall : Json.shortMarks.all (fun pair => IsPlain pair.1) = true := by decide
    have hplain : IsPlain mark := of_decide_eq_true (List.all_eq_true.1 hall _ hmark)
    exact List.forall_mem_cons.2 ⟨by decide, List.forall_mem_singleton.2 hplain⟩
  | plain _ _ hlow hhigh => exact List.forall_mem_singleton.2 (.inr ⟨hlow, hhigh⟩)
  | unit _ => exact isPlain_escapeUnit _
  | halves _ => exact List.forall_mem_append.2 ⟨isPlain_escapeUnit _, isPlain_escapeUnit _⟩

theorem isPlain_quote (s : String) : ∀ c ∈ quote s, IsPlain c := by
  have hmark : IsPlain '"' := by decide
  refine List.forall_mem_append.2
    ⟨List.forall_mem_cons.2 ⟨hmark, fun d hd => ?_⟩, List.forall_mem_singleton.2 hmark⟩
  obtain ⟨c, -, hd⟩ := List.mem_flatMap.1 hd
  exact isPlain_escape c d hd

theorem isPlain_digits (n : Int) : ∀ c ∈ digits n, IsPlain c := by
  have hdigits : ∀ c ∈ Nat.toDigits 10 n.natAbs, IsPlain c := by
    intro c hc
    have hdigit := Nat.isDigit_of_mem_toDigits (by decide) (by decide) hc
    obtain ⟨hlow, hhigh⟩ := Bool.and_eq_true_iff.1 hdigit
    have hlow : 48 ≤ c.toNat := of_decide_eq_true hlow
    have hhigh : c.toNat ≤ 57 := of_decide_eq_true hhigh
    exact .inr ⟨by omega, by omega⟩
  rw [digits]
  split
  · exact List.forall_mem_cons.2 ⟨by decide, hdigits⟩
  · exact hdigits

theorem forall_mem_intercalate {P : Char → Prop} {mark : List Char} (hmark : ∀ c ∈ mark, P c)
    {lines : List (List Char)} (h : ∀ line ∈ lines, ∀ c ∈ line, P c) :
    ∀ c ∈ List.intercalate mark lines, P c := by
  intro c hc
  obtain ⟨line, hline, hc⟩ := List.mem_flatten.1 hc
  obtain ⟨i, hi⟩ := List.getElem?_of_mem hline
  rw [List.getElem?_intersperse] at hi
  split at hi
  · exact h line (List.mem_of_getElem? hi) c hc
  · exact hmark c (Option.some.inj (Option.ite_none_right_eq_some.1 hi).2 ▸ hc)

theorem isPlain_spaces (level : Nat) : ∀ c ∈ spaces level, IsPlain c := by
  intro c hc
  rw [(List.mem_replicate.1 hc).2]
  decide

theorem isPlain_enclose {opening closing : Char} (hopening : IsPlain opening)
    (hclosing : IsPlain closing) (level : Nat) {lines : List (List Char)}
    (h : ∀ line ∈ lines, ∀ c ∈ line, IsPlain c) :
    ∀ c ∈ enclose opening closing level lines, IsPlain c := by
  have hbreak : ∀ c ∈ ['\n'], IsPlain c := List.forall_mem_singleton.2 (by decide)
  cases lines with
  | nil => exact List.forall_mem_cons.2 ⟨hopening, List.forall_mem_singleton.2 hclosing⟩
  | cons line more =>
    have hinner : ∀ c ∈ List.intercalate [',', '\n']
        ((line :: more).map (spaces (level + 1) ++ ·)), IsPlain c := by
      refine forall_mem_intercalate (P := IsPlain)
        (List.forall_mem_cons.2 ⟨by decide, hbreak⟩) fun text htext => ?_
      obtain ⟨own, hown, rfl⟩ := List.mem_map.1 htext
      exact List.forall_mem_append.2 ⟨isPlain_spaces _, h own hown⟩
    simp only [enclose, List.forall_mem_append]
    exact ⟨⟨⟨⟨List.forall_mem_cons.2 ⟨hopening, hbreak⟩, hinner⟩, hbreak⟩, isPlain_spaces level⟩,
      List.forall_mem_singleton.2 hclosing⟩

mutual

theorem isPlain_render (level : Nat) : ∀ p : Payload, ∀ c ∈ render level p, IsPlain c
  | .number n => isPlain_digits n
  | .text s => isPlain_quote s
  | .list items =>
    isPlain_enclose (by decide) (by decide) level (isPlain_renderItems (level + 1) items)
  | .record fields =>
    isPlain_enclose (by decide) (by decide) level (isPlain_renderFields (level + 1) fields)

theorem isPlain_renderItems (level : Nat) :
    ∀ items : List Payload, ∀ line ∈ renderItems level items, ∀ c ∈ line, IsPlain c
  | [] => List.forall_mem_nil _
  | p :: more => List.forall_mem_cons.2 ⟨isPlain_render level p, isPlain_renderItems level more⟩

theorem isPlain_renderFields (level : Nat) :
    ∀ fields : List (String × Payload), ∀ line ∈ renderFields level fields, ∀ c ∈ line, IsPlain c
  | [] => List.forall_mem_nil _
  | (name, p) :: more => by
    have hcolon : ∀ c ∈ [':', ' '], IsPlain c :=
      List.forall_mem_cons.2 ⟨by decide, List.forall_mem_singleton.2 (by decide)⟩
    refine List.forall_mem_cons.2 ⟨?_, isPlain_renderFields level more⟩
    exact List.forall_mem_append.2
      ⟨List.forall_mem_append.2 ⟨isPlain_quote name, hcolon⟩, isPlain_render level p⟩

end

/-- A list or a record ends in its closing mark. -/
theorem exists_enclose_append (opening closing : Char) (level : Nat) (lines : List (List Char)) :
    ∃ body, enclose opening closing level lines = body ++ [closing] := by
  cases lines with
  | nil => exact ⟨[opening], rfl⟩
  | cons line more => exact ⟨_, rfl⟩

end Payload

/-! ## Diagnostics -/

namespace Diagnostic

/-- A position as its readers see it. -/
def positionRecord (p : Position) : Json :=
  .object [("line", .integer p.line), ("character", .integer p.character)]

/-- A diagnostic as its readers see it. -/
def asRecord (d : Diagnostic) : Json :=
  .object
    [("code", .text d.code),
     ("message", .text d.message),
     ("severity", .integer (if d.isError then 2 else 1)),
     ("range", .object
       [("start", positionRecord d.range.start), ("end", positionRecord d.range.stop)]),
     ("source", .text d.source)]

theorem json_payload (d : Diagnostic) : d.payload.json = d.asRecord := by
  obtain ⟨code, message, severity, range, source⟩ := d
  cases severity <;> rfl

theorem jsonItems_map_payload (ds : List Diagnostic) :
    Payload.jsonItems (ds.map payload) = ds.map asRecord := by
  induction ds with
  | nil => rfl
  | cons d ds ih => rw [List.map_cons, Payload.jsonItems, json_payload, ih, List.map_cons]

theorem positionRecord_injective {p q : Position} (h : positionRecord p = positionRecord q) :
    p = q := by
  cases p
  cases q
  simpa [positionRecord] using h

/-- All fields of a diagnostic can be told from its record. -/
theorem asRecord_injective {d e : Diagnostic} (h : d.asRecord = e.asRecord) : d = e := by
  obtain ⟨code, message, severity, ⟨start, stop⟩, source⟩ := d
  obtain ⟨code', message', severity', ⟨start', stop'⟩, source'⟩ := e
  simp only [asRecord, Json.object.injEq, List.cons.injEq, Prod.mk.injEq, Json.text.injEq,
    Json.integer.injEq, true_and, and_true] at h
  obtain ⟨rfl, rfl, hseverity, ⟨hstart, hstop⟩, rfl⟩ := h
  obtain rfl := positionRecord_injective hstart
  obtain rfl := positionRecord_injective hstop
  cases severity <;> cases severity' <;> first | rfl | cases hseverity

theorem decode_publish (ds : List Diagnostic) :
    Json.decode (publish ds) = some (.array (ds.map asRecord)) := by
  rw [publish, Payload.decode_render, Payload.json, jsonItems_map_payload]

theorem isPlain_publish (ds : List Diagnostic) : ∀ c ∈ (publish ds).toList, Payload.IsPlain c := by
  rw [publish, String.toList_ofList]
  exact List.forall_mem_append.2
    ⟨Payload.isPlain_render 0 _, List.forall_mem_singleton.2 (.inl rfl)⟩

/-- Published text has only ASCII characters, it ends in one line feed, and it is decoded as the
list of the diagnostics' records. So it tells the diagnostics. -/
theorem publish_faithful :
    (∀ ds : List Diagnostic,
      (∀ c ∈ (publish ds).toList, c.toNat < 128) ∧
      (∃ body, (publish ds).toList = body ++ [']', '\n']) ∧
      Json.decode (publish ds) = some (.array (ds.map asRecord))) ∧
    Function.Injective publish := by
  refine ⟨fun ds => ⟨?_, ?_, decode_publish ds⟩, fun ds ds' h => ?_⟩
  · intro c hc
    rcases isPlain_publish ds c hc with rfl | ⟨-, hlt⟩
    · decide
    · omega
  · obtain ⟨body, hbody⟩ := Payload.exists_enclose_append '[' ']' 0
      (Payload.renderItems 1 (ds.map payload))
    refine ⟨body, ?_⟩
    rw [publish, String.toList_ofList, Payload.render, hbody, List.append_assoc]
    rfl
  · have hdecoded := decode_publish ds
    rw [h, decode_publish ds', Option.some.injEq, Json.array.injEq] at hdecoded
    exact (List.map_injective_iff.2 (fun _ _ => asRecord_injective) hdecoded).symm

/-- A message with a quote, a line feed and a character outside the basic plane. -/
theorem publish_faithful_escaped :
    ']' ∈ (publish [⟨"A", "\"\n😀", .warning, .origin, "é"⟩]).toList ∧ ']'.toNat < 128 ∧
    Json.decode (publish [⟨"A", "\"\n😀", .warning, .origin, "é"⟩]) = some (.array [.object
      [("code", .text "A"), ("message", .text "\"\n😀"), ("severity", .integer 1),
        ("range", .object
          [("start", .object [("line", .integer 0), ("character", .integer 0)]),
            ("end", .object [("line", .integer 0), ("character", .integer 0)])]),
        ("source", .text "é")]]) := by
  obtain ⟨hascii, ⟨body, hbody⟩, hdecode⟩ :=
    publish_faithful.1 [⟨"A", "\"\n😀", .warning, .origin, "é"⟩]
  have hmem : ']' ∈ (publish [⟨"A", "\"\n😀", .warning, .origin, "é"⟩]).toList := by
    rw [hbody]
    exact List.mem_append_right body List.mem_cons_self
  exact ⟨hmem, hascii _ hmem, hdecode⟩

end Diagnostic

end PineScript
