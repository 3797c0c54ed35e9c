/-!
# UTF-8

Decoding of bytes, with the exact place and reason of the first fault: the bytes named are the lead
byte and the valid continuations behind it.
-/

namespace PineScript.Text

inductive Utf8Reason where
  | start
  | continuation
  | endOfData
deriving DecidableEq, Repr

def Utf8Reason.text : Utf8Reason → String
  | start => "invalid start byte"
  | continuation => "invalid continuation byte"
  | endOfData => "unexpected end of data"

structure Utf8Fault where
  /-- The position of the lead byte. -/
  position : Nat
  /-- How many bytes are bad. -/
  width : Nat
  lead : UInt8
  reason : Utf8Reason
deriving DecidableEq, Repr

def hexPair (b : UInt8) : String :=
  String.ofList [(b.toNat / 16).digitChar, (b.toNat % 16).digitChar]

def Utf8Fault.message (f : Utf8Fault) : String :=
  let first := f.position
  let last := f.position + f.width - 1
  let reason := f.reason.text
  let lead := hexPair f.lead
  if f.width = 1 then s!"'utf-8' codec can't decode byte 0x{lead} in position {first}: {reason}"
  else s!"'utf-8' codec can't decode bytes in position {first}-{last}: {reason}"

/-- What a lead byte asks for: its own bits, the number of continuations, and the range of the first
of them, which rules out long forms, surrogates and numbers past the last character. -/
structure Lead where
  bits : Nat
  count : Nat
  low : Nat
  high : Nat

def lead? (b : Nat) : Option Lead :=
  if b < 0xc2 then none
  else if b < 0xe0 then some ⟨b - 0xc0, 1, 0x80, 0xbf⟩
  else if b = 0xe0 then some ⟨0, 2, 0xa0, 0xbf⟩
  else if b = 0xed then some ⟨0xd, 2, 0x80, 0x9f⟩
  else if b < 0xf0 then some ⟨b - 0xe0, 2, 0x80, 0xbf⟩
  else if b = 0xf0 then some ⟨0, 3, 0x90, 0xbf⟩
  else if b < 0xf4 then some ⟨b - 0xf0, 3, 0x80, 0xbf⟩
  else if b = 0xf4 then some ⟨4, 3, 0x80, 0x8f⟩
  else none

/-- Reads the continuations of a character. On failure it tells how many were valid. -/
def continuations (bits : Nat) : Nat → Nat → Nat → List UInt8 →
    Except (Nat × Utf8Reason) (Nat × List UInt8)
  | 0, _, _, bs => .ok (bits, bs)
  | _ + 1, _, _, [] => .error (0, .endOfData)
  | count + 1, low, high, b :: bs =>
    if low ≤ b.toNat ∧ b.toNat ≤ high then
      match continuations (bits * 64 + (b.toNat - 0x80)) count 0x80 0xbf bs with
      | .ok result => .ok result
      | .error (valid, reason) => .error (valid + 1, reason)
    else .error (0, .continuation)

/-- Decodes from a position on; every round takes a byte, so the length bounds the rounds. -/
def decodeFrom : Nat → Nat → List UInt8 → Except Utf8Fault (List Char)
  | 0, _, _ => .ok []
  | _ + 1, _, [] => .ok []
  | rounds + 1, position, b :: bs =>
    if b.toNat < 0x80 then (Char.ofNat b.toNat :: ·) <$> decodeFrom rounds (position + 1) bs
    else match lead? b.toNat with
      | none => .error ⟨position, 1, b, .start⟩
      | some l =>
        match continuations l.bits l.count l.low l.high bs with
        | .error (valid, reason) => .error ⟨position, valid + 1, b, reason⟩
        | .ok (code, rest) =>
          (Char.ofNat code :: ·) <$> decodeFrom rounds (position + l.count + 1) rest

def decodeUtf8 (bytes : List UInt8) : Except Utf8Fault String :=
  String.ofList <$> decodeFrom bytes.length 0 bytes

/-- A text with every line break written as a line feed. -/
def unifyBreaks : List Char → List Char
  | [] => []
  | '\r' :: '\n' :: rest => '\n' :: unifyBreaks rest
  | c :: rest => (if c = '\r' then '\n' else c) :: unifyBreaks rest

end PineScript.Text
