import Offload.Text.Ascii

/-!
# Texts as bytes

Offsets, spans and columns count bytes of the UTF-8 form of a text. `Text.bytes` is that form,
`Text.ofBytes` reads it back, and `Text.slice` cuts it at character boundaries only. Reading
accepts every byte sequence: each longest run that starts a character and cannot be completed
becomes one U+FFFD.
-/

namespace Offload.Text

/-- The UTF-8 form of a text. -/
def bytes (s : String) : List UInt8 := s.toList.flatMap String.utf8EncodeChar

/-- Bytes that stand inside a character, never at its start. -/
def isContinuation (b : UInt8) : Bool := 0x80 ≤ b && b ≤ 0xBF

/-- Offsets at which a text may be cut: its two ends and the start of each character. -/
def isBoundary (text : List UInt8) (offset : Nat) : Bool :=
  offset == 0 || offset == text.length ||
    match text[offset]? with
    | some b => !isContinuation b
    | none => false

/-- The bytes from `start` up to `stop`, if both are boundaries and in order. -/
def slice (text : List UInt8) (start stop : Nat) : Option (List UInt8) :=
  if start ≤ stop ∧ stop ≤ text.length ∧ isBoundary text start ∧ isBoundary text stop then
    some ((text.drop start).take (stop - start))
  else
    none

/-- A character begun: its bits so far, the range of its next byte, and how many bytes follow
that one. -/
structure Pending where
  code : Nat
  low : UInt8
  high : UInt8
  more : Nat

/-- What one byte is when no character has begun. -/
inductive Lead where
  | whole (c : Char)
  | begun (p : Pending)
  | invalid

/-- The second byte's range excludes overlong forms, surrogates and code points past U+10FFFF. -/
def lead (b : UInt8) : Lead :=
  if b < 0x80 then .whole (Ascii.latin1 b)
  else if b < 0xC2 then .invalid
  else if b < 0xE0 then .begun ⟨b.toNat - 0xC0, 0x80, 0xBF, 0⟩
  else if b == 0xE0 then .begun ⟨0, 0xA0, 0xBF, 1⟩
  else if b == 0xED then .begun ⟨0xD, 0x80, 0x9F, 1⟩
  else if b < 0xF0 then .begun ⟨b.toNat - 0xE0, 0x80, 0xBF, 1⟩
  else if b == 0xF0 then .begun ⟨0, 0x90, 0xBF, 2⟩
  else if b < 0xF4 then .begun ⟨b.toNat - 0xF0, 0x80, 0xBF, 2⟩
  else if b == 0xF4 then .begun ⟨4, 0x80, 0x8F, 2⟩
  else .invalid

def replacement : Char := Char.ofNat 0xFFFD

/-- Read on from a character begun, or from between two characters. -/
def decodeFrom : Option Pending → List UInt8 → List Char
  | none, [] => []
  | some _, [] => [replacement]
  | none, b :: rest =>
    match lead b with
    | .whole c => c :: decodeFrom none rest
    | .begun p => decodeFrom (some p) rest
    | .invalid => replacement :: decodeFrom none rest
  | some p, b :: rest =>
    if p.low ≤ b && b ≤ p.high then
      let code := p.code * 64 + (b.toNat - 0x80)
      match p.more with
      | 0 => Char.ofNat code :: decodeFrom none rest
      | more + 1 => decodeFrom (some ⟨code, 0x80, 0xBF, more⟩) rest
    else
      match lead b with
      | .whole c => replacement :: c :: decodeFrom none rest
      | .begun q => replacement :: decodeFrom (some q) rest
      | .invalid => replacement :: replacement :: decodeFrom none rest

/-- The text written by a byte sequence. -/
def ofBytes (bs : List UInt8) : String := String.ofList (decodeFrom none bs)

end Offload.Text
