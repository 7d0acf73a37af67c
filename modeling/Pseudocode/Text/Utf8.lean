import Pseudocode.Decimal.Layout
import Pseudocode.Text.Quoted

/-!
Decoding bytes as text.

A sequence of bytes is one character if its first byte says how long it is, the following bytes
continue it, and the second byte is in the range that excludes surrogates, too large numbers and
longer forms of shorter sequences. A failure covers the bytes of a sequence that were good so far,
or at the end of the data all of those that are left.
-/

namespace Pseudocode.Text

/-- Why bytes are not text. -/
inductive DecodeReason where
  | invalidStart | invalidContinuation | unexpectedEnd
deriving DecidableEq, Repr

def DecodeReason.message : DecodeReason → String
  | .invalidStart => "invalid start byte"
  | .invalidContinuation => "invalid continuation byte"
  | .unexpectedEnd => "unexpected end of data"

/-- A failure to decode: the position, the offending bytes, the first of them. -/
structure DecodeError where
  position : Nat
  count : Nat
  first : UInt8
  reason : DecodeReason
deriving DecidableEq, Repr

/-- The failure in words. -/
def DecodeError.message (e : DecodeError) : String :=
  "'utf-8' codec can't decode "
    ++ (if e.count = 1 then
      "byte 0x" ++ String.ofList (hexadecimal 2 e.first.toNat) ++ " in position "
        ++ Decimal.natText e.position
    else
      "bytes in position " ++ Decimal.natText e.position ++ "-"
        ++ Decimal.natText (e.position + e.count - 1))
    ++ ": " ++ e.reason.message

/-- Does the byte continue a sequence? -/
def continues (b : UInt8) : Bool := 0x80 ≤ b && b < 0xC0

/-- The number of bytes after the first in a sequence with this first byte. -/
def continuationCount? (b : UInt8) : Option Nat :=
  if b < 0x80 then some 0
  else if 0xC2 ≤ b ∧ b < 0xE0 then some 1
  else if 0xE0 ≤ b ∧ b < 0xF0 then some 2
  else if 0xF0 ≤ b ∧ b < 0xF5 then some 3
  else none

/-- Can the byte come second after this first byte? -/
def continuesFirst (first b : UInt8) : Bool :=
  continues b
    && !(first == 0xE0 && b < 0xA0) && !(first == 0xED && 0xA0 ≤ b)
    && !(first == 0xF0 && b < 0x90) && !(first == 0xF4 && 0x90 ≤ b)

/-- Read the `missing` further bytes of a character. The character's number so far is `code`, and
`good` bytes of it were good. The result is the number and the rest, or the number of good bytes and
the reason. -/
def continuation (fits : UInt8 → Bool) (code good : Nat) :
    Nat → List UInt8 → Except (Nat × DecodeReason) (Nat × List UInt8)
  | 0, bytes => .ok (code, bytes)
  | _ + 1, [] => .error (good, .unexpectedEnd)
  | missing + 1, b :: bytes =>
    if fits b then
      continuation continues (code * 64 + b.toNat % 64) (good + 1) missing bytes
    else .error (good, .invalidContinuation)

/-- The bits of a first byte that belong to the character's number. -/
def leadBits (b : UInt8) : Nat → Nat
  | 0 => b.toNat
  | 1 => b.toNat % 32
  | 2 => b.toNat % 16
  | _ => b.toNat % 8

/-- Decode bytes that start at a position, at most `rounds` characters. -/
def decodeFrom : Nat → Nat → List UInt8 → Except DecodeError (List Char)
  | 0, _, _ => .ok []
  | _ + 1, _, [] => .ok []
  | rounds + 1, position, b :: bytes =>
    match continuationCount? b with
    | none => .error ⟨position, 1, b, .invalidStart⟩
    | some count =>
      match continuation (continuesFirst b) (leadBits b count) 1 count bytes with
      | .error (good, reason) => .error ⟨position, good, b, reason⟩
      | .ok (code, rest) =>
        (decodeFrom rounds (position + count + 1) rest).map (Char.ofNat code :: ·)

/-- Decode bytes as text. -/
def decodeUtf8 (bytes : List UInt8) : Except DecodeError (List Char) :=
  decodeFrom bytes.length 0 bytes

/-- Make every line end a line feed: a carriage return, with a line feed after it or without. -/
def unifyLineEnds : List Char → List Char
  | [] => []
  | ['\r'] => ['\n']
  | '\r' :: '\n' :: cs => '\n' :: unifyLineEnds cs
  | c :: cs => (if c = '\r' then '\n' else c) :: unifyLineEnds cs

end Pseudocode.Text
