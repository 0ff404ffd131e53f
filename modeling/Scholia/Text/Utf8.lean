import Scholia.Text.Basic
/-!
# UTF-8

Bytes read as text. `units` divides a byte sequence into characters and malformed parts; a
malformed part is the longest start of a character that the next byte does not continue, or one
byte that starts none. A strict reader refuses any malformed part, a lenient one puts U+FFFD in its
place.
-/

namespace Scholia.Text.Utf8

/-- What stands at the front of a byte sequence, with the number of bytes it takes. -/
inductive Unit where
  /-- A whole character. -/
  | char (c : Char) (size : Nat)
  /-- The start of a character that is not continued, or a byte that starts none. -/
  | malformed (size : Nat)
  deriving Repr, DecidableEq

/-- The bytes that may follow a first byte of three or four. -/
def secondRange (first : Nat) : Nat × Nat :=
  if first = 0xE0 then (0xA0, 0xBF)
  else if first = 0xED then (0x80, 0x9F)
  else if first = 0xF0 then (0x90, 0xBF)
  else if first = 0xF4 then (0x80, 0x8F)
  else (0x80, 0xBF)

/-- Whether a byte stands in a range; the end of the sequence does not. -/
def within (range : Nat × Nat) : Option Nat → Bool
  | none => false
  | some b => range.1 ≤ b && b ≤ range.2

/-- The unit that starts with the byte `first`, before the bytes `rest`. -/
def unitAt (first : Nat) (rest : List Nat) : Unit :=
  let second := rest[0]?
  let third := rest[1]?
  let fourth := rest[2]?
  let bits (b : Option Nat) : Nat := b.getD 0x80 - 0x80
  if first < 0x80 then .char (Char.ofNat first) 1
  else if 0xC2 ≤ first && first ≤ 0xDF then
    if within (0x80, 0xBF) second then
      .char (Char.ofNat ((first - 0xC0) * 0x40 + bits second)) 2
    else .malformed 1
  else if 0xE0 ≤ first && first ≤ 0xEF then
    if !within (secondRange first) second then .malformed 1
    else if !within (0x80, 0xBF) third then .malformed 2
    else .char (Char.ofNat ((first - 0xE0) * 0x1000 + bits second * 0x40 + bits third)) 3
  else if 0xF0 ≤ first && first ≤ 0xF4 then
    if !within (secondRange first) second then .malformed 1
    else if !within (0x80, 0xBF) third then .malformed 2
    else if !within (0x80, 0xBF) fourth then .malformed 3
    else
      .char (Char.ofNat ((first - 0xF0) * 0x40000 + bits second * 0x1000 + bits third * 0x40
        + bits fourth)) 4
  else .malformed 1

/-- The units of a byte sequence, `none` for a malformed part, when `skip` bytes of the last unit
are still to pass. -/
def unitsFrom : Nat → List Nat → List (Option Char)
  | _, [] => []
  | skip + 1, _ :: r => unitsFrom skip r
  | 0, b :: r =>
    match unitAt b r with
    | .char c size => some c :: unitsFrom (size - 1) r
    | .malformed size => none :: unitsFrom (size - 1) r

/-- The units of a byte sequence, `none` for a malformed part. -/
def units (bytes : List UInt8) : List (Option Char) :=
  unitsFrom 0 (bytes.map UInt8.toNat)

/-- The text of a byte sequence without malformed parts. -/
def decode? (bytes : List UInt8) : Option Text :=
  (units bytes).mapM id

/-- The text of a byte sequence, with U+FFFD for each malformed part. -/
def decodeLenient (bytes : List UInt8) : Text :=
  (units bytes).map (·.getD '\ufffd')

end Scholia.Text.Utf8
