/-!
# Text from bytes, and back

Bytes are read as UTF-8. Each longest part of a well-formed sequence that is cut short, and each
byte that starts none, becomes one replacement character, so any bytes at all have a text. A newline
is never part of a longer sequence: text may be decoded line by line.
-/

namespace DeskCalculator.Text

/-- A sequence that has begun: the bits read, the bytes owed after the next one, and the range in
which the next one has to lie. -/
structure Pending where
  bits : Nat
  owed : Nat
  least : Nat
  greatest : Nat

/-- What a byte is that stands first. -/
inductive Lead where
  | character (c : Char)
  | sequence (pending : Pending)
  | malformed

/-- The ranges rule out overlong forms, surrogates and what lies beyond the last code point. -/
def Lead.of (byte : UInt8) : Lead :=
  let b := byte.toNat
  if b < 0x80 then .character (Char.ofNat b)
  else if b < 0xc2 then .malformed
  else if b < 0xe0 then .sequence ⟨b - 0xc0, 0, 0x80, 0xbf⟩
  else if b < 0xf0 then
    .sequence ⟨b - 0xe0, 1, if b = 0xe0 then 0xa0 else 0x80, if b = 0xed then 0x9f else 0xbf⟩
  else if b < 0xf5 then
    .sequence ⟨b - 0xf0, 2, if b = 0xf0 then 0x90 else 0x80, if b = 0xf4 then 0x8f else 0xbf⟩
  else .malformed

def replacement : Char := '\ufffd'

/-- Decodes the bytes that follow a sequence that has begun, if one has. -/
def decodeFrom : Option Pending → List UInt8 → List Char
  | none, [] => []
  | some _, [] => [replacement]
  | none, byte :: bytes =>
    match Lead.of byte with
    | .character c => c :: decodeFrom none bytes
    | .sequence pending => decodeFrom (some pending) bytes
    | .malformed => replacement :: decodeFrom none bytes
  | some pending, byte :: bytes =>
    if pending.least ≤ byte.toNat ∧ byte.toNat ≤ pending.greatest then
      let bits := pending.bits * 64 + (byte.toNat - 0x80)
      match pending.owed with
      | 0 => Char.ofNat bits :: decodeFrom none bytes
      | owed + 1 => decodeFrom (some ⟨bits, owed, 0x80, 0xbf⟩) bytes
    else
      match Lead.of byte with
      | .character c => replacement :: c :: decodeFrom none bytes
      | .sequence next => replacement :: decodeFrom (some next) bytes
      | .malformed => replacement :: replacement :: decodeFrom none bytes

def decode (bytes : List UInt8) : List Char := decodeFrom none bytes

/-- The bytes of a text. -/
def bytesOf (text : List Char) : List UInt8 := text.flatMap String.utf8EncodeChar

/-- The lines of some bytes, each with its newline; the last one may lack it. -/
def splitLines : List UInt8 → List (List UInt8)
  | [] => []
  | byte :: bytes =>
    if byte = 10 then [byte] :: splitLines bytes
    else
      match splitLines bytes with
      | [] => [[byte]]
      | line :: lines => (byte :: line) :: lines

def utf8Length : List Char → Nat
  | [] => 0
  | c :: text => c.utf8Size + utf8Length text

end DeskCalculator.Text
