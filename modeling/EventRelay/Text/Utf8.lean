/-!
# Bytes as text

Text is sent as bytes of UTF-8. Where bytes are no UTF-8, a reader either refuses them or puts
U+FFFD in place of each ill-formed stretch: the longest beginning of a character that breaks off
there, or else one byte.
-/

namespace EventRelay.Text

/-- The bytes of a text. -/
def utf8 (s : String) : List UInt8 := s.toUTF8.toList

/-- What stands at the front of bytes: a character, or an ill-formed stretch of some length. -/
inductive Leading where
  | char (c : Char) (length : Nat)
  | illFormed (length : Nat)

/-- The first byte of a character of several bytes: how many bytes follow, the range of the second
byte, and the value of the first byte's own bits. -/
def leadingByte? (b : Nat) : Option (Nat × Nat × Nat × Nat) :=
  if 0xC2 ≤ b ∧ b ≤ 0xDF then some (1, 0x80, 0xBF, b - 0xC0)
  else if b = 0xE0 then some (2, 0xA0, 0xBF, 0)
  else if b = 0xED then some (2, 0x80, 0x9F, 0xD)
  else if 0xE1 ≤ b ∧ b ≤ 0xEF then some (2, 0x80, 0xBF, b - 0xE0)
  else if b = 0xF0 then some (3, 0x90, 0xBF, 0)
  else if 0xF1 ≤ b ∧ b ≤ 0xF3 then some (3, 0x80, 0xBF, b - 0xF0)
  else if b = 0xF4 then some (3, 0x80, 0x8F, 4)
  else none

/-- Reads `count` more bytes, the next of which lies in a range; `value` and `length` are what was
read before. -/
def continueChar (low high : Nat) : (count value length : Nat) → List UInt8 → Leading
  | 0, value, length, _ => .char (Char.ofNat value) length
  | _ + 1, _, length, [] => .illFormed length
  | count + 1, value, length, b :: rest =>
    let n := b.toNat
    if low ≤ n ∧ n ≤ high then
      continueChar 0x80 0xBF count (value * 64 + (n - 0x80)) (length + 1) rest
    else .illFormed length

/-- What stands at the front of bytes of which the first is `b`. -/
def leading (b : UInt8) (rest : List UInt8) : Leading :=
  let n := b.toNat
  if n < 0x80 then .char (Char.ofNat n) 1
  else
    match leadingByte? n with
    | some (count, low, high, value) => continueChar low high count value 1 rest
    | none => .illFormed 1

/-- The characters and ill-formed stretches of bytes, at most `fuel` of them. -/
def decodeWithin : (fuel : Nat) → List UInt8 → List (Option Char)
  | 0, _ => []
  | _ + 1, [] => []
  | fuel + 1, b :: rest =>
    match leading b rest with
    | .char c length => some c :: decodeWithin fuel (rest.drop (length - 1))
    | .illFormed length => none :: decodeWithin fuel (rest.drop (length - 1))

/-- The characters of bytes, and nothing for each ill-formed stretch. Each takes at least one byte.
-/
def decode (bytes : List UInt8) : List (Option Char) := decodeWithin bytes.length bytes

/-- The text of bytes that are UTF-8. -/
def ofUtf8? (bytes : List UInt8) : Option String :=
  ((decode bytes).mapM id).map String.ofList

/-- The text of bytes, with U+FFFD for each ill-formed stretch. -/
def ofUtf8Lossy (bytes : List UInt8) : String :=
  String.ofList ((decode bytes).map fun c => c.getD '\ufffd')

end EventRelay.Text
