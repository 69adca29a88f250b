import EventRelay.Text.Utf8
import EventRelay.Uuid

/-!
# Escapes in addresses

In the path of an address, and in the names and values of its query, a percent sign and two
hexadecimal digits stand for a byte. In the query a plus sign stands for a blank besides.
-/

namespace EventRelay.Http

/-- Puts bytes in place of escapes. A percent sign that no two hexadecimal digits follow stands for
itself. -/
def unescape : List UInt8 → List UInt8
  | [] => []
  | b :: hi :: lo :: rest =>
    if b = 0x25 then
      match Uuid.hexValue? (Char.ofNat hi.toNat), Uuid.hexValue? (Char.ofNat lo.toNat) with
      | some h, some l => UInt8.ofNat (16 * h + l) :: unescape rest
      | _, _ => b :: unescape (hi :: lo :: rest)
    else b :: unescape (hi :: lo :: rest)
  | b :: rest => b :: unescape rest

/-- A part of a path as text, if it is UTF-8. -/
def pathText? (part : String) : Option String := Text.ofUtf8? (unescape (Text.utf8 part))

/-- A name or value of a query as text. -/
def queryText (part : String) : String :=
  Text.ofUtf8Lossy (unescape ((Text.utf8 part).map fun b => if b = 0x2B then 0x20 else b))

/-- A byte that stands for itself in a query: letters, digits, and four marks. -/
def isPlain (b : UInt8) : Bool :=
  let c := Char.ofNat b.toNat
  c.isAlphanum && b < 0x80 || c == '*' || c == '-' || c == '.' || c == '_'

/-- An upper case hexadecimal digit. -/
def upperHexDigit (n : Nat) : Char := (Uuid.hexDigit n).toUpper

/-- A byte as a percent sign and two digits. -/
def percent (b : UInt8) : List Char :=
  ['%', upperHexDigit (b.toNat / 16), upperHexDigit (b.toNat % 16)]

/-- The characters that stand for a byte in a query. -/
def escapeByte (b : UInt8) : List Char :=
  if b = 0x20 then ['+'] else if isPlain b then [Char.ofNat b.toNat] else percent b

/-- A text as the name or value of a query. -/
def escape (s : String) : String := String.ofList ((Text.utf8 s).flatMap escapeByte)

end EventRelay.Http
