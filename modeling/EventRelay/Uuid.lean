/-!
# Universally unique identifiers

A UUID is a number of 128 bits. It is read from any of four spellings and written in one: thirty
two lower case hexadecimal digits in groups of 8, 4, 4, 4 and 12 with hyphens between them.
-/

namespace EventRelay

/-- A number of 128 bits that names an aggregate, an event or a lease. -/
structure Uuid where
  value : Nat
  value_lt : value < Nat.pow 2 128 := by decide
  deriving DecidableEq

namespace Uuid

/-- The UUID with all bits zero. -/
def zero : Uuid := { value := 0 }

instance : Inhabited Uuid := ⟨zero⟩

/-- The UUID that holds the low 128 bits of a number. -/
def ofNat (n : Nat) : Uuid where
  value := n % Nat.pow 2 128
  value_lt := Nat.mod_lt _ (by decide)

/-- The version field: the thirteenth hexadecimal digit. -/
def version (u : Uuid) : Nat := u.value / Nat.pow 2 76 % 16

/-- All the bits of `seed`, with version and variant set over them. -/
def ofSeed (version seed : Nat) : Uuid :=
  let high := seed / Nat.pow 2 80 % Nat.pow 2 48
  let mid := seed / Nat.pow 2 64 % Nat.pow 2 12
  let low := seed % Nat.pow 2 62
  ofNat (high * Nat.pow 2 80 + version % 16 * Nat.pow 2 76 + mid * Nat.pow 2 64 + Nat.pow 2 63 +
    low)

/-! ## Writing -/

/-- The hexadecimal digit of a value below sixteen. -/
def hexDigit (n : Nat) : Char :=
  if n < 10 then Char.ofNat (48 + n) else Char.ofNat (87 + n)

/-- The `count` lowest hexadecimal digits, the highest first. -/
def hexDigits (n : Nat) : Nat → List Char
  | 0 => []
  | count + 1 => hexDigits (n / 16) count ++ [hexDigit (n % 16)]

/-- Groups of 8, 4, 4, 4 and 12 digits with hyphens between them. -/
def toChars (u : Uuid) : List Char :=
  hexDigits (u.value / Nat.pow 2 96) 8 ++ '-' :: hexDigits (u.value / Nat.pow 2 80) 4 ++
    '-' :: hexDigits (u.value / Nat.pow 2 64) 4 ++ '-' :: hexDigits (u.value / Nat.pow 2 48) 4 ++
    '-' :: hexDigits u.value 12

/-- The written form. -/
def toString (u : Uuid) : String := String.ofList u.toChars

instance : ToString Uuid := ⟨toString⟩

/-! ## Reading -/

/-- The value of a hexadecimal digit of either case. -/
def hexValue? (c : Char) : Option Nat :=
  if '0' ≤ c ∧ c ≤ '9' then some (c.toNat - 48)
  else if 'a' ≤ c ∧ c ≤ 'f' then some (c.toNat - 87)
  else if 'A' ≤ c ∧ c ≤ 'F' then some (c.toNat - 55)
  else none

/-- The value of a text of hexadecimal digits. -/
def ofHex? : Nat → List Char → Option Nat
  | value, [] => some value
  | value, c :: rest => do ofHex? (16 * value + (← hexValue? c)) rest

/-- Thirty two digits without hyphens. -/
def ofSimple? (cs : List Char) : Option Uuid :=
  if cs.length = 32 then (ofHex? 0 cs).map ofNat else none

/-- Groups of 8, 4, 4, 4 and 12 digits with hyphens between them. -/
def ofHyphenated? (cs : List Char) : Option Uuid :=
  if cs.length = 36 ∧ cs[8]? = some '-' ∧ cs[13]? = some '-' ∧ cs[18]? = some '-' ∧
      cs[23]? = some '-' then
    ofSimple? (cs.take 8 ++ (cs.drop 9).take 4 ++ (cs.drop 14).take 4 ++ (cs.drop 19).take 4 ++
      cs.drop 24)
  else none

/-- The word in front of the spelling as a resource name, in any case. -/
def hasUrnMark (cs : List Char) : Bool :=
  (cs.take 9).map Char.toLower == "urn:uuid:".toList

/-- Reads the four spellings: hyphenated, digits alone, hyphenated in braces, and hyphenated after
`urn:uuid:`. Nothing is trimmed. -/
def ofChars? (cs : List Char) : Option Uuid :=
  match cs.length with
  | 32 => ofSimple? cs
  | 36 => ofHyphenated? cs
  | 38 =>
    if cs.head? = some '\x7b' ∧ cs.getLast? = some '\x7d' then ofHyphenated? (cs.tail.dropLast)
    else none
  | 45 => if hasUrnMark cs then ofHyphenated? (cs.drop 9) else none
  | _ => none

/-- Reads a UUID in any of its four spellings. -/
def parse? (s : String) : Option Uuid := ofChars? s.toList

end Uuid

end EventRelay
