import EventRelay.Json.Basic

/-!
# Writing JSON

The compact form: no blanks, members in the order they stand in, and in strings only the quote, the
backslash and the control characters below U+0020 written as escapes.
-/

namespace EventRelay.Json

/-- The four lower case hexadecimal digits of an escape. -/
def escapeDigits (n : Nat) : List Char :=
  [n / 4096 % 16, n / 256 % 16, n / 16 % 16, n % 16].map Nat.digitChar

/-- The characters that stand for one character of a string. -/
def escapeChar (c : Char) : List Char :=
  if c = '"' then ['\\', '"']
  else if c = '\\' then ['\\', '\\']
  else if c = '\n' then ['\\', 'n']
  else if c = '\r' then ['\\', 'r']
  else if c = '\t' then ['\\', 't']
  else if c = '\x08' then ['\\', 'b']
  else if c = '\x0c' then ['\\', 'f']
  else if c.toNat < 32 then '\\' :: 'u' :: escapeDigits c.toNat
  else [c]

/-- A string between quotes. -/
def stringChars (s : String) : List Char := '"' :: (s.toList.flatMap escapeChar ++ ['"'])

/-- A number. -/
def numberChars : Number → List Char
  | .whole n => (toString n).toList
  | .double bits => (Decimal.write bits).toList

mutual

/-- The characters of a value. -/
def toChars : Json → List Char
  | null => ['n', 'u', 'l', 'l']
  | bool true => ['t', 'r', 'u', 'e']
  | bool false => ['f', 'a', 'l', 's', 'e']
  | number n => numberChars n
  | string s => stringChars s
  | array [] => ['[', ']']
  | array (item :: rest) => '[' :: (toChars item ++ itemChars rest)
  | object [] => ['\x7b', '\x7d']
  | object ((name, value) :: rest) =>
    '\x7b' :: (stringChars name ++ ':' :: (toChars value ++ memberChars rest))

/-- The characters of the items after the first one, up to the end of the array. -/
def itemChars : List Json → List Char
  | [] => [']']
  | item :: rest => ',' :: (toChars item ++ itemChars rest)

/-- The characters of the members after the first one, up to the end of the object. -/
def memberChars : List (String × Json) → List Char
  | [] => ['\x7d']
  | (name, value) :: rest =>
    ',' :: (stringChars name ++ ':' :: (toChars value ++ memberChars rest))

end

/-- The compact text of a value. -/
def compact (v : Json) : String := String.ofList v.toChars

end EventRelay.Json
