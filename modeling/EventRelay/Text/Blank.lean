/-!
# Blank characters and trimming

The Unicode property `White_Space`, and the two questions every name in this library is asked:
what is left of it between its outermost characters that are not blank, and is anything left at
all. The zero width space U+200B and the byte order mark U+FEFF are not blank.
-/

namespace EventRelay.Text

/-- Characters with the Unicode property `White_Space`, twenty five in all. -/
def isBlankChar (c : Char) : Bool :=
  let n := c.toNat
  (9 ≤ n && n ≤ 13) || n == 0x20 || n == 0x85 || n == 0xA0 || n == 0x1680 ||
    (0x2000 ≤ n && n ≤ 0x200A) || n == 0x2028 || n == 0x2029 || n == 0x202F || n == 0x205F ||
    n == 0x3000

/-- The characters without the blank ones at either end. -/
def trimChars (cs : List Char) : List Char :=
  ((cs.dropWhile isBlankChar).reverse.dropWhile isBlankChar).reverse

/-- The text without the blank characters at either end. -/
def trim (s : String) : String :=
  String.ofList (trimChars s.toList)

/-- Nothing but blank characters, or nothing at all. -/
def isBlank (s : String) : Bool :=
  s.toList.all isBlankChar

end EventRelay.Text
