import EventRelay.Json.Basic

/-!
# Tokens of JSON

A JSON text is read in two steps: into tokens, and from the tokens straight into the type wanted.
A place where no token stands becomes `Token.bad` and ends the tokens, so that faults are met in the
order of the text. A value that is at hand already has tokens as well, the same as its text but for
the rounding of doubles.
-/

namespace EventRelay.Json

/-- The literal of a number: sign, whole part, fraction and exponent. -/
structure Literal where
  negative : Bool
  whole : List Char
  fraction : Option (List Char)
  exponent : Option Int
  deriving DecidableEq

namespace Literal

/-- The value of decimal digits. -/
def digitsValue (ds : List Char) : Nat := ds.foldl (fun n c => 10 * n + (c.toNat - 48)) 0

/-- The double that the digits stand for, unless it is too large for one. -/
def toDouble? (l : Literal) : Option Number :=
  let s := Decimal.significand l.whole (l.fraction.getD [])
  let scaled : Decimal.Significand := ⟨s.value, s.exponent + l.exponent.getD 0⟩
  (scaled.toBits? l.negative).map .double

/-- A number as it is kept. A whole number that fits into 64 bits stays one, except for minus
zero; any other becomes a double, if it is not too large for one. -/
def toNumber? (l : Literal) : Option Number :=
  let n := digitsValue l.whole
  match l.fraction, l.exponent with
  | none, none =>
    if l.negative then
      if 0 < n ∧ n ≤ Nat.pow 2 63 then some (.whole (-(n : Int))) else l.toDouble?
    else if n < Nat.pow 2 64 then some (.whole n) else l.toDouble?
  | _, _ => l.toDouble?

end Literal

/-- A token of JSON. -/
inductive Token where
  | openBrace
  | closeBrace
  | openBracket
  | closeBracket
  | comma
  | colon
  | null
  | bool (value : Bool)
  /-- A number; `none` where it is too large for a double. -/
  | number (value : Option Number)
  /-- A string; `none` where an escape names half of a surrogate pair alone. -/
  | string (value : Option String)
  /-- No token starts here, or one is broken. -/
  | bad
  deriving DecidableEq

namespace Token

/-- Space, tab, line feed and carriage return. -/
def isSpace (c : Char) : Bool := c == ' ' || c == '\t' || c == '\n' || c == '\r'

/-- The value of four hexadecimal digits. -/
def hex4? : List Char → Option (Nat × List Char)
  | a :: b :: c :: d :: rest => do
    let value ← [a, b, c, d].foldlM (fun n c => (16 * n + ·) <$> hexValue? c) 0
    return (value, rest)
  | _ => none
where
  /-- The value of a hexadecimal digit. -/
  hexValue? (c : Char) : Option Nat :=
    if '0' ≤ c ∧ c ≤ '9' then some (c.toNat - 48)
    else if 'a' ≤ c ∧ c ≤ 'f' then some (c.toNat - 87)
    else if 'A' ≤ c ∧ c ≤ 'F' then some (c.toNat - 55)
    else none

/-- The character that a backslash with one letter stands for. -/
def simpleEscape? : Char → Option Char
  | '"' => some '"'
  | '\\' => some '\\'
  | '/' => some '/'
  | 'b' => some '\x08'
  | 'f' => some '\x0c'
  | 'n' => some '\n'
  | 'r' => some '\r'
  | 't' => some '\t'
  | _ => none

/-- A unit of a string: a character, or half of a surrogate pair. -/
inductive StringUnit where
  | char (c : Char)
  | surrogate (n : Nat)
  deriving DecidableEq

/-- The unit with a number of sixteen bits. -/
def StringUnit.ofNat (n : Nat) : StringUnit :=
  if 0xD800 ≤ n ∧ n ≤ 0xDFFF then .surrogate n else .char (Char.ofNat n)

/-- Joins surrogate pairs; nothing if half of one stands alone. -/
def joinUnits : List StringUnit → Option (List Char)
  | [] => some []
  | .char c :: rest => (c :: ·) <$> joinUnits rest
  | .surrogate hi :: .surrogate lo :: rest =>
    if hi ≤ 0xDBFF ∧ 0xDC00 ≤ lo then
      (Char.ofNat (0x10000 + (hi - 0xD800) * 0x400 + (lo - 0xDC00)) :: ·) <$> joinUnits rest
    else none
  | .surrogate _ :: _ => none

/-- The units of a string after its opening quote, up to its closing one. -/
def stringUnits? (fuel : Nat) (units : List StringUnit) :
    List Char → Option (List StringUnit × List Char)
  | [] => none
  | '"' :: rest => some (units.reverse, rest)
  | '\\' :: 'u' :: rest =>
    match fuel with
    | 0 => none
    | fuel + 1 =>
      match hex4? rest with
      | some (n, rest) => stringUnits? fuel (.ofNat n :: units) rest
      | none => none
  | '\\' :: c :: rest =>
    match fuel with
    | 0 => none
    | fuel + 1 =>
      match simpleEscape? c with
      | some e => stringUnits? fuel (.char e :: units) rest
      | none => none
  | c :: rest =>
    match fuel with
    | 0 => none
    | fuel + 1 =>
      if c = '\\' ∨ c.toNat < 32 then none else stringUnits? fuel (.char c :: units) rest

/-- A string after its opening quote. -/
def string? (cs : List Char) : Option (Option String × List Char) :=
  (stringUnits? cs.length [] cs).map fun (units, rest) =>
    ((joinUnits units).map String.ofList, rest)

/-- Splits the ASCII digits off the front. -/
def digits (cs : List Char) : List Char × List Char :=
  cs.span Char.isDigit

/-- A fraction, if a point follows: at least one digit. -/
def fraction? : List Char → Option (Option (List Char) × List Char)
  | '.' :: rest =>
    match digits rest with
    | ([], _) => none
    | (ds, rest) => some (some ds, rest)
  | cs => some (none, cs)

/-- An exponent, if its letter follows: an optional sign and at least one digit. -/
def exponent? : List Char → Option (Option Int × List Char)
  | c :: rest =>
    if c = 'e' ∨ c = 'E' then
      let (sign, rest) : Int × List Char := match rest with
        | '+' :: rest => (1, rest)
        | '-' :: rest => (-1, rest)
        | rest => (1, rest)
      match digits rest with
      | ([], _) => none
      | (ds, rest) => some (some (sign * Literal.digitsValue ds), rest)
    else some (none, c :: rest)
  | [] => some (none, [])

/-- The literal of a number: no zeros in front of other digits, no bare point or exponent. -/
def literal? (cs : List Char) : Option (Literal × List Char) := do
  let (negative, cs) := match cs with
    | '-' :: rest => (true, rest)
    | cs => (false, cs)
  let (whole, cs) := digits cs
  guard (whole ≠ [] ∧ (whole.length = 1 ∨ whole.head? ≠ some '0'))
  let (fraction, cs) ← fraction? cs
  let (exponent, cs) ← exponent? cs
  return ({ negative, whole, fraction, exponent }, cs)

/-- The token at the front of a text that does not start with a blank. -/
def first (cs : List Char) : Token × List Char :=
  match cs with
  | [] => (.bad, [])
  | '\x7b' :: rest => (.openBrace, rest)
  | '\x7d' :: rest => (.closeBrace, rest)
  | '[' :: rest => (.openBracket, rest)
  | ']' :: rest => (.closeBracket, rest)
  | ',' :: rest => (.comma, rest)
  | ':' :: rest => (.colon, rest)
  | '"' :: rest =>
    match string? rest with
    | some (s, rest) => (.string s, rest)
    | none => (.bad, [])
  | 'n' :: 'u' :: 'l' :: 'l' :: rest => (.null, rest)
  | 't' :: 'r' :: 'u' :: 'e' :: rest => (.bool true, rest)
  | 'f' :: 'a' :: 'l' :: 's' :: 'e' :: rest => (.bool false, rest)
  | c :: rest =>
    if c = '-' ∨ c.isDigit then
      match literal? (c :: rest) with
      | some (l, rest) => (.number l.toNumber?, rest)
      | none => (.bad, [])
    else (.bad, [])

/-- The tokens of a text, at most `fuel` of them. -/
def list : Nat → List Char → List Token
  | 0, _ => []
  | fuel + 1, cs =>
    match cs.dropWhile isSpace with
    | [] => []
    | c :: rest =>
      match first (c :: rest) with
      | (.bad, _) => [.bad]
      | (t, rest) => t :: list fuel rest

/-- The tokens of a text. Each takes at least one character, so there are no more of them than
characters. -/
def ofChars (cs : List Char) : List Token := list cs.length cs

end Token

/-! ## Tokens of a value -/

mutual

/-- The tokens of a value. -/
def tokens : Json → List Token
  | null => [.null]
  | bool b => [.bool b]
  | number n => [.number (some n)]
  | string s => [.string (some s)]
  | array [] => [.openBracket, .closeBracket]
  | array (item :: rest) => .openBracket :: (tokens item ++ itemTokens rest)
  | object [] => [.openBrace, .closeBrace]
  | object ((name, value) :: rest) =>
    .openBrace :: .string (some name) :: .colon :: (tokens value ++ memberTokens rest)

/-- The tokens of the items after the first one, up to the end of the array. -/
def itemTokens : List Json → List Token
  | [] => [.closeBracket]
  | item :: rest => .comma :: (tokens item ++ itemTokens rest)

/-- The tokens of the members after the first one, up to the end of the object. -/
def memberTokens : List (String × Json) → List Token
  | [] => [.closeBrace]
  | (name, value) :: rest =>
    .comma :: .string (some name) :: .colon :: (tokens value ++ memberTokens rest)

end

end EventRelay.Json
