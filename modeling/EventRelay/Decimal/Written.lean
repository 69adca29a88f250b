import EventRelay.Decimal.Shortest

/-!
# How a double is written and read

A double is written with its shortest digits: positionally while the point is near them, with an
exponent otherwise, and always so that it can be told from a whole number.

A decimal is read by rounding its significand to a double and then multiplying with or dividing by
a power of ten, each step rounded on its own. A significand keeps as many digits as fit into 64
bits.
-/

namespace EventRelay.Decimal

/-- Digits with a point after the first `count` of them. -/
def withPoint (digits : String) (count : Nat) : String :=
  String.ofList (digits.toList.take count) ++ "." ++ String.ofList (digits.toList.drop count)

/-- An exponent, always with its sign. -/
def exponentText (e : Int) : String := "e" ++ (if e < 0 then "-" else "+") ++ toString e.natAbs

/-- The text of the digits: positional when the number is below `10 ^ 16` and at least `10 ^ -5`,
with an exponent otherwise. -/
def positional (d : Digits) : String :=
  let digits := toString d.value
  let count : Int := digits.length
  let point := count + d.exponent
  if 0 ≤ d.exponent ∧ point ≤ 16 then digits.pushn '0' d.exponent.toNat ++ ".0"
  else if 0 < point ∧ point ≤ 16 then withPoint digits point.toNat
  else if -5 < point ∧ point ≤ 0 then "0." ++ "".pushn '0' (-point).toNat ++ digits
  else if count = 1 then digits ++ exponentText (point - 1)
  else withPoint digits 1 ++ exponentText (point - 1)

/-- The text of a finite double. -/
def write (bits : UInt64) : String :=
  let sign := if isNegative bits then "-" else ""
  if (magnitude bits).mantissa = 0 then sign ++ "0.0" else sign ++ positional (shortestDigits bits)

/-! ## Reading -/

/-- Digits of a significand that fit into 64 bits, and the power of ten they are to be taken by. -/
structure Significand where
  value : Nat
  exponent : Int
  deriving DecidableEq, Repr

/-- The greatest significand. -/
def significandLimit : Nat := Nat.pow 2 64 - 1

/-- Takes digits onto a significand while they fit; answers those that did not. -/
def takeDigits : Nat → List Char → Nat × List Char
  | value, [] => (value, [])
  | value, c :: rest =>
    let next := 10 * value + (c.toNat - 48)
    if next ≤ significandLimit then takeDigits next rest else (value, c :: rest)

/-- The significand of a whole part and a fraction. Digits of the whole part that do not fit raise
the exponent; digits of the fraction that do not fit are left out. -/
def significand (whole fraction : List Char) : Significand :=
  let (value, left) := takeDigits 0 whole
  let (value, unread) := takeDigits value fraction
  ⟨value, (left.length : Int) - (fraction.length - unread.length : Nat)⟩

/-- A power of ten as a double. -/
def power (n : Nat) : Float := OfScientific.ofScientific 1 false n

/-- Scales a double by a power of ten, in steps of `10 ^ 308` at most; nothing if it overflows. -/
def scale : Nat → Float → Int → Option Float
  | fuel, f, e =>
    if 0 ≤ e then
      if e.toNat ≤ 308 then
        let g := f * power e.toNat
        if g.isInf then none else some g
      else if f == 0 then some f else none
    else if e.natAbs ≤ 308 then some (f / power e.natAbs)
    else if f == 0 then some f
    else
      match fuel with
      | 0 => some (f * 0)
      | fuel + 1 => scale fuel (f / power 308) (e + 308)

/-- The bits of the double nearest to a significand by that way of rounding. -/
def Significand.toBits? (s : Significand) (negative : Bool) : Option UInt64 :=
  (scale 8 (UInt64.ofNat s.value).toFloat s.exponent).map fun f =>
    (if negative then -f else f).toBits

end EventRelay.Decimal
