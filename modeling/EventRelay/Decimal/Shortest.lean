/-!
# Shortest decimal digits of a double

A double stands for every real number that rounds to it, and of the decimals among those the one
written is the one with the fewest digits and, of several, the nearest. The search is in exact
arithmetic on natural numbers: for one digit, two digits and so on it tries the two neighbours of
the value on the grid of decimals with that many digits, and the first grid with a hit wins.
-/

namespace EventRelay.Decimal

/-- A positive number `mantissa · 2 ^ exponent`. -/
structure Binary where
  mantissa : Nat
  exponent : Int
  deriving DecidableEq, Repr

/-- The sign bit of a double. -/
def isNegative (bits : UInt64) : Bool := bits >>> 63 == 1

/-- The size of a finite double. -/
def magnitude (bits : UInt64) : Binary :=
  let exponent := ((bits >>> 52) &&& 0x7ff).toNat
  let fraction := (bits &&& 0xfffffffffffff).toNat
  if exponent = 0 then ⟨fraction, -1074⟩ else ⟨fraction + Nat.pow 2 52, (exponent : Int) - 1075⟩

/-- Decimal digits and the power of ten that the last of them counts. -/
structure Digits where
  value : Nat
  exponent : Int
  deriving DecidableEq, Repr

/-- The reals that round to a double, all over one denominator: the value and the two ends. The
ends belong to it exactly when the mantissa is even. -/
structure Interval where
  low : Nat
  value : Nat
  high : Nat
  denominator : Nat
  closed : Bool

/-- The interval of reals that round to `b`. Below a power of two the gap is half as wide. -/
def interval (b : Binary) : Interval :=
  let narrow := b.mantissa == Nat.pow 2 52 && b.exponent > -1074
  let num := Nat.pow 2 b.exponent.toNat
  let den := 4 * Nat.pow 2 (-b.exponent).toNat
  { low := (4 * b.mantissa - if narrow then 1 else 2) * num
    value := 4 * b.mantissa * num
    high := (4 * b.mantissa + 2) * num
    denominator := den
    closed := b.mantissa % 2 == 0 }

/-- Whether `c · 10 ^ e` lies in the interval. -/
def Interval.contains (i : Interval) (c : Nat) (e : Int) : Bool :=
  let point := c * Nat.pow 10 e.toNat * i.denominator
  let scale := Nat.pow 10 (-e).toNat
  if i.closed then i.low * scale ≤ point && point ≤ i.high * scale
  else i.low * scale < point && point < i.high * scale

/-- The decimal exponent `e` with `10 ^ e ≤ value < 10 ^ (e + 1)`, searched upwards from `e`. -/
def leadingExponent (i : Interval) : Nat → Int → Int
  | 0, e => e
  | fuel + 1, e =>
    if i.value * Nat.pow 10 (-(e + 1)).toNat < Nat.pow 10 (e + 1).toNat * i.denominator then e
    else leadingExponent i fuel (e + 1)

/-- The nearer of two neighbours `c` and `c + 1` of the value; a tie goes to the even one. -/
def nearer (i : Interval) (c : Nat) (e : Int) : Nat :=
  let twice := 2 * i.value * Nat.pow 10 (-e).toNat
  let middle := (2 * c + 1) * Nat.pow 10 e.toNat * i.denominator
  if twice < middle then c
  else if middle < twice then c + 1
  else if c % 2 = 0 then c else c + 1

/-- The hit on the grid of decimals that end at `10 ^ e`, if there is one. -/
def onGrid? (i : Interval) (e : Int) : Option Nat :=
  let c := i.value * Nat.pow 10 (-e).toNat / (Nat.pow 10 e.toNat * i.denominator)
  match i.contains c e, i.contains (c + 1) e with
  | true, true => some (nearer i c e)
  | true, false => some c
  | false, true => some (c + 1)
  | false, false => none

/-- Tries the grids from `10 ^ e` downwards. -/
def firstHit (i : Interval) : Nat → Int → Digits
  | 0, e => ⟨i.value * Nat.pow 10 (-e).toNat / (Nat.pow 10 e.toNat * i.denominator), e⟩
  | fuel + 1, e =>
    match onGrid? i e with
    | some c => ⟨c, e⟩
    | none => firstHit i fuel (e - 1)

/-- A lower bound of the decimal exponent, from the binary one. -/
def exponentGuess (b : Binary) : Int :=
  (b.exponent + b.mantissa.log2) * 30103 / 100000 - 1

/-- The shortest decimal that rounds to a positive double. -/
def shortest (b : Binary) : Digits :=
  let i := interval b
  firstHit i 20 (leadingExponent i 4 (exponentGuess b))

/-- Moves zeros at the end of the digits into the exponent. -/
def dropZeros : Nat → Digits → Digits
  | 0, d => d
  | fuel + 1, d =>
    if d.value ≠ 0 ∧ d.value % 10 = 0 then dropZeros fuel ⟨d.value / 10, d.exponent + 1⟩ else d

/-- The shortest digits, none of them a zero at the end. -/
def shortestDigits (bits : UInt64) : Digits := dropZeros 20 (shortest (magnitude bits))

end EventRelay.Decimal
