/-!
# Decimal numerals of bounded value

Settings and query parameters hold whole numbers written in decimal: an optional sign, then one or
more ASCII digits, any number of zeros in front. A reader of such a numeral has a range, and a
numeral outside it is refused as soon as the digits read so far leave the range, so a fault that
follows is not seen.
-/

namespace EventRelay.Text

/-- Why a text is no numeral of the wanted range. -/
inductive NumeralError where
  /-- There is no text at all. -/
  | empty
  /-- A character is neither a digit nor a sign in front, or a sign stands alone. -/
  | invalidDigit
  /-- The value is above the range. -/
  | tooLarge
  /-- The value is below the range. -/
  | tooSmall
  deriving DecidableEq, Repr

namespace NumeralError

/-- The reason as settings report it. -/
def message : NumeralError → String
  | empty => "cannot parse integer from empty string"
  | invalidDigit => "invalid digit found in string"
  | tooLarge => "number too large to fit in target type"
  | tooSmall => "number too small to fit in target type"

end NumeralError

/-- The value of an ASCII digit. -/
def digitValue? (c : Char) : Option Nat :=
  if '0' ≤ c ∧ c ≤ '9' then some (c.toNat - '0'.toNat) else none

/-- Reads digits onto `value`; `excess` is the error for a value above `limit`. -/
def readDigits (limit : Nat) (excess : NumeralError) : Nat → List Char → Except NumeralError Nat
  | value, [] => .ok value
  | value, c :: rest =>
    match digitValue? c with
    | none => .error .invalidDigit
    | some d =>
      if 10 * value + d ≤ limit then readDigits limit excess (10 * value + d) rest
      else .error excess

/-- A numeral between 0 and `limit`: an optional `+`, then digits. -/
def natural? (limit : Nat) (s : String) : Except NumeralError Nat :=
  match s.toList with
  | [] => .error .empty
  | ['+'] => .error .invalidDigit
  | '+' :: digits => readDigits limit .tooLarge 0 digits
  | digits => readDigits limit .tooLarge 0 digits

/-- A numeral between `-(limit + 1)` and `limit`: an optional sign, then digits. -/
def integer? (limit : Nat) (s : String) : Except NumeralError Int :=
  match s.toList with
  | [] => .error .empty
  | ['+'] | ['-'] => .error .invalidDigit
  | '-' :: digits => (readDigits (limit + 1) .tooSmall 0 digits).map fun n => -(n : Int)
  | '+' :: digits => (readDigits limit .tooLarge 0 digits).map Int.ofNat
  | digits => (readDigits limit .tooLarge 0 digits).map Int.ofNat

end EventRelay.Text
