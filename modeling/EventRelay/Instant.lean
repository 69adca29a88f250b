import EventRelay.Text.Blank

/-!
# Instants and durations

An instant is a second counted from the start of 1970 in UTC and the nanoseconds that have passed
in it. Nanoseconds from one billion on stand for an inserted leap second, which follows the second
it is counted with. Instants range from the year -262143 to the year 262142; what would lie after
the last of them is answered by `Instant.last`.
-/

namespace EventRelay

/-- A point in time: whole seconds from the start of 1970, and nanoseconds in that second. -/
structure Instant where
  second : Int
  nano : Nat
  deriving DecidableEq, Repr

/-- A length of time in nanoseconds. -/
structure Duration where
  nanos : Nat
  deriving DecidableEq, Repr

namespace Duration

/-- A length of whole milliseconds. -/
def ofMillis (ms : Nat) : Duration := ⟨ms * 1000000⟩

/-- The whole milliseconds in a length of time. -/
def millis (d : Duration) : Nat := d.nanos / 1000000

/-- The greatest length that can be added to an instant: 2^63 - 1 milliseconds. -/
def greatest : Duration := ofMillis (Nat.pow 2 63 - 1)

end Duration

namespace Instant

instance : Inhabited Instant := ⟨⟨0, 0⟩⟩

/-- The last instant of the year 262142. -/
def last : Instant := ⟨8210266876799, 999999999⟩

/-- The first instant of the year -262143. -/
def first : Instant := ⟨-8334601228800, 0⟩

/-- The instant a number of milliseconds from the start of 1970. -/
def ofMillis (ms : Int) : Instant := ⟨ms / 1000, (ms % 1000).toNat * 1000000⟩

/-- Milliseconds from the start of 1970, the part below a millisecond cut off. -/
def toMillis (i : Instant) : Int := i.second * 1000 + (i.nano / 1000000 : Nat)

/-- The order of time: by second, then by nanosecond. -/
def le (a b : Instant) : Bool :=
  a.second < b.second || (a.second == b.second && a.nano ≤ b.nano)

instance : LE Instant := ⟨fun a b => le a b = true⟩

instance : LT Instant := ⟨fun a b => le b a = false⟩

instance (a b : Instant) : Decidable (a ≤ b) := inferInstanceAs (Decidable (le a b = true))

instance (a b : Instant) : Decidable (a < b) := inferInstanceAs (Decidable (le b a = false))

/-- The instant `d` later. Within a leap second time runs on in it; past its end it counts as the
second it was inserted after. -/
def add (i : Instant) (d : Duration) : Instant :=
  if 1000000000 ≤ i.nano ∧ i.nano + d.nanos < 2000000000 then ⟨i.second, i.nano + d.nanos⟩
  else
    let nano := if 1000000000 ≤ i.nano then i.nano - 1000000000 else i.nano
    ⟨i.second + ((nano + d.nanos) / 1000000000 : Nat), (nano + d.nanos) % 1000000000⟩

/-- The instant `d` later, if `d` can be added at all and the sum is in range. -/
def checkedAdd? (i : Instant) (d : Duration) : Option Instant :=
  if d.millis ≤ Duration.greatest.millis ∧ (i.add d).second ≤ last.second then some (i.add d)
  else none

/-- The instant `d` later, or the last instant where there is none. -/
def addSaturating (i : Instant) (d : Duration) : Instant :=
  (i.checkedAdd? d).getD last

/-! ## Calendar -/

/-- Whether a year of the Gregorian calendar has 366 days. -/
def isLeapYear (y : Int) : Bool := y % 4 == 0 && (y % 100 != 0 || y % 400 == 0)

/-- The number of days of a month. -/
def daysInMonth (y : Int) (m : Nat) : Nat :=
  if m = 2 then (if isLeapYear y then 29 else 28)
  else if m = 4 ∨ m = 6 ∨ m = 9 ∨ m = 11 then 30 else 31

/-- Days from the start of 1970 to a date. Years are counted from March on, so that the day that
comes and goes is the last of its year. -/
def daysOfDate (y : Int) (m d : Nat) : Int :=
  let year := if m ≤ 2 then y - 1 else y
  let era := year / 400
  let yearOfEra := year % 400
  let month : Int := if m ≤ 2 then m + 9 else m - 3
  let dayOfYear := (153 * month + 2) / 5 + d - 1
  era * 146097 + (yearOfEra * 365 + yearOfEra / 4 - yearOfEra / 100 + dayOfYear) - 719468

/-- Year, month and day of the date a number of days from the start of 1970. -/
def dateOfDays (days : Int) : Int × Nat × Nat :=
  let shifted := days + 719468
  let era := shifted / 146097
  let dayOfEra := shifted % 146097
  let yearOfEra := (dayOfEra - dayOfEra / 1460 + dayOfEra / 36524 - dayOfEra / 146096) / 365
  let dayOfYear := dayOfEra - (365 * yearOfEra + yearOfEra / 4 - yearOfEra / 100)
  let month := (5 * dayOfYear + 2) / 153
  let day := dayOfYear - (153 * month + 2) / 5 + 1
  let m := if month < 10 then month + 3 else month - 9
  let y := yearOfEra + era * 400 + if m ≤ 2 then 1 else 0
  (y, m.toNat, day.toNat)

/-! ## Writing -/

/-- The decimal digits of a number, with zeros in front up to a width. -/
def padded (width n : Nat) : String :=
  let digits := toString n
  "".pushn '0' (width - digits.length) ++ digits

/-- A year: four digits, or a sign and at least four where it has more or is before year 0. -/
def yearText (y : Int) : String :=
  if 0 ≤ y ∧ y ≤ 9999 then padded 4 y.toNat
  else (if y < 0 then "-" else "+") ++ padded 4 y.natAbs

/-- The fraction of a second: as many groups of three digits as it takes to be exact. -/
def fractionText (nano : Nat) : String :=
  if nano = 0 then ""
  else if nano % 1000000 = 0 then "." ++ padded 3 (nano / 1000000)
  else if nano % 1000 = 0 then "." ++ padded 6 (nano / 1000)
  else "." ++ padded 9 nano

/-- Date and time of day with `sep` between them. A leap second is written as second 60. -/
def clockText (sep : String) (i : Instant) : String :=
  let (y, m, d) := dateOfDays (i.second / 86400)
  let time := (i.second % 86400).toNat
  let leap := if 1000000000 ≤ i.nano then 1 else 0
  yearText y ++ "-" ++ padded 2 m ++ "-" ++ padded 2 d ++ sep ++ padded 2 (time / 3600) ++ ":" ++
    padded 2 (time / 60 % 60) ++ ":" ++ padded 2 (time % 60 + leap) ++
    fractionText (i.nano - leap * 1000000000)

/-- The form of RFC 3339 in UTC, such as `2023-11-14T22:13:20.100Z`. -/
def toRfc3339 (i : Instant) : String := clockText "T" i ++ "Z"

/-- The form for readers of logs, such as `2023-11-14 22:13:20.100 UTC`. -/
def toLogText (i : Instant) : String := clockText " " i ++ " UTC"

/-! ## Reading -/

/-- The value of a run of ASCII digits. -/
def digitsValue (ds : List Char) : Nat :=
  ds.foldl (fun n c => 10 * n + (c.toNat - 48)) 0

/-- At least one and at most `most` digits, blank characters in front left out. -/
def readNumber? (most : Nat) (cs : List Char) : Option (Nat × List Char) :=
  let cs := cs.dropWhile Text.isBlankChar
  let ds := (cs.take most).takeWhile Char.isDigit
  if ds.isEmpty then none else some (digitsValue ds, cs.drop ds.length)

/-- A year: four digits at most, or a sign and any number of them. -/
def readYear? (cs : List Char) : Option (Int × List Char) :=
  match cs.dropWhile Text.isBlankChar with
  | '-' :: rest => signed (-1) rest
  | '+' :: rest => signed 1 rest
  | rest => (readNumber? 4 rest).map fun (n, r) => ((n : Int), r)
where
  /-- The digits after a sign. -/
  signed (sign : Int) (rest : List Char) : Option (Int × List Char) :=
    let ds := rest.takeWhile Char.isDigit
    if ds.isEmpty then none else some (sign * digitsValue ds, rest.drop ds.length)

/-- One character, blank ones in front of it left out. -/
def readMark? (mark : Char) (cs : List Char) : Option (List Char) :=
  match cs.dropWhile Text.isBlankChar with
  | c :: rest => if c = mark then some rest else none
  | [] => none

/-- The nanoseconds after a point; digits after the ninth are left out. -/
def readFraction? : List Char → Option (Nat × List Char)
  | '.' :: rest =>
    let ds := rest.takeWhile Char.isDigit
    if ds.isEmpty then none
    else
      let kept := ds.take 9
      some (digitsValue kept * Nat.pow 10 (9 - kept.length), rest.drop ds.length)
  | cs => some (0, cs)

/-- Seconds east of UTC: `Z`, `UTC`, or a sign with hours and minutes. -/
def readOffset? (cs : List Char) : Option (Int × List Char) :=
  if (cs.take 3).map Char.toUpper = ['U', 'T', 'C'] then some (0, cs.drop 3)
  else
    match cs with
    | 'Z' :: rest | 'z' :: rest => some (0, rest)
    | '+' :: rest => hours 1 rest
    | '-' :: rest | '−' :: rest => hours (-1) rest
    | _ => none
where
  /-- Two digits of hours, then two of minutes after any colons and blanks. -/
  hours (sign : Int) (cs : List Char) : Option (Int × List Char) :=
    match cs with
    | h1 :: h2 :: rest =>
      if h1.isDigit && h2.isDigit then
        let h : Int := digitsValue [h1, h2]
        match rest.dropWhile fun c => c == ':' || Text.isBlankChar c with
        | m1 :: m2 :: rest =>
          if m1.isDigit && m2.isDigit && m1.toNat < 54 then
            some (sign * (h * 3600 + digitsValue [m1, m2] * 60), rest)
          else none
        | _ => none
      else none
    | _ => none

/-- Reads a date and a time of day with an offset from UTC. The letter between them may also be a
blank, and blanks may stand between the parts of each. -/
def ofRfc3339? (s : String) : Option Instant := do
  let (y, cs) ← readYear? s.toList
  let cs ← readMark? '-' cs
  let (m, cs) ← readNumber? 2 cs
  let cs ← readMark? '-' cs
  let (d, cs) ← readNumber? 2 cs
  let cs ← match cs with
    | 't' :: rest | 'T' :: rest | ' ' :: rest => some rest
    | _ => none
  let (hour, cs) ← readNumber? 2 cs
  let cs ← readMark? ':' cs
  let (minute, cs) ← readNumber? 2 cs
  let cs ← readMark? ':' cs
  let (sec, cs) ← readNumber? 2 cs
  let (nano, cs) ← readFraction? cs
  let (offset, cs) ← readOffset? (cs.dropWhile Text.isBlankChar)
  guard (cs.all Text.isBlankChar)
  guard (-262143 ≤ y ∧ y ≤ 262142 ∧ 1 ≤ m ∧ m ≤ 12 ∧ 1 ≤ d ∧ d ≤ daysInMonth y m)
  guard (hour ≤ 23 ∧ minute ≤ 59 ∧ sec ≤ 60 ∧ offset.natAbs < 86400)
  let leap := sec / 60
  let i : Instant :=
    ⟨daysOfDate y m d * 86400 + (hour * 3600 + minute * 60 + (sec - leap) : Nat) - offset,
      nano + leap * 1000000000⟩
  guard (first.second ≤ i.second ∧ i.second ≤ last.second)
  return i

end Instant

end EventRelay
