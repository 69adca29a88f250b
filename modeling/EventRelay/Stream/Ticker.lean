/-!
# Tickers

A ticker is due at one instant after the other, an interval apart. Whoever is late in taking a tick
by no more than the tolerance keeps the rhythm; whoever is later starts it anew. To start it the
interval is added to an instant, which fails where the sum is behind the last instant that there is.
-/

namespace EventRelay

/-- Milliseconds between ticks, and the instant of the next one. -/
structure Ticker where
  interval : Nat
  due : Nat
  deriving DecidableEq, Repr

namespace Ticker

/-- How many milliseconds late a tick may be taken for the rhythm to be kept. -/
def tolerance : Nat := 5

/-- The last instant: the seconds of a clock are signed words of 64 bits. -/
def last : Nat := 9223372036854775807999

/-- A ticker can be set to an interval from `now`: there is time between its ticks, and the clock
gets as far as the first. -/
def Settable (interval now : Nat) : Prop := 0 < interval ∧ now + interval ≤ last

instance (interval now : Nat) : Decidable (Settable interval now) :=
  inferInstanceAs (Decidable (_ ∧ _))

/-- The ticker with its first tick an interval from `now`. -/
def start (interval now : Nat) : Ticker := ⟨interval, now + interval⟩

/-- The rhythm can be started at `now`. -/
def canStart (t : Ticker) (now : Nat) : Bool := Settable t.interval now

/-- There is time between the ticks. Nobody can keep a rhythm without. -/
def hasRhythm (t : Ticker) : Bool := t.interval != 0

/-- The tick is due. -/
def isDue (t : Ticker) (now : Nat) : Bool := t.due ≤ now

/-- A tick can be taken at `now`: in time, or the rhythm can be started anew. -/
def canTake (t : Ticker) (now : Nat) : Bool := now ≤ t.due + tolerance || t.canStart now

/-- The ticker after a tick was taken: the next one is an interval after this one was due, or, if it
was taken too late for that, an interval from `now`. -/
def take (t : Ticker) (now : Nat) : Ticker :=
  if t.due + tolerance < now then ⟨t.interval, now + t.interval⟩
  else ⟨t.interval, t.due + t.interval⟩

/-- The ticker with its next tick an interval from `now`. -/
def reset (t : Ticker) (now : Nat) : Ticker := start t.interval now

end Ticker

end EventRelay
