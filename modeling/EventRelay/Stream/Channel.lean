/-!
# Bounded channels

A channel holds what was sent and not yet taken, up to its capacity. A sender that finds it full has
to wait; one that finds the receiver gone is refused.
-/

namespace EventRelay

/-- What was sent and not taken, the oldest first. -/
structure Channel (β : Type) where
  capacity : Nat
  held : List β := []
  /-- The receiver is gone. -/
  closed : Bool := false

/-- How an attempt to send goes. -/
inductive Sent where
  | accepted
  | full
  | refused
  deriving DecidableEq, Repr

namespace Channel

variable {β : Type}

/-- Sends, unless the channel is full or closed. -/
def send (c : Channel β) (b : β) : Sent × Channel β :=
  if c.closed then (.refused, c)
  else if c.held.length < c.capacity then (.accepted, { c with held := c.held ++ [b] })
  else (.full, c)

/-- Takes the oldest. -/
def take? (c : Channel β) : Option (β × Channel β) :=
  match c.held with
  | [] => none
  | b :: rest => some (b, { c with held := rest })

/-- The receiver goes, and what it did not take is lost. -/
def close (c : Channel β) : Channel β := { c with held := [], closed := true }

end Channel

end EventRelay
