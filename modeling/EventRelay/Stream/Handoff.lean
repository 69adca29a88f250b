import EventRelay.Call
import EventRelay.Stream.Channel
import EventRelay.Stream.Frame
import EventRelay.Stream.Ticker

/-!
# Handing one item to a stream

A consumer that asks for an item gets a stream: heartbeats while it waits, then one item or a
failure, then the end. The producer of the stream waits for the item. A consumer that has gone is
noticed before an item is leased for it; where it goes later, and the item was not yet put into the
channel, the producer gives the lease back.

The channel has room for one frame, and while the producer waits for room it does nothing else.
-/

namespace EventRelay

/-- What a stream of one item delivers. -/
abbrev HandoffFrame := Except QueueError (Frame (LeasedItem Event))

namespace Handoff

/-- What a producer is about. -/
inductive Phase where
  /-- The first heartbeat is not sent. -/
  | opening
  /-- It looks for whatever comes first: the consumer leaving, an item, a tick. -/
  | waiting
  /-- A heartbeat waits for room in the channel. -/
  | beating
  /-- What the wait has come to waits for room in the channel. -/
  | delivering (outcome : Except QueueError (LeasedItem Event))
  | stopped

/-- The producer of a stream of one item. -/
structure Producer where
  phase : Phase := .opening
  ticker : Ticker
  channel : Channel HandoffFrame := { capacity := 1 }

/-- The producer before its first step. -/
def Producer.start (interval now : Nat) : Producer where
  ticker := .start interval now

/-- The frame for what the wait has come to. -/
def frameOf : Except QueueError (LeasedItem Event) → HandoffFrame
  | .ok leased => .ok (.item leased)
  | .error e => .error e

/-- What a producer does next. -/
inductive Move where
  /-- It has to wait. -/
  | rest
  /-- It goes on by itself. -/
  | go (p : Producer)
  /-- It asks for an item, and goes on with what the wait has come to, if it has. -/
  | ask (next : Option (Except QueueError (LeasedItem Event)) → Option Producer)
  /-- It finds the consumer gone while it waits, and stops. -/
  | leave (p : Producer)
  /-- It gives an item back that it could not deliver, and stops. -/
  | abandon (leased : LeasedItem Event) (p : Producer)

/-- What follows the first heartbeat: the ticker is set, and a producer that cannot set it stops. -/
def afterOpening (now : Nat) (p : Producer) : Producer :=
  if p.ticker.canStart now then { p with phase := .waiting, ticker := p.ticker.reset now }
  else { p with phase := .stopped }

/-- What a waiting producer does when no item has come. -/
def onTick (now : Nat) (p : Producer) : Option Producer :=
  if !p.ticker.isDue now then none
  else if p.ticker.canTake now then
    some { p with phase := .beating, ticker := p.ticker.take now }
  else some { p with phase := .stopped }

/-- What the producer does next at an instant. -/
def next (now : Nat) (p : Producer) : Move :=
  match p.phase with
  | .stopped => .rest
  | .opening =>
    match p.channel.send (.ok .heartbeat) with
    | (.accepted, channel) => .go (afterOpening now { p with channel })
    | (.full, _) => .rest
    | (.refused, _) => .go { p with phase := .stopped }
  | .waiting =>
    if p.channel.closed then .leave { p with phase := .stopped }
    else .ask fun
      | some outcome => some { p with phase := .delivering outcome }
      | none => onTick now p
  | .beating =>
    match p.channel.send (.ok .heartbeat) with
    | (.accepted, channel) => .go { p with phase := .waiting, channel }
    | (.full, _) => .rest
    | (.refused, _) => .go { p with phase := .stopped }
  | .delivering outcome =>
    match p.channel.send (frameOf outcome), outcome with
    | (.accepted, channel), _ => .go { p with phase := .stopped, channel }
    | (.full, _), _ => .rest
    | (.refused, _), .ok leased => .abandon leased { p with phase := .stopped }
    | (.refused, _), .error _ => .go { p with phase := .stopped }

/-- The producer has come to its end. -/
def Producer.isStopped (p : Producer) : Bool :=
  match p.phase with
  | .stopped => true
  | _ => false

/-- The consumer goes. -/
def Producer.close (p : Producer) : Producer := { p with channel := p.channel.close }

end Handoff

end EventRelay
