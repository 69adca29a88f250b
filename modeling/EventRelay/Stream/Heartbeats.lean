import EventRelay.Stream.Channel
import EventRelay.Stream.Frame
import EventRelay.Stream.Ticker

/-!
# Heartbeats between items

A long-lived answer starts with a heartbeat. Then its producer sends the items of a source as they
come, and a heartbeat whenever an interval has passed without a frame. It ends with the source, or
with the first failure. Frames go through a channel of bounded capacity; while that is full the
producer does nothing at all, and once the receiver is gone it stops.
-/

namespace EventRelay

/-- What a source has for whoever asks. -/
inductive Offer (α ε : Type) where
  /-- Nothing yet. -/
  | pending
  | item (a : α)
  | failure (e : ε)
  | ended

/-- A source of items: what it offers at an instant, and when it wants to be asked again. -/
structure Source (σ α ε : Type) where
  ask : (now : Nat) → σ → Offer α ε × σ
  wakesAt : σ → Option Nat

namespace Heartbeats

variable {σ α ε : Type}

/-- What a producer is about. -/
inductive Phase (α ε : Type) where
  /-- The first heartbeat is not sent. -/
  | opening
  /-- It looks for whatever comes first: the receiver leaving, an item, a tick. -/
  | waiting
  /-- A frame waits for room in the channel. -/
  | sending (frame : Except ε (Frame α))
  | stopped

/-- The producer of an answer. -/
structure Producer (σ α ε : Type) where
  phase : Phase α ε := .opening
  ticker : Ticker
  source : σ
  channel : Channel (Except ε (Frame α))

/-- How many frames a channel holds. -/
def capacity : Nat := 16

/-- The producer before its first step. -/
def Producer.start (interval now : Nat) (source : σ) : Producer σ α ε where
  ticker := .start interval now
  source := source
  channel := { capacity := capacity }

/-- What follows the first heartbeat and every item: the ticker is set anew, and a producer that
cannot set it stops. -/
def restart (now : Nat) (p : Producer σ α ε) : Producer σ α ε :=
  if p.ticker.canStart now then { p with phase := .waiting, ticker := p.ticker.reset now }
  else { p with phase := .stopped }

/-- What follows a frame that the channel accepted. -/
def afterFrame (now : Nat) (p : Producer σ α ε) : Except ε (Frame α) → Producer σ α ε
  | .ok .heartbeat => { p with phase := .waiting }
  | .ok (.item _) => restart now p
  | .error _ => { p with phase := .stopped }

/-- How a step of a producer goes. -/
inductive Step (σ α ε : Type) where
  | moved (p : Producer σ α ε)
  /-- The producer has to wait. -/
  | resting (p : Producer σ α ε)

/-- One step of the producer at an instant. -/
def step (src : Source σ α ε) (now : Nat) (p : Producer σ α ε) : Step σ α ε :=
  match p.phase with
  | .stopped => .resting p
  | .opening =>
    match p.channel.send (.ok .heartbeat) with
    | (.accepted, channel) => .moved (restart now { p with channel })
    | (.full, _) => .resting p
    | (.refused, _) => .moved { p with phase := .stopped }
  | .waiting =>
    if p.channel.closed then .moved { p with phase := .stopped }
    else
      match src.ask now p.source with
      | (.item a, source) => .moved { p with phase := .sending (.ok (.item a)), source }
      | (.failure e, source) => .moved { p with phase := .sending (.error e), source }
      | (.ended, source) => .moved { p with phase := .stopped, source }
      | (.pending, source) =>
        if !p.ticker.isDue now then .resting { p with source }
        else if p.ticker.canTake now then
          .moved { p with phase := .sending (.ok .heartbeat), ticker := p.ticker.take now, source }
        else .moved { p with phase := .stopped, source }
  | .sending frame =>
    match p.channel.send frame with
    | (.accepted, channel) => .moved (afterFrame now { p with channel } frame)
    | (.full, _) => .resting p
    | (.refused, _) => .moved { p with phase := .stopped }

/-- Steps until the producer has to wait, at most `fuel` of them. -/
def settleWithin (src : Source σ α ε) (now : Nat) : Nat → Producer σ α ε → Producer σ α ε
  | 0, p => p
  | fuel + 1, p =>
    match step src now p with
    | .moved p => settleWithin src now fuel p
    | .resting p => p

/-- Steps until the producer has to wait. Every two steps put a frame into the channel or stop the
producer, so there are no more than twice as many as the channel holds frames, and a few. -/
def settle (src : Source σ α ε) (now : Nat) (p : Producer σ α ε) : Producer σ α ε :=
  settleWithin src now (2 * p.channel.capacity + 4) p

/-- The instant after `now` at which the producer can next do something by itself. -/
def nextInstant? (src : Source σ α ε) (now : Nat) (p : Producer σ α ε) : Option Nat :=
  match p.phase with
  | .waiting =>
    match (src.wakesAt p.source).filter (now < ·), (some p.ticker.due).filter (now < ·) with
    | some a, some b => some (min a b)
    | a, b => a <|> b
  | _ => none

/-- Lets time pass up to an instant, stopping where the producer has something to do; `fuel` bounds
the stops. -/
def advanceWithin (src : Source σ α ε) (deadline : Nat) :
    Nat → Nat → Producer σ α ε → Producer σ α ε
  | 0, _, p => p
  | fuel + 1, now, p =>
    match nextInstant? src now p with
    | some t =>
      if t ≤ deadline then advanceWithin src deadline fuel t (settle src t p) else p
    | none => p

/-- Lets time pass up to an instant. -/
def advance (src : Source σ α ε) (now deadline : Nat) (p : Producer σ α ε) : Producer σ α ε :=
  advanceWithin src deadline (deadline - now) now (settle src now p)

/-- What a receiver gets that waits for a frame. -/
inductive Reading (α ε : Type) where
  | frame (f : Except ε (Frame α))
  | ended
  | timeout

/-- Waits for a frame up to an instant; answers what came, when, and the producer then. `fuel`
bounds the stops on the way. -/
def readWithin (src : Source σ α ε) (deadline : Nat) :
    Nat → Nat → Producer σ α ε → Reading α ε × Nat × Producer σ α ε
  | fuel, now, p =>
    let p := settle src now p
    match p.channel.take?, p.phase with
    | some (f, channel), _ => (.frame f, now, settle src now { p with channel })
    | none, .stopped => (.ended, now, p)
    | none, _ =>
      match fuel, nextInstant? src now p with
      | fuel + 1, some t =>
        if t ≤ deadline then readWithin src deadline fuel t p else (.timeout, deadline, p)
      | _, _ => (.timeout, deadline, p)

/-- Waits for a frame up to an instant. -/
def read (src : Source σ α ε) (now deadline : Nat) (p : Producer σ α ε) :
    Reading α ε × Nat × Producer σ α ε :=
  readWithin src deadline (deadline - now) now p

/-- A receiver stays away for some milliseconds and then waits for a frame for some, as often as the
list says. Answers what came and when, and the instant and the producer then. -/
def visits (src : Source σ α ε) (now : Nat) (p : Producer σ α ε) :
    List (Nat × Nat) → List (Nat × Reading α ε) × Nat × Producer σ α ε
  | [] => ([], now, p)
  | (away, patience) :: rest =>
    let back := now + away
    let p := if now < back then advance src now back p else p
    let (reading, instant, p) := read src back (back + patience) p
    let (readings, now, p) := visits src instant p rest
    ((instant, reading) :: readings, now, p)

/-- The producer has stopped. -/
def Producer.isStopped (p : Producer σ α ε) : Bool :=
  match p.phase with
  | .stopped => true
  | _ => false

/-- The receiver goes. -/
def Producer.close (p : Producer σ α ε) : Producer σ α ε :=
  { p with channel := p.channel.close }

/-! ## Scripted sources -/

/-- What a script does after a delay. -/
inductive Cue (α ε : Type) where
  | item (a : α)
  | failure (e : ε)
  /-- Nothing, ever. -/
  | pending
  | ended

/-- Cues with the delays before them, and the instant of the next one once it was asked for. -/
structure Script (α ε : Type) where
  cues : List (Nat × Cue α ε)
  due? : Option Nat := none

namespace Script

/-- What a script offers. The delay of a cue starts when it is first asked for. -/
def ask (now : Nat) (s : Script α ε) : Offer α ε × Script α ε :=
  match s.cues with
  | [] => (.ended, s)
  | (delay, cue) :: rest =>
    let due := s.due?.getD (now + delay)
    if now < due then (.pending, { s with due? := some due })
    else
      match cue with
      | .item a => (.item a, ⟨rest, none⟩)
      | .failure e => (.failure e, ⟨rest, none⟩)
      | .pending => (.pending, { s with due? := some due })
      | .ended => (.ended, ⟨[], none⟩)

/-- Scripts as sources. -/
def source : Source (Script α ε) α ε := ⟨ask, due?⟩

end Script

end Heartbeats

end EventRelay
