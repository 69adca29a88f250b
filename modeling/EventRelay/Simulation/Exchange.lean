import EventRelay.Http.Service
import EventRelay.Simulation.Orders

/-!
# Exchanges with a simulated broker

A request is answered at once. A response that is a stream is read line by line: one item for a
consumer for as long as its reader waits, any other to its end.
-/

namespace EventRelay.Simulation

open Http (Request Response)

/-- How the reading of a stream ends. -/
inductive Ending where
  | ended
  | timeout
  | aborted
  deriving DecidableEq, Repr

/-- The lines of a stream with the instants at which they were read, and how the reading ends. -/
structure Reading where
  lines : List (Nat × String)
  ending : Ending

/-- A response and what was read of its stream, if it is one. -/
structure Exchange where
  response : Response
  stream? : Option Reading := none

/-- The reading of a body whose lines are there at once. -/
def readBody {ε : Type} (message : ε → String) (b : Ndjson.Body ε) : Sim Reading := do
  let now := (← get).now
  let lines := b.lines.map fun line => (now, line)
  match b.abortedBy with
  | none => return ⟨lines, .ended⟩
  | some e =>
    tell (.streamAborted (message e))
    return ⟨lines, .aborted⟩

/-- The frames of values between a heartbeat and a failure. -/
def framesOf {ε : Type} (values : List Json) (broken : Option ε) :
    List (Except ε (Frame Json)) :=
  .ok .heartbeat :: (values.map fun v => .ok (.item v)) ++ broken.toList.map .error

/-- The value that a leased item is sent as. -/
def leasedValue (l : LeasedItem Event) : Json := Wire.awaitedItem.encode ⟨l.item, l.lease.lock⟩

/-- How many frames of a stream of one item are read at most. -/
def frameBound : Nat := 100000

/-- Reads a stream of one item up to an instant, at most `fuel` frames. -/
def readItemWithin (deadline : Nat) : (fuel : Nat) → Sim Reading
  | 0 => return ⟨[], .timeout⟩
  | fuel + 1 => do
    let reading ← readStream .response (deadline - (← get).now)
    let now := (← get).now
    let more (f : Frame Json) : Sim Reading := do
      let rest ← readItemWithin deadline fuel
      return { rest with lines := (now, Ndjson.line f) :: rest.lines }
    match reading with
    | .frame (.ok .heartbeat) => more .heartbeat
    | .frame (.ok (.item l)) => more (.item (leasedValue l))
    | .frame (.error e) =>
      tell (.streamAborted e.message)
      return ⟨[], .aborted⟩
    | .timeout => return ⟨[], .timeout⟩
    | .ended | .unknown => return ⟨[], .ended⟩

/-- Reads a stream of one item for some milliseconds, and goes. -/
def readItem (ms : Nat) : Sim Reading := do
  openStream .response (← get).settings.heartbeatMs
  let reading ← readItemWithin ((← get).now + ms) frameBound
  let _ ← dropStream .response
  return reading

/-- A request, and the reading of its response; a stream of one item is read for `waitMs`. Without
time between heartbeats a stream ends with its first one. -/
def exchange (r : Request) (waitMs : Nat) : Sim Exchange := do
  let isLive := (← get).settings.heartbeatMs ≠ 0
  let response ← perform (Http.respond (← get).settings.registry r)
  if response.headOnly then
    match response.content with
    | .events _ | .aggregates _ | .nextItem => return ⟨response, some ⟨[], .ended⟩⟩
    | _ => return ⟨response, none⟩
  else
    match response.content with
    | .events reader =>
      let (events, broken) ← if isLive then drain reader else pure ([], none)
      let body := Ndjson.body (framesOf (events.map Wire.event.encode) broken)
      return ⟨response, some (← readBody LogError.message body)⟩
    | .aggregates aggregates =>
      let (aggregates, broken) ←
        if isLive then perform (Reader.drainAggregates aggregates) else pure ([], none)
      let body := Ndjson.body (framesOf (aggregates.map Wire.aggregate.encode) broken)
      return ⟨response, some (← readBody LogError.message body)⟩
    | .nextItem => return ⟨response, some (← readItem waitMs)⟩
    | _ => return ⟨response, none⟩

end EventRelay.Simulation
