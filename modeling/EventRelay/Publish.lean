import EventRelay.Dispatch
import EventRelay.Flow.Registry

/-!
# Publishing events

A batch is stored first, and only then put into the lanes of the flows that want its events, event
by event and for each event flow by flow. What cannot be put into a lane is left for recovery, and
so that recovery can deliver it in order, the later events of that aggregate in the batch are held
back from that flow.
-/

namespace EventRelay.Publish

open Work (log note)

/-- Flows that an aggregate's events are held back from. -/
abbrev HeldBack := List (String × Uuid)

/-- Puts an event into the lane of one flow, unless it is held back. -/
def enqueueFor (event : Event) (heldBack : HeldBack) (flow : String) : Work HeldBack := do
  let subject : Subject := ⟨flow, event.aggregateId, event.revision⟩
  if heldBack.contains (flow, event.aggregateId) then
    note (.heldBack subject)
    return heldBack
  match ← Dispatch.enqueue flow event event.timestamp with
  | .ok () =>
    note (.enqueued subject)
    return heldBack
  | .error (.itemAlreadyQueued ..) => return heldBack
  | .error e =>
    note (.leftForRecovery subject e.message)
    return (flow, event.aggregateId) :: heldBack

/-- Puts an event into the lanes of flows, one after the other. -/
def enqueueForAll (event : Event) : List String → HeldBack → Work HeldBack
  | [], heldBack => return heldBack
  | flow :: flows, heldBack => do
    let heldBack ← enqueueFor event heldBack flow
    enqueueForAll event flows heldBack

/-- Puts the events of a stored batch into the lanes of the flows that want them. -/
def enqueueBatch (registry : Registry) : List Event → HeldBack → Work Unit
  | [], _ => return ()
  | event :: rest, heldBack => do
    let heldBack ← enqueueForAll event (registry.owners event) heldBack
    enqueueBatch registry rest heldBack

/-- Stores a batch and puts its events into lanes; a batch that is refused goes nowhere. -/
def publish (registry : Registry) (batch : List Event) : Work (Except LogError Unit) := do
  match ← log (.append batch) with
  | .error e => return .error e
  | .ok () =>
    enqueueBatch registry batch []
    return .ok ()

end EventRelay.Publish
