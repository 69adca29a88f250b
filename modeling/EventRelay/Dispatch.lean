import EventRelay.Call

/-!
# Handing items to consumers

What the consumers' side of the broker does: put items into lanes and wake those who wait, hand the
head of a lane to one consumer, and settle what a consumer is done with. A call on the queue and
the waking that follows it are two steps; so are taking an item off its lane and recording the
progress, and a failure of the latter is only told.
-/

namespace EventRelay.Dispatch

open Work (queue progress wake note)

/-- Puts an event into the lane of a flow and wakes those who wait. -/
def enqueue (flow : String) (event : Event) (priority : Int) :
    Work (Except QueueError Unit) := do
  match ← queue (.enqueue flow event priority) with
  | .error e => return .error e
  | .ok () =>
    wake
    return .ok ()

/-- Whether an event with a key waits in the lane of a flow. -/
def isQueued (flow key : String) : Work (Except QueueError Bool) := queue (.isQueued flow key)

/-- Leases an item if one can be leased. -/
def tryLease : Work (Except QueueError (Option (LeasedItem Event))) := queue .lease

/-- One attempt of someone who waits for an item. -/
def attempt : Work (Except QueueError (Option (LeasedItem Event))) := do
  match ← queue .lease with
  | .ok (some leased) =>
    note (.leased leased.lease.lane leased.item.revision)
    return .ok (some leased)
  | other => return other

/-- Lets a lease run anew. -/
def renew (lock : Lock) : Work (Except QueueError Unit) := queue (.renew lock)

/-- Takes the leased item off its lane, wakes those who wait and records the progress. -/
def acknowledge (lock : Lock) : Work (Except QueueError Event) := do
  match ← queue (.acknowledge lock) with
  | .error e => return .error e
  | .ok event =>
    wake
    let subject : Subject := ⟨lock.lane, event.aggregateId, event.revision⟩
    match ← progress (.record lock.lane event.aggregateId event.revision) with
    | .error e => note (.recordFailed subject e.message)
    | .ok () => pure ()
    note (.acknowledged subject)
    return .ok event

/-- Moves the leased item to the end of its lane and wakes those who wait. -/
def defer (lock : Lock) (priority : Int) : Work (Except QueueError Unit) := do
  match ← queue (.defer lock priority) with
  | .error e => return .error e
  | .ok () =>
    wake
    return .ok ()

/-- Gives the leased item back and wakes those who wait. -/
def release (lock : Lock) : Work (Except QueueError Unit) := do
  match ← queue (.release lock) with
  | .error e => return .error e
  | .ok () =>
    wake
    return .ok ()

/-- Takes off the leases that have run out, and wakes those who wait if there were any. -/
def sweep : Work (Except QueueError (List Lease)) := do
  match ← queue .sweep with
  | .error e => return .error e
  | .ok [] => return .ok []
  | .ok expired =>
    wake
    return .ok expired

/-- Any call on the queue, with what has to follow it. -/
def call : (c : QueueCall Event) → Work c.Answer
  | .enqueue flow event priority => enqueue flow event priority
  | .lease => tryLease
  | .renew lock => renew lock
  | .release lock => release lock
  | .acknowledge lock => acknowledge lock
  | .defer lock priority => defer lock priority
  | .sweep => sweep
  | .isQueued flow key => isQueued flow key

/-- Gives back an item that no consumer is there for. -/
def releaseAbandoned (leased : LeasedItem Event) : Work Unit := do
  match ← release leased.lease.lock with
  | .ok () => note (.leaseReleased leased.lease.lane leased.item.revision)
  | .error e => note (.releaseFailed leased.lease.lane e.message)

end EventRelay.Dispatch
