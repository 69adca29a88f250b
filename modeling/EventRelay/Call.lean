import EventRelay.Log.Reader
import EventRelay.Notice
import EventRelay.Procedure
import EventRelay.Progress
import EventRelay.Queue.Basic

/-!
# Calls on the parts of the broker

The broker has three parts that keep something: the event log, the queue and the progress table.
Each is called by anyone at any time, and each call is one step. Two more calls keep nothing: waking
those who wait for an item, and telling those who run the program.
-/

namespace EventRelay

instance : Keyed Event := ⟨fun e => toString e.id⟩

/-- Why the progress table refuses: what keeps it failed. -/
structure ProgressError where
  reason : String
  deriving DecidableEq, Repr

/-- The text of the error. -/
def ProgressError.message (e : ProgressError) : String := "storage error: " ++ e.reason

/-- Calls on the event log. All aggregates are answered at once, each with a failure of its own
where it could not be read, and then delivered one by one. -/
inductive LogCall where
  | append (batch : List Event)
  | read (selection : Selection)
  /-- The next event of a long read. -/
  | next (reader : Reader)
  | last (aggregate : Aggregate)
  | hasCausedBy (id : Uuid)
  | storeSnapshot (s : Snapshot)
  | snapshot (aggregate : Aggregate)
  | aggregates
  /-- The delivery of one aggregate of those that `aggregates` answered. -/
  | nextAggregate (delivered : Except LogError Aggregate)

/-- Calls on a queue of items of one type. -/
inductive QueueCall (τ : Type) where
  | enqueue (flow : String) (item : τ) (priority : Int)
  | lease
  | renew (lock : Lock)
  | release (lock : Lock)
  | acknowledge (lock : Lock)
  | defer (lock : Lock) (priority : Int)
  | sweep
  | isQueued (flow key : String)

/-- Calls on the progress table. -/
inductive ProgressCall where
  | get (flow : String) (aggregate : Uuid)
  | record (flow : String) (aggregate : Uuid) (revision : Nat)
  | advance (flow : String) (aggregate : Uuid) (revision : Nat)

/-- Calls on any part. -/
inductive Call where
  | log (c : LogCall)
  | queue (c : QueueCall Event)
  | progress (c : ProgressCall)
  /-- Wakes everyone who waits for an item. -/
  | wake
  | note (n : Notice)

/-- Readings that a call may need: the clock, a token that was never used, and how long a lease is
to run. -/
structure Call.Reading where
  now : Instant
  fresh : Uuid
  expiration : Duration

/-- What the event log answers. -/
abbrev LogCall.Answer : LogCall → Type
  | append _ => Except LogError Unit
  | read _ => Except LogError Reader
  | next _ => Option (Except LogError Event) × Reader
  | last _ => Except LogError Event
  | hasCausedBy _ => Except LogError Bool
  | storeSnapshot _ => Except LogError Unit
  | snapshot _ => Except LogError (Option Snapshot)
  | aggregates => Except LogError (List (Except LogError Aggregate))
  | nextAggregate _ => Except LogError Aggregate

/-- What a queue answers. -/
abbrev QueueCall.Answer {τ : Type} : QueueCall τ → Type
  | enqueue .. => Except QueueError Unit
  | lease => Except QueueError (Option (LeasedItem τ))
  | renew _ => Except QueueError Unit
  | release _ => Except QueueError Unit
  | acknowledge _ => Except QueueError τ
  | defer .. => Except QueueError Unit
  | sweep => Except QueueError (List Lease)
  | isQueued .. => Except QueueError Bool

/-- What the progress table answers. -/
abbrev ProgressCall.Answer : ProgressCall → Type
  | get .. => Except ProgressError Progress
  | record .. => Except ProgressError Unit
  | advance .. => Except ProgressError Unit

/-- What a call is answered. -/
abbrev Call.Answer : Call → Type
  | log c => c.Answer
  | queue c => c.Answer
  | progress c => c.Answer
  | wake => Unit
  | note _ => Unit

/-- What a party does with the parts of the broker. -/
abbrev Work (α : Type) := Procedure Call Call.Answer α

namespace Work

/-- Calls the event log. -/
def log (c : LogCall) : Work c.Answer := .call (.log c) .done

/-- Calls the queue. -/
def queue (c : QueueCall Event) : Work c.Answer := .call (.queue c) .done

/-- Calls the progress table. -/
def progress (c : ProgressCall) : Work c.Answer := .call (.progress c) .done

/-- Wakes everyone who waits for an item. -/
def wake : Work Unit := .call .wake .done

/-- Tells those who run the program. -/
def note (n : Notice) : Work Unit := .call (.note n) .done

end Work

end EventRelay
