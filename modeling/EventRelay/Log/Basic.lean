import EventRelay.Log.Batch
import EventRelay.Log.Range

/-!
# The event log

The log is the list of all stored events in the order they were stored. Whatever is asked of it is
a view of that list: the stream of an aggregate, the events from an instant on, those of one cause.
A batch is stored whole or not at all, and only if it continues the stream of each aggregate in it
without a gap.

Long reads go event by event through a cursor. A cursor remembers only how far it has come, so
events that are stored while it is open are met when it gets to them.
-/

namespace EventRelay

/-- Stored events in storage order, and stored snapshots, the latest first. -/
structure EventLog where
  events : List Event := []
  snapshots : List Snapshot := []

/-- Which events a long read wants. -/
inductive Selection where
  /-- Events from a time on, in storage order. -/
  | since (timestamp : Int)
  /-- Events caused by another, in storage order. -/
  | causedBy (id : Uuid)
  /-- Events of one correlation, in storage order. -/
  | correlatedBy (id : Uuid)
  /-- The stream of an aggregate, in the order of revisions. -/
  | stream (aggregate : Uuid) (range : RevisionRange)

namespace EventLog

instance : Inhabited EventLog := ⟨{}⟩

/-- The log without events. -/
def empty : EventLog := {}

/-- The number of stored events. -/
def length (l : EventLog) : Nat := l.events.length

/-- The events of an aggregate, in the order of revisions. -/
def streamOf (l : EventLog) (aggregate : Uuid) : List Event :=
  l.events.filter fun e => e.aggregateId == aggregate

/-- The latest revision of an aggregate; 0 if it has no event. -/
def latest (l : EventLog) (aggregate : Uuid) : Nat := (l.streamOf aggregate).length

/-! ## Appending -/

/-- The first fault of a batch. -/
def check (l : EventLog) (batch : List Event) : Except LogError Unit := Batch.check l.latest batch

/-- Stores a batch whole, or refuses it. -/
def append (l : EventLog) (batch : List Event) : Except LogError EventLog :=
  match l.check batch with
  | .ok () => .ok { l with events := l.events ++ batch }
  | .error e => .error e

/-! ## Reading -/

/-- Whether a read in storage order wants an event. -/
def wants : Selection → Event → Bool
  | .since timestamp, e => timestamp ≤ e.timestamp
  | .causedBy id, e => e.metadata.causationId == id
  | .correlatedBy id, e => e.metadata.correlationId == id
  | .stream aggregate range, e => e.aggregateId == aggregate && range.contains e.revision

/-- How far a read has come. -/
inductive Cursor where
  /-- A read in storage order: the place from which on to look. -/
  | scan (selection : Selection) (position : Nat)
  /-- A read of a stream: the revision that comes next. -/
  | stream (aggregate : Uuid) (range : RevisionRange) (revision : Nat)

/-- The cursor at the start of a read. -/
def openCursor : Selection → Cursor
  | .stream aggregate range => .stream aggregate range range.first
  | selection => .scan selection 0

/-- The first wanted event of a list, and the place after it. -/
def findFrom (wants : Event → Bool) : Nat → List Event → Option (Event × Nat)
  | _, [] => none
  | position, e :: rest =>
    if wants e then some (e, position + 1) else findFrom wants (position + 1) rest

/-- The next event of a read and the cursor after it; nothing at the end. -/
def next? (l : EventLog) : Cursor → Option (Event × Cursor)
  | .scan selection position =>
    (findFrom (wants selection) position (l.events.drop position)).map fun (e, position) =>
      (e, .scan selection position)
  | .stream aggregate range revision =>
    if range.reaches revision then
      ((l.streamOf aggregate)[revision - 1]?).map fun e =>
        (e, .stream aggregate range (revision + 1))
    else none

/-- The event of the latest revision of an aggregate. The id alone tells aggregates apart. -/
def last (l : EventLog) (aggregate : Aggregate) : Except LogError Event :=
  match (l.streamOf aggregate.id).getLast? with
  | some e => .ok e
  | none => .error (.noEventsOf aggregate.id)

/-- Some event was caused by another. -/
def hasCausedBy (l : EventLog) (id : Uuid) : Bool :=
  l.events.any fun e => e.metadata.causationId == id

/-- Adds an aggregate unless one with its id is there. -/
def addAggregate (known : List Aggregate) (e : Event) : List Aggregate :=
  if known.any fun a => a.id == e.aggregateId then known else known ++ [e.aggregate]

/-- The aggregates as their first events name them, in the order of those. -/
def aggregates (l : EventLog) : List Aggregate := l.events.foldl addAggregate []

/-! ## Snapshots -/

/-- Stores a snapshot, or refuses it. -/
def storeSnapshot (l : EventLog) (s : Snapshot) : Except LogError EventLog :=
  match s.validate with
  | .ok () => .ok { l with snapshots := s :: l.snapshots }
  | .error e => .error (.ofValueError e)

/-- The snapshot with the greatest revision; of several of that revision the first in the list. -/
def greatest : List Snapshot → Option Snapshot
  | [] => none
  | s :: rest =>
    match greatest rest with
    | none => some s
    | some t => if s.revision < t.revision then some t else some s

/-- The snapshot of an aggregate with the greatest revision, the one stored last. -/
def snapshot? (l : EventLog) (aggregate : Aggregate) : Option Snapshot :=
  greatest (l.snapshots.filter fun s => s.aggregate.id == aggregate.id)

end EventLog

end EventRelay
