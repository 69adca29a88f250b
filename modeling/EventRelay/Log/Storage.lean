import EventRelay.Log.Basic
import Std.Data.HashMap
import Std.Data.TreeMap

/-!
# How the log is held in memory

Beside the list of all events stand the positions of each aggregate in it, so that an event is found
by its revision without a search, and the aggregates that have any. Snapshots stand under the id of
their aggregate, in the order of revisions; one takes the place of another of the same revision. A
read that is open asks for each event anew, so it keeps nobody from appending.
-/

namespace EventRelay

instance : Hashable Uuid := ⟨fun id => hash id.value⟩

/-- Stored events and snapshots, with what is kept to find them. -/
structure Storage where
  /-- Every event, in the order of appending. -/
  events : List Event := []
  /-- Positions in `events`, that of a revision at the place before it. -/
  streams : Std.HashMap Uuid (List Nat) := {}
  /-- The aggregates in the order of their first events. -/
  aggregates : List Aggregate := []
  snapshots : Std.HashMap Uuid (Std.TreeMap Nat Snapshot) := {}

namespace Storage

instance : Inhabited Storage := ⟨{}⟩

/-- The number of stored events. -/
def length (s : Storage) : Nat := s.events.length

/-- Where the events of an aggregate are, in the order of revisions. -/
def positionsOf (s : Storage) (aggregate : Uuid) : List Nat := s.streams.getD aggregate []

/-- The latest revision of an aggregate; 0 if it has no event. -/
def latest (s : Storage) (aggregate : Uuid) : Nat := (s.positionsOf aggregate).length

/-! ## Appending -/

/-- Stores one event. -/
def push (s : Storage) (e : Event) : Storage where
  events := s.events ++ [e]
  streams := s.streams.insert e.aggregateId (s.positionsOf e.aggregateId ++ [s.events.length])
  aggregates :=
    if s.streams.contains e.aggregateId then s.aggregates else s.aggregates ++ [e.aggregate]
  snapshots := s.snapshots

/-- Stores a batch whole, or refuses it. -/
def append (s : Storage) (batch : List Event) : Except LogError Storage :=
  match Batch.check s.latest batch with
  | .ok () => .ok (batch.foldl push s)
  | .error e => .error e

/-! ## Reading -/

/-- The next event of a read and the cursor after it; nothing at the end. -/
def next? (s : Storage) : EventLog.Cursor → Option (Event × EventLog.Cursor)
  | .scan selection position =>
    (EventLog.findFrom (EventLog.wants selection) position (s.events.drop position)).map
      fun (e, position) => (e, .scan selection position)
  | .stream aggregate range revision =>
    if range.reaches revision then
      ((s.positionsOf aggregate)[revision - 1]?.bind fun position => s.events[position]?).map
        fun e => (e, .stream aggregate range (revision + 1))
    else none

/-- The event at the last position of an aggregate. The id alone tells aggregates apart. -/
def last (s : Storage) (aggregate : Aggregate) : Except LogError Event :=
  match (s.positionsOf aggregate.id).getLast?.bind fun position => s.events[position]? with
  | some e => .ok e
  | none => .error (.noEventsOf aggregate.id)

/-- Some event was caused by another. -/
def hasCausedBy (s : Storage) (id : Uuid) : Bool :=
  s.events.any fun e => e.metadata.causationId == id

/-! ## Snapshots -/

/-- The snapshots of an aggregate by their revisions. -/
def snapshotsOf (s : Storage) (aggregate : Uuid) : Std.TreeMap Nat Snapshot :=
  s.snapshots.getD aggregate {}

/-- Stores a snapshot in place of one of its revision, or refuses it. -/
def storeSnapshot (s : Storage) (x : Snapshot) : Except LogError Storage :=
  match x.validate with
  | .ok () =>
    let byRevision := (s.snapshotsOf x.aggregate.id).insert x.revision x
    .ok { s with snapshots := s.snapshots.insert x.aggregate.id byRevision }
  | .error e => .error (.ofValueError e)

/-- The last snapshot of an aggregate in the order of revisions. -/
def snapshot? (s : Storage) (aggregate : Aggregate) : Option Snapshot :=
  (s.snapshotsOf aggregate.id).toList.getLast?.map (·.2)

end Storage

end EventRelay
