import EventRelay.Json.Codec
import EventRelay.Lease
import EventRelay.Log.Basic
import EventRelay.Progress

/-!
# Tables

What a database keeps for a broker: entries and locks of the queue, stored events and snapshots, and
the progress of consumers. Items, events and states are kept as JSON texts: what a row gives back is
what its text reads as, and what it stands for is decoded only then.
Sequence numbers and positions are drawn from counters that never go back, whatever becomes of the
transaction that drew them.
-/

namespace EventRelay.Database

/-- An entry of the queue. -/
structure ItemRow where
  sequence : Nat
  lane : String
  key : String
  priority : Int
  payload : Json

/-- The lock of a lane, on the entry with a sequence number. -/
structure LockRow where
  lane : String
  token : Uuid
  expiresAt : Instant
  sequence : Nat

/-- A stored event. What reads select by stands beside the event itself. -/
structure EventRow where
  position : Nat
  aggregate : Aggregate
  revision : Nat
  causationId : Uuid
  correlationId : Uuid
  timestamp : Int
  payload : Json

/-- A stored snapshot. -/
structure SnapshotRow where
  aggregate : Aggregate
  revision : Nat
  state : Json

/-- What a flow has settled of an aggregate. -/
structure ProgressRow where
  flow : String
  aggregate : Uuid
  progress : Progress

/-- All tables, each in the order in which its rows came. -/
structure Tables where
  items : List ItemRow := []
  locks : List LockRow := []
  events : List EventRow := []
  snapshots : List SnapshotRow := []
  progress : List ProgressRow := []
  /-- The sequence number of the next entry. -/
  nextSequence : Nat := 1
  /-- The position of the next event. -/
  nextPosition : Nat := 1

namespace Tables

instance : Inhabited Tables := ⟨{}⟩

/-- The tables with the counters of others. -/
def withCountersOf (t u : Tables) : Tables :=
  { t with nextSequence := u.nextSequence, nextPosition := u.nextPosition }

/-! ## Entries and locks -/

/-- The row with the least number, the first of several. -/
def least {α : Type} (number : α → Nat) : List α → Option α
  | [] => none
  | a :: rest =>
    match least number rest with
    | none => some a
    | some b => if number b < number a then some b else some a

/-- The row with the greatest number, the first of several. -/
def greatest {α : Type} (number : α → Nat) : List α → Option α
  | [] => none
  | a :: rest =>
    match greatest number rest with
    | none => some a
    | some b => if number a < number b then some b else some a

/-- The entry at the head of a lane. -/
def head? (t : Tables) (lane : String) : Option ItemRow :=
  least ItemRow.sequence (t.items.filter fun row => row.lane == lane)

/-- The lock of a lane. -/
def lock? (t : Tables) (lane : String) : Option LockRow :=
  t.locks.find? fun row => row.lane == lane

/-- A lane holds an entry. -/
def hasItems (t : Tables) (lane : String) : Bool := t.items.any fun row => row.lane == lane

/-- A lane holds an entry with a key. -/
def hasKey (t : Tables) (lane key : String) : Bool :=
  t.items.any fun row => row.lane == lane && row.key == key

/-- Puts an entry at the end of a lane. -/
def insertItem (t : Tables) (lane key : String) (priority : Int) (payload : Json) : Tables :=
  { t with
    items := t.items ++ [⟨t.nextSequence, lane, key, priority, payload.reread⟩]
    nextSequence := t.nextSequence + 1 }

/-- The entry of a lane with a sequence number. -/
def item? (t : Tables) (lane : String) (sequence : Nat) : Option ItemRow :=
  t.items.find? fun row => row.lane == lane && row.sequence == sequence

/-- Takes an entry out. -/
def removeItem (t : Tables) (lane : String) (sequence : Nat) : Tables :=
  { t with items := t.items.filter fun row => !(row.lane == lane && row.sequence == sequence) }

/-- Gives an entry another priority and moves it to the end of its lane. -/
def moveItem (t : Tables) (lane : String) (sequence : Nat) (priority : Int) : Tables :=
  { t with
    items := t.items.map fun row =>
      if row.lane == lane && row.sequence == sequence then
        { row with priority, sequence := t.nextSequence }
      else row
    nextSequence := t.nextSequence + 1 }

/-- Puts a lock on a lane in place of the one that is there. -/
def putLock (t : Tables) (lock : LockRow) : Tables :=
  { t with locks := (t.locks.filter fun row => row.lane != lock.lane) ++ [lock] }

/-- Takes the lock off a lane. -/
def removeLock (t : Tables) (lane : String) : Tables :=
  { t with locks := t.locks.filter fun row => row.lane != lane }

/-- A lane has a lock that has not run out. -/
def isLocked (t : Tables) (now : Instant) (lane : String) : Bool :=
  t.locks.any fun row => row.lane == lane && now < row.expiresAt

/-- The first entry comes before the second: by priority, then by sequence. -/
def ItemRow.before (a b : ItemRow) : Bool :=
  a.priority < b.priority || (a.priority == b.priority && a.sequence < b.sequence)

/-- The entry that comes before all others. -/
def best? : List ItemRow → Option ItemRow
  | [] => none
  | a :: rest =>
    match best? rest with
    | none => some a
    | some b => if ItemRow.before b a then some b else some a

/-- The best head of all lanes without a live lock. -/
def candidate? (t : Tables) (now : Instant) : Option ItemRow :=
  best? (t.items.filter fun row =>
    (t.head? row.lane).any (fun head => head.sequence == row.sequence) && !t.isLocked now row.lane)

/-! ## Events and snapshots -/

/-- The event of the latest revision of an aggregate. -/
def lastEvent? (t : Tables) (aggregate : Uuid) : Option EventRow :=
  greatest EventRow.revision (t.events.filter fun row => row.aggregate.id == aggregate)

/-- The revision that an aggregate has reached; 0 if it has no event. -/
def latest (t : Tables) (aggregate : Uuid) : Nat :=
  ((t.lastEvent? aggregate).map EventRow.revision).getD 0

/-- The stream of an aggregate has an event of a revision. -/
def hasRevision (t : Tables) (aggregate : Uuid) (revision : Nat) : Bool :=
  t.events.any fun row => row.aggregate.id == aggregate && row.revision == revision

/-- Stores an event. -/
def insertEvent (t : Tables) (e : Event) (payload : Json) : Tables :=
  { t with
    events := t.events ++ [⟨t.nextPosition, e.aggregate, e.revision, e.metadata.causationId,
      e.metadata.correlationId, e.timestamp, payload.reread⟩]
    nextPosition := t.nextPosition + 1 }

/-- The aggregates by name and id, in the order of their first events. -/
def aggregates (t : Tables) : List Aggregate :=
  t.events.foldl (fun known row =>
    if known.contains row.aggregate then known else known ++ [row.aggregate]) []

/-- Stores a snapshot. Of a revision that is there already only the state is replaced. -/
def putSnapshot (t : Tables) (s : Snapshot) : Tables :=
  let isSame (row : SnapshotRow) := row.aggregate.id == s.aggregate.id && row.revision == s.revision
  let state := s.state.reread
  { t with snapshots :=
      if t.snapshots.any isSame then
        t.snapshots.map fun row => if isSame row then { row with state } else row
      else t.snapshots ++ [⟨s.aggregate, s.revision, state⟩] }

/-- The snapshot of the greatest revision of an aggregate. -/
def snapshot? (t : Tables) (aggregate : Uuid) : Option SnapshotRow :=
  greatest SnapshotRow.revision (t.snapshots.filter fun row => row.aggregate.id == aggregate)

/-! ## Progress -/

/-- What a flow has settled of an aggregate, if anything was recorded. -/
def progress? (t : Tables) (flow : String) (aggregate : Uuid) : Option Progress :=
  (t.progress.find? fun row => row.flow == flow && row.aggregate == aggregate).map (·.progress)

/-- Makes sure that there is a row for a flow and an aggregate. -/
def ensureProgress (t : Tables) (flow : String) (aggregate : Uuid) : Tables :=
  if (t.progress? flow aggregate).isSome then t
  else { t with progress := t.progress ++ [⟨flow, aggregate, {}⟩] }

/-- Replaces what a flow has settled of an aggregate. -/
def setProgress (t : Tables) (flow : String) (aggregate : Uuid) (p : Progress) : Tables :=
  { t with progress := t.progress.map fun row =>
      if row.flow == flow && row.aggregate == aggregate then { row with progress := p } else row }

end Tables

end EventRelay.Database
