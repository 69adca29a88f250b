import EventRelay.Database.Session
import EventRelay.Log.Reader

/-!
# The event log in tables

A batch is checked against the revisions that its aggregates have reached, and stored in the same
transaction. Should another broker store an event of one of them in between, the table refuses the
revision and the whole batch with it.

A long read goes page by page. Each page takes up after the key of the last row before it, so a read
keeps nothing open between its pages.
-/

namespace EventRelay.Database.LogStore

/-- What is done in a statement, as failures name it. -/
def activity : Statement → String
  | .setup => "setup"
  | .begin => "begin_transaction"
  | .commit => "commit"
  | .rollback => "rollback"
  | .currentRevision => "current_revision"
  | .insertEvent => "insert_domain_event"
  | .fetchPage => "fetch_page"
  | .last => "get_last_domain_event"
  | .hasCausedBy => "has_domain_events_with_causation_id"
  | .storeSnapshot => "store_snapshot"
  | .snapshot => "get_snapshot"
  | .aggregates => "get_aggregate_identifiers"
  | _ => ""

/-- What a failed statement means to users of the log. -/
def refusal (st : Statement) : Failure → LogError
  | .refused duplicate reason =>
    let text := "database error in " ++ activity st ++ ": " ++ reason
    if duplicate then .revisionAlreadyExists text else .storage text
  | .closed => .storage ("connection pool closed in " ++ activity st)
  | .unreadable => .storage ("sqlx error in " ++ activity st)

/-- An event, with what it is selected by, that cannot be read. -/
def unreadableEvent : LogError := .storage "failed to read event row"

/-- The event of a row. -/
def decode (payload : Json) : Except LogError Event :=
  match Wire.event.ofJson payload with
  | .ok e => .ok e
  | .error _ => .error (.storage "failed to decode stored event")

/-- The event of a row whose values may be missing. -/
def eventOf : Option EventRow → Except LogError Event
  | some row => decode row.payload
  | none => .error unreadableEvent

/-- The rows that a statement gives. -/
def rows {α : Type} (st : Statement) (f : Tables → List α) : Script LogError (List (Option α)) :=
  (select st f).mapFailure (refusal st)

/-- The one value that a statement gives. -/
def value {α : Type} (st : Statement) (f : Tables → α) : Script LogError α := do
  match ← rows st fun t => [f t] with
  | some a :: _ => return a
  | _ => throw (refusal st .unreadable)

/-- The number of statements that make the tables. -/
def setupLength : Nat := 5

/-- Makes the tables. -/
def setup : Script LogError Unit := do
  for _ in List.range setupLength do
    (alter .setup id).mapFailure (refusal .setup)

/-! ## Appending -/

/-- The revisions that the aggregates of events have reached, each asked for once. -/
def revisionsOf (known : List (Uuid × Nat)) : List Event → Script LogError (List (Uuid × Nat))
  | [] => return known
  | e :: rest => do
    if (known.lookup e.aggregateId).isSome then revisionsOf known rest
    else
      let revision ← value .currentRevision (·.latest e.aggregateId)
      revisionsOf (known ++ [(e.aggregateId, revision)]) rest

/-- What the table says to a revision that is there already. -/
def duplicateRevision : Failure :=
  .refused true
    "duplicate key value violates unique constraint \"domain_events_aggregate_revision\""

/-- Stores one event. -/
def insert (e : Event) : Script LogError Unit :=
  (attempt .insertEvent fun t =>
    if t.hasRevision e.aggregateId e.revision then .error duplicateRevision
    else .ok (t.insertEvent e (Wire.event.encode e))).mapFailure (refusal .insertEvent)

/-- Stores a batch whole, or refuses it. Its events are looked at one by one before anything is
asked of the database. -/
def append (batch : List Event) : Script LogError Unit := do
  for e in batch do
    if let .error err := e.validate then throw (.ofValueError err)
  transaction (refusal .begin) do
    let known ← revisionsOf [] batch
    if let .error err := Batch.check (fun id => (known.lookup id).getD 0) batch then
      rollback.mapFailure (refusal .rollback)
      throw err
    for e in batch do
      insert e
    commit.mapFailure (refusal .commit)

/-! ## Reading -/

/-- The number of rows in a full page. -/
def pageLength : Nat := 100

/-- A number of 64 bits without sign, taken as one with sign. -/
def signed (n : Int) : Int := n.bmod (Nat.pow 2 64)

/-- The read before its first page. -/
def openCursor (selection : Selection) : PageCursor where
  selection := selection
  after :=
    match selection with
    | .stream _ range => signed (signed range.first - 1)
    | _ => 0

/-- The rows of a stream in the order of revisions. -/
def byRevision (rows : List EventRow) : List EventRow :=
  rows.mergeSort fun a b => a.revision ≤ b.revision

/-- The rows after a key, each with its own key. -/
def following (selection : Selection) (after : Int) (t : Tables) : List (Int × EventRow) :=
  let inOrder (wanted : EventRow → Bool) : List (Int × EventRow) :=
    (t.events.filter fun row => after < row.position && wanted row).map fun row =>
      ((row.position : Int), row)
  match selection with
  | .since timestamp => inOrder fun row => timestamp ≤ row.timestamp
  | .causedBy id => inOrder fun row => row.causationId == id
  | .correlatedBy id => inOrder fun row => row.correlationId == id
  | .stream aggregate range =>
    let last : Int := (range.last?.map fun n => signed n).getD (Nat.pow 2 63 - 1 : Nat)
    let wanted := t.events.filter fun row =>
      row.aggregate.id == aggregate && after < row.revision && (row.revision : Int) ≤ last
    (byRevision wanted).map fun row => ((row.revision : Int), row)

/-- Reads the next page. An event that cannot be had spoils its whole page. -/
def fetchPage (c : PageCursor) : Script LogError PageCursor := do
  let page ← rows .fetchPage fun t => (following c.selection c.after t).take pageLength
  let events ← page.mapM fun row => ExceptT.mk (return eventOf (row.map (·.2)))
  let after := ((page.getLast?.bind id).map (·.1)).getD c.after
  return { c with after, page := events, exhausted := page.length < pageLength }

/-- The next event of a read. A read that fails has ended. -/
def next (c : PageCursor) : StateM Session (Option (Except LogError Event) × Reader) := do
  let fetched ← (if c.page.isEmpty && !c.exhausted then fetchPage c else pure c).run
  match fetched with
  | .error e => return (some (.error e), .ended)
  | .ok c =>
    match c.page with
    | [] => return (none, .ended)
    | e :: rest => return (some (.ok e), .table { c with page := rest })

/-- The event of the latest revision of an aggregate. The id alone tells aggregates apart. -/
def last (a : Aggregate) : Script LogError Event := do
  match ← rows .last fun t => (t.lastEvent? a.id).toList with
  | [] => throw (.noEventsOf a.id)
  | row :: _ => ExceptT.mk (return eventOf row)

/-- Some event was caused by another. -/
def hasCausedBy (id : Uuid) : Script LogError Bool :=
  value .hasCausedBy fun t => t.events.any fun row => row.causationId == id

/-- The aggregates, each with a failure of its own where its values are missing. -/
def aggregates : Script LogError (List (Except LogError Aggregate)) := do
  let found ← rows .aggregates Tables.aggregates
  return found.map fun
    | some a => .ok a
    | none => .error (.storage "failed to read aggregate row")

/-! ## Snapshots -/

/-- The least revision that does not fit into a column. -/
def revisionLimit : Nat := Nat.pow 2 63

/-- What the table says to a revision that does not fit into a column. -/
def revisionOutOfRange : Failure :=
  .refused false
    "new row for relation \"snapshots\" violates check constraint \"snapshots_revision_check\""

/-- Stores a snapshot, or refuses it. -/
def storeSnapshot (s : Snapshot) : Script LogError Unit := do
  if let .error err := s.validate then throw (.ofValueError err)
  (attempt .storeSnapshot fun t =>
    if s.revision < revisionLimit then .ok (t.putSnapshot s)
    else .error revisionOutOfRange).mapFailure (refusal .storeSnapshot)

/-- The snapshot of an aggregate with the greatest revision. -/
def snapshot (a : Aggregate) : Script LogError (Option Snapshot) := do
  match ← rows .snapshot fun t => (t.snapshot? a.id).toList with
  | [] => return none
  | some row :: _ => return some ⟨⟨row.aggregate.name, a.id⟩, row.revision, row.state⟩
  | none :: _ => throw (.storage "failed to read snapshot row")

end EventRelay.Database.LogStore
