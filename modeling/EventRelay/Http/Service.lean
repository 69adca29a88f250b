import EventRelay.Dispatch
import EventRelay.Http.Body
import EventRelay.Http.Route
import EventRelay.Publish
import EventRelay.Replay.Perform
import EventRelay.Text.Numeral

/-!
# Answering requests

Each endpoint reads what it needs of the request, does its work and answers. A failure of what keeps
the log or the queue is told besides being answered.
-/

namespace EventRelay.Http

open Work (log note)

/-! ## Refusals -/

/-- The answer to a refusal of the queue. -/
def refuseQueue (e : QueueError) : Work Response := do
  if e.code = .unknownError then note (.queueFailed e.message)
  return .refusal e.code e.message

/-- The answer to a refusal of the log. -/
def refuseLog (e : LogError) : Work Response := do
  if e.code = .unknownError then note (.logFailed e.message)
  return .refusal e.code e.message

/-- The answer to a replay that stopped. -/
def refuseReplay : ReplayError → Work Response
  | .invalid reason => return .malformed reason
  | .log e => refuseLog e
  | .queue e => refuseQueue e

/-- What is said of a query that cannot be used. -/
def unusableQuery : String := "Failed to deserialize query string"

/-- The aggregate that the text of a parameter names, or the answer that there is none. -/
def aggregateOfText (text : String) : Except Response Aggregate :=
  match Wire.aggregate.read text with
  | .error _ => .error (.refusal .aggregateIdentifierMalformed "not an aggregate identifier")
  | .ok a =>
    match a.validate with
    | .error e => .error (.refusal .aggregateIdentifierMalformed e.message)
    | .ok () => .ok a

/-- The aggregate that a query names, or the answer that there is none. -/
def aggregateOfQuery (q : Query) : Except Response Aggregate :=
  match q.required "aggregateIdentifier" some with
  | .error _ => .error (.refusal .aggregateIdentifierMalformed unusableQuery)
  | .ok text => aggregateOfText text

/-- A parameter of 64 bits without sign. -/
def natural (s : String) : Option Nat := (Text.natural? (Nat.pow 2 64 - 1) s).toOption

/-- A parameter of 64 bits with sign. -/
def integer (s : String) : Option Int := (Text.integer? (Nat.pow 2 63 - 1) s).toOption

/-! ## Endpoints -/

/-- Goes on with the body of a request, or answers what is wrong with it. -/
def withBody {α : Type} (c : Json.Codec α) (r : Request) (f : α → Work Response) :
    Work Response :=
  match readBody c r with
  | .ok a => f a
  | .error reason => return .malformed reason

/-- The answer to work on the queue that has nothing to say. -/
def settled {α : Type} : Except QueueError α → Work Response
  | .ok _ => return .done
  | .error e => refuseQueue e

/-- The answer to a read. -/
def events (selection : Selection) : Work Response := do
  match ← log (.read selection) with
  | .ok reader => return { status := 200, content := .events reader }
  | .error e => refuseLog e

/-- All events from a time on. -/
def replay (q : Query) : Work Response :=
  match q.optional "fromTimestamp" integer with
  | .error _ => return .malformed unusableQuery
  | .ok timestamp? =>
    if timestamp?.any (· < 0) then return .malformed "fromTimestamp must be at least 0"
    else events (.since (timestamp?.getD 0))

/-- The stream of an aggregate. Its id is looked at before the query. -/
def replayAggregate (id : String) (q : Query) : Work Response :=
  match pathText? id with
  | none =>
    return { status := 400, content := .text "Invalid URL: Invalid UTF-8 in \x60aggregate_id\x60" }
  | some id =>
    match Uuid.parse? id with
    | none => return .malformed "invalid aggregate id"
    | some id =>
      match q.optional "fromRevision" natural, q.optional "toRevision" natural with
      | .ok first?, .ok last? =>
        match RevisionRange.between first? last? with
        | .ok range => events (.stream id range)
        | .error e => refuseLog e
      | _, _ => return .malformed unusableQuery

/-- Events with an id that the query has to give. -/
def eventsOf (q : Query) (name : String) (selection : Uuid → Selection) : Work Response :=
  match q.required name Uuid.parse? with
  | .ok id => events (selection id)
  | .error _ => return .malformed unusableQuery

/-- Whether an event was caused by another. -/
def hasCausedBy (q : Query) : Work Response :=
  match q.required "causation-id" Uuid.parse? with
  | .error _ => return .malformed unusableQuery
  | .ok id => do
    match ← log (.hasCausedBy id) with
    | .ok found => return .value (Wire.hasCausedBy.encode found)
    | .error e => refuseLog e

/-- The latest event of an aggregate. -/
def lastEvent (q : Query) : Work Response :=
  match aggregateOfQuery q with
  | .error response => return response
  | .ok a => do
    match ← log (.last a) with
    | .ok event => return .value (Wire.event.encode event)
    | .error e => refuseLog e

/-- The snapshot of an aggregate. -/
def readSnapshot (q : Query) : Work Response :=
  match aggregateOfQuery q with
  | .error response => return response
  | .ok a => do
    match ← log (.snapshot a) with
    | .ok (some s) => return .value (Wire.snapshot.encode s)
    | .ok none => refuseLog (.notFound ("no snapshot for aggregate " ++ toString a.id))
    | .error e => refuseLog e

/-- Stores events and puts them into lanes. -/
def write (registry : Registry) (batch : List Event) : Work Response := do
  match ← Publish.publish registry batch with
  | .ok () => return .done
  | .error e => refuseLog e

/-- Stores a snapshot. -/
def storeSnapshot (s : Snapshot) : Work Response := do
  match ← log (.storeSnapshot s) with
  | .ok () => return .done
  | .error e => refuseLog e

/-- All aggregates. -/
def aggregates : Work Response := do
  match ← log .aggregates with
  | .ok aggregates => return { status := 200, content := .aggregates aggregates }
  | .error e => refuseLog e

/-- Puts stored events into lanes again. -/
def performReplay (registry : Registry) (windows : List ReplayWindow) : Work Response := do
  match ← Replay.perform registry windows with
  | .ok report => return .value (Wire.replayReport.encode report)
  | .error e => refuseReplay e

/-- What an endpoint answers. -/
def answer (registry : Registry) (r : Request) : Endpoint → Work Response
  | .awaitItem => return { status := 200, content := .nextItem }
  | .renewLock => withBody Wire.lock r fun l => do settled (← Dispatch.renew l)
  | .acknowledge => withBody Wire.lock r fun l => do settled (← Dispatch.acknowledge l)
  | .defer => withBody Wire.deferRequest r fun d => do settled (← Dispatch.defer d.lock d.priority)
  | .write => withBody Wire.writeEvents r (write registry)
  | .replay => replay r.query
  | .replayAggregate id => replayAggregate id r.query
  | .lastEvent => lastEvent r.query
  | .causedBy => eventsOf r.query "causation-id" .causedBy
  | .correlatedBy => eventsOf r.query "correlation-id" .correlatedBy
  | .hasCausedBy => hasCausedBy r.query
  | .readSnapshot => readSnapshot r.query
  | .storeSnapshot => withBody Wire.storeSnapshot r storeSnapshot
  | .aggregates => aggregates
  | .performReplay => withBody Wire.performReplay r (performReplay registry)

/-- What a request is answered. -/
def respond (registry : Registry) (r : Request) : Work Response :=
  match Resource.ofPath? r.path with
  | none => return { status := 404 }
  | some resource =>
    match resource.endpoint? r.method with
    | none => return { status := 405, allow := resource.methods }
    | some endpoint => do
      let response ← answer registry r endpoint
      return { response with headOnly := r.method == "HEAD" }

end EventRelay.Http
