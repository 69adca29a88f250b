import EventRelay.Json.Codec
import EventRelay.Lease
import EventRelay.Replay.Window

/-!
# The wire types

What clients and server send each other, each type with its codec. A type with named fields is
described by the list of its fields in the order they are written.
-/

namespace EventRelay.Wire

open Json (Codec Field Values Decoder)

/-- UUIDs. -/
def uuid : Codec Uuid := .text Uuid.parse? Uuid.toString

/-- Error codes. -/
def errorCode : Codec ErrorCode := .text ErrorCode.ofText? ErrorCode.text

/-- Instants. -/
def instant : Codec Instant := .text Instant.ofRfc3339? Instant.toRfc3339

/-! ## Events -/

/-- The fields of a context. -/
def contextFields : List Field := [⟨"name", String, .string, none⟩]

/-- Contexts. -/
def context : Codec Context :=
  .record contextFields (fun (name, _) => ⟨name⟩) fun c => (c.name, ())

/-- The fields of an aggregate. -/
def aggregateFields : List Field :=
  [⟨"name", String, .string, none⟩, ⟨"id", Uuid, uuid, none⟩]

/-- Aggregates. -/
def aggregate : Codec Aggregate :=
  .record aggregateFields (fun (name, id, _) => ⟨name, id⟩) fun a => (a.name, a.id, ())

/-- The fields of a user. -/
def userFields : List Field :=
  [⟨"id", String, .string, none⟩, ⟨"claims", Json, .free, some .null⟩]

/-- Users with their claims. -/
def user : Codec (String × Json) :=
  .record userFields (fun (id, claims, _) => (id, claims)) fun u => (u.1, u.2, ())

/-- The fields of an initiator. -/
def initiatorFields : List Field := [⟨"user", String × Json, user, none⟩]

/-- Initiators. -/
def initiator : Codec Initiator :=
  .record initiatorFields (fun (u, _) => ⟨u.1, u.2⟩) fun i => ((i.user, i.claims), ())

/-- The fields of metadata. -/
def metadataFields : List Field :=
  [⟨"causationId", Uuid, uuid, none⟩, ⟨"correlationId", Uuid, uuid, none⟩,
    ⟨"timestamp", Int, .int64, none⟩, ⟨"revision", Nat, .nat64, none⟩,
    ⟨"initiator", Initiator, initiator, none⟩,
    ⟨"tags", List String, .list .string, some []⟩]

/-- Metadata of events. -/
def metadata : Codec Metadata :=
  .record metadataFields
    (fun (causation, correlation, timestamp, revision, initiator, tags, _) =>
      ⟨causation, correlation, timestamp, revision, initiator, tags⟩)
    fun m => (m.causationId, m.correlationId, m.timestamp, m.revision, m.initiator, m.tags, ())

/-- The fields of an event. -/
def eventFields : List Field :=
  [⟨"contextIdentifier", Context, context, none⟩,
    ⟨"aggregateIdentifier", Aggregate, aggregate, none⟩, ⟨"name", String, .string, none⟩,
    ⟨"id", Uuid, uuid, none⟩, ⟨"data", Json, .free, some .null⟩,
    ⟨"metadata", Metadata, metadata, none⟩]

/-- Events. -/
def event : Codec Event :=
  .record eventFields
    (fun (context, aggregate, name, id, data, metadata, _) =>
      ⟨context, aggregate, name, id, data, metadata⟩)
    fun e => (e.context, e.aggregate, e.name, e.id, e.data, e.metadata, ())

/-- The fields of a snapshot. -/
def snapshotFields : List Field :=
  [⟨"aggregateIdentifier", Aggregate, aggregate, none⟩, ⟨"revision", Nat, .nat64, none⟩,
    ⟨"state", Json, .free, none⟩]

/-- Snapshots. -/
def snapshot : Codec Snapshot :=
  .record snapshotFields (fun (aggregate, revision, state, _) => ⟨aggregate, revision, state⟩)
    fun s => (s.aggregate, s.revision, s.state, ())

/-! ## Leases -/

/-- The fields of a lease. -/
def leaseFields : List Field :=
  [⟨"discriminator", String, .string, none⟩, ⟨"token", Uuid, uuid, none⟩,
    ⟨"expiresAt", Instant, instant, none⟩]

/-- Leases. -/
def lease : Codec Lease :=
  .record leaseFields (fun (lane, token, expiresAt, _) => ⟨lane, token, expiresAt⟩)
    fun l => (l.lane, l.token, l.expiresAt, ())

/-- The fields of a lock. -/
def lockFields : List Field :=
  [⟨"discriminator", String, .string, none⟩, ⟨"token", Uuid, uuid, none⟩]

/-- Locks. -/
def lock : Codec Lock :=
  .record lockFields (fun (lane, token, _) => ⟨lane, token⟩) fun l => (l.lane, l.token, ())

/-- An item handed out, with the lock that its worker holds. -/
structure AwaitedItem where
  item : Event
  lock : Lock
  deriving Inhabited

/-- The fields of an item handed out. -/
def awaitedItemFields : List Field :=
  [⟨"item", Event, event, none⟩, ⟨"metadata", Lock, lock, none⟩]

/-- Items handed out. -/
def awaitedItem : Codec AwaitedItem :=
  .record awaitedItemFields (fun (item, lock, _) => ⟨item, lock⟩) fun a => (a.item, a.lock, ())

/-- A request to move an item to the end of its lane. -/
structure DeferRequest where
  lock : Lock
  priority : Int
  deriving DecidableEq, Inhabited

/-! A request to defer is written as one object with the members of its lock and the priority. The
members of the lock are looked at only after the whole object was read, so a fault among them is
met last; and every member but the priority is kept until then. -/

namespace DeferRequest

/-- What was read of a request: the priority, and the values of the other members in their order. -/
structure Draft where
  priority : Option Int := none
  others : List (String × Json) := []

/-- Decodes a member after its name. -/
def member (d : Draft) (name : String) : Decoder Draft :=
  if name = "priority" then
    if d.priority.isSome then Decoder.fail .mistyped
    else (Decoder.afterColon Decoder.int64).andThen fun p =>
      Decoder.result { d with priority := some p }
  else (Decoder.afterColon Decoder.value).andThen fun v =>
    Decoder.result { d with others := d.others ++ [(name, v)] }

/-- The string under a name that stands there once. -/
def onlyString? (others : List (String × Json)) (name : String) : Option String :=
  match others.filter fun (other, _) => other == name with
  | [(_, .string s)] => some s
  | _ => none

/-- The request, if nothing is missing and the lock is sound. -/
def complete? (d : Draft) : Option DeferRequest := do
  let priority ← d.priority
  let lane ← onlyString? d.others "discriminator"
  let token ← (onlyString? d.others "token").bind Uuid.parse?
  return ⟨⟨lane, token⟩, priority⟩

end DeferRequest

/-- Requests to defer. -/
def deferRequest : Codec DeferRequest where
  decode := (Decoder.object DeferRequest.member {}).refine DeferRequest.complete?
  encode r := .object (Values.members lockFields (r.lock.lane, r.lock.token, ()) ++
    [("priority", .int r.priority)])

/-! ## Requests and reports -/

/-- Requests to store events. -/
def writeEvents : Codec (List Event) :=
  .record [⟨"domainEvents", List Event, .list event, none⟩] (fun (es, _) => es) fun es => (es, ())

/-- Requests to store a snapshot. -/
def storeSnapshot : Codec Snapshot :=
  .record [⟨"snapshot", Snapshot, snapshot, none⟩] (fun (s, _) => s) fun s => (s, ())

/-- The fields of a replay window. -/
def replayWindowFields : List Field :=
  [⟨"contextIdentifier", Context, context, none⟩,
    ⟨"aggregateIdentifier", Aggregate, aggregate, none⟩, ⟨"from", Nat, .nat64, none⟩,
    ⟨"to", Nat, .nat64, none⟩]

/-- Replay windows. -/
def replayWindow : Codec ReplayWindow :=
  .record replayWindowFields
    (fun (context, aggregate, first, last, _) => ⟨context, aggregate, first, last⟩)
    fun w => (w.context, w.aggregate, w.first, w.last, ())

/-- Requests to replay. -/
def performReplay : Codec (List ReplayWindow) :=
  .record [⟨"aggregates", List ReplayWindow, .list replayWindow, none⟩] (fun (ws, _) => ws)
    fun ws => (ws, ())

/-- The fields of a replay report. -/
def replayReportFields : List Field :=
  [⟨"enqueued", Nat, .nat64, none⟩, ⟨"alreadyQueued", Nat, .nat64, none⟩]

/-- Replay reports. -/
def replayReport : Codec ReplayReport :=
  .record replayReportFields (fun (enqueued, queued, _) => ⟨enqueued, queued⟩)
    fun r => (r.enqueued, r.alreadyQueued, ())

/-- Answers on whether an event was caused by another. -/
def hasCausedBy : Codec Bool :=
  .record [⟨"hasDomainEventsWithCausationId", Bool, .bool, none⟩] (fun (b, _) => b)
    fun b => (b, ())

/-- The body of every refusal. -/
structure ErrorBody where
  code : ErrorCode
  message : String
  deriving DecidableEq, Repr

/-- Bodies of refusals. -/
def errorBody : Codec ErrorBody :=
  .record [⟨"code", ErrorCode, errorCode, none⟩, ⟨"message", String, .string, none⟩]
    (fun (code, message, _) => ⟨code, message⟩) fun b => (b.code, b.message, ())

end EventRelay.Wire
