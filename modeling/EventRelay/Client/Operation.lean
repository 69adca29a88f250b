import EventRelay.Client.Stream
import EventRelay.Client.Target

/-!
# Asking a server

What a client can ask of a server, what it sends for it, and how it reads what comes back.
-/

namespace EventRelay.Client

/-- What a client asks, by the type of the answer. -/
inductive Operation : Type → Type where
  /-- Waits for an item. -/
  | awaitItem : Operation Wire.AwaitedItem
  | renewLock (l : Lock) : Operation Unit
  | acknowledge (l : Lock) : Operation Unit
  | defer (l : Lock) (priority : Int) : Operation Unit
  | storeEvents (batch : List Event) : Operation Unit
  /-- All events, or those from a time on. -/
  | replay (first? : Option Int) : Operation (List Event)
  /-- The stream of an aggregate, or a range of it. -/
  | replayAggregate (id : Uuid) (first? last? : Option Nat) : Operation (List Event)
  | lastEvent (a : Aggregate) : Operation (Option Event)
  | snapshot (a : Aggregate) : Operation (Option Snapshot)
  | storeSnapshot (s : Snapshot) : Operation Unit
  | causedBy (id : Uuid) : Operation (List Event)
  | correlatedBy (id : Uuid) : Operation (List Event)
  | hasCausedBy (id : Uuid) : Operation Bool
  | aggregates : Operation (List Aggregate)
  | performReplay (windows : List ReplayWindow) : Operation ReplayReport

/-! ## What is sent -/

/-- A request as it is sent: without a value it asks, with one it posts the value as JSON. -/
structure Sent where
  path : String
  parameters : List (String × String) := []
  value? : Option Json := none

namespace Sent

/-- The method of a request. -/
def method (s : Sent) : String := if s.value?.isSome then "POST" else "GET"

/-- The type that a request names for its body. -/
def contentType? (s : Sent) : Option String := s.value?.map fun _ => "application/json"

/-- The target of a request at a server, by what the server's address has behind host and port; it
may end in slashes. Nothing is sent where that makes no address. -/
def target? (server : String) (s : Sent) : Option Target :=
  let root := String.ofList (server.toList.reverse.dropWhile (· == '/')).reverse
  (Target.ofText? (root ++ s.path)).map (·.withParameters s.parameters)

end Sent

namespace Operation

/-- Where items are waited for. -/
def queuePath : String := "/await-domain-event/v2"

/-- Where the log is read and written. -/
def logPath : String := "/domain-event-store/v2"

/-- The parameter that names an aggregate. -/
def aggregateParameter (a : Aggregate) : String × String :=
  ("aggregateIdentifier", Wire.aggregate.write a)

/-- A parameter, if it is given. -/
def parameter? {α : Type} [ToString α] (name : String) (a? : Option α) : List (String × String) :=
  (a?.map fun a => (name, toString a)).toList

/-- What is sent for an operation. -/
def sent {α : Type} : Operation α → Sent
  | awaitItem => { path := queuePath }
  | renewLock l => { path := queuePath ++ "/renew-lock", value? := some (Wire.lock.encode l) }
  | acknowledge l => { path := queuePath ++ "/acknowledge", value? := some (Wire.lock.encode l) }
  | defer l priority =>
    { path := queuePath ++ "/defer", value? := some (Wire.deferRequest.encode ⟨l, priority⟩) }
  | storeEvents batch =>
    { path := logPath ++ "/write", value? := some (Wire.writeEvents.encode batch) }
  | replay first? =>
    { path := logPath ++ "/replay", parameters := parameter? "fromTimestamp" first? }
  | replayAggregate id first? last? =>
    { path := logPath ++ "/replay/" ++ toString id
      parameters := parameter? "fromRevision" first? ++ parameter? "toRevision" last? }
  | lastEvent a =>
    { path := logPath ++ "/last-domain-event", parameters := [aggregateParameter a] }
  | snapshot a => { path := logPath ++ "/snapshot", parameters := [aggregateParameter a] }
  | storeSnapshot s =>
    { path := logPath ++ "/snapshot", value? := some (Wire.storeSnapshot.encode s) }
  | causedBy id =>
    { path := logPath ++ "/domain-events-by-causation-id"
      parameters := [("causation-id", toString id)] }
  | correlatedBy id =>
    { path := logPath ++ "/domain-events-by-correlation-id"
      parameters := [("correlation-id", toString id)] }
  | hasCausedBy id =>
    { path := logPath ++ "/has-domain-events-with-causation-id"
      parameters := [("causation-id", toString id)] }
  | aggregates => { path := logPath ++ "/aggregate-identifiers" }
  | performReplay windows =>
    { path := "/perform-replay/v2", value? := some (Wire.performReplay.encode windows) }

end Operation

/-! ## What comes back -/

/-- A response as it arrives. -/
structure Received where
  status : Nat
  body : Arrival

namespace Received

/-- The response of a server that sends a status and a body. A status has three digits. With some no
body goes, whatever is sent, and after those that only announce a response none comes. -/
def ofServer (status : Nat) (body : Arrival) : Except Failure Received :=
  if status = 101 ∨ status = 204 ∨ status = 304 then .ok ⟨status, ⟨[], .complete⟩⟩
  else if 200 ≤ status ∧ status ≤ 999 then .ok ⟨status, body⟩
  else .error .broken

/-- The response reports success. -/
def isSuccess (r : Received) : Bool := 200 ≤ r.status && r.status < 300

/-- All bytes of the body, unless it is cut off. -/
def bytes? (r : Received) : Except Failure (List UInt8) :=
  match r.body.ending with
  | .complete => .ok r.body.bytes
  | .cutOff => .error .broken

/-- The text of bytes, without the mark that some writers put in front of a text. -/
def textOf : List UInt8 → String
  | 0xEF :: 0xBB :: 0xBF :: rest => Text.ofUtf8Lossy rest
  | bytes => Text.ofUtf8Lossy bytes

/-- What a refusal says. A body that does not say it in the agreed form is the message itself. -/
def refusal (r : Received) : Failure :=
  match r.bytes? with
  | .error e => e
  | .ok bytes =>
    let text := textOf bytes
    match Wire.errorBody.read text with
    | .ok body => .refused r.status body
    | .error _ => .refused r.status ⟨.unknownError, text⟩

/-- Reads a response to a request, which a refusal has to be looked for in first. -/
def check {α : Type} (r : Received) (read : Except Failure α) : Except Failure α :=
  if r.isSuccess then read else .error r.refusal

/-- The value that is the whole body. -/
def value {α : Type} (c : Json.Codec α) (r : Received) : Except Failure α := do
  let bytes ← r.bytes?
  match (Text.ofUtf8? bytes).map c.read with
  | some (.ok a) => return a
  | _ => throw .broken

/-- The value that is the whole body, or nothing if the server finds none. -/
def optionalValue {α : Type} (c : Json.Codec α) (r : Received) : Except Failure (Option α) :=
  match r.check (r.value c) with
  | .ok a => .ok (some a)
  | .error e => if e.code? = some .notFound then .ok none else .error e

end Received

namespace Operation

/-- What a response means for an operation. -/
def result {α : Type} (r : Received) : Operation α → Except Failure α
  | awaitItem => r.check (Stream.first Wire.awaitedItem r.body)
  | renewLock _ | acknowledge _ | defer _ _ | storeEvents _ | storeSnapshot _ => r.check (.ok ())
  | replay _ | replayAggregate _ _ _ | causedBy _ | correlatedBy _ =>
    r.check (Stream.collect Wire.event r.body)
  | aggregates => r.check (Stream.collect Wire.aggregate r.body)
  | lastEvent _ => r.optionalValue Wire.event
  | snapshot _ => r.optionalValue Wire.snapshot
  | hasCausedBy _ => r.check (r.value Wire.hasCausedBy)
  | performReplay _ => r.check (r.value Wire.replayReport)

end Operation

end EventRelay.Client
