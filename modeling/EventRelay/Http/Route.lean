import EventRelay.Http.Message

/-!
# Routes

Three protocols under three paths: handing out items, the event log, and replays. A path is compared
as it is written, case and all, and a slash at its end makes it another path. Where `GET` is
answered, so is `HEAD`.
-/

namespace EventRelay.Http

/-- What a request can be for. -/
inductive Endpoint where
  | awaitItem
  | renewLock
  | acknowledge
  | defer
  | write
  | replay
  /-- The stream of one aggregate, whose id stands in the path with its escapes. -/
  | replayAggregate (id : String)
  | lastEvent
  | causedBy
  | correlatedBy
  | hasCausedBy
  | readSnapshot
  | storeSnapshot
  | aggregates
  | performReplay
  deriving DecidableEq, Repr

/-- What a path has to offer to the methods `GET` and `POST`. -/
structure Resource where
  get? : Option Endpoint := none
  post? : Option Endpoint := none

namespace Resource

/-- The methods that are answered. -/
def methods (r : Resource) : List String :=
  (if r.get?.isSome then ["GET", "HEAD"] else []) ++ (if r.post?.isSome then ["POST"] else [])

/-- What a method is for. -/
def endpoint? (r : Resource) (method : String) : Option Endpoint :=
  match method with
  | "GET" | "HEAD" => r.get?
  | "POST" => r.post?
  | _ => none

/-- The start of the paths under which the stream of one aggregate is read. -/
def aggregateStem : String := "/domain-event-store/v2/replay/"

/-- The rest of a path after the start of it. -/
def after? (stem path : List Char) : Option (List Char) :=
  if stem.isPrefixOf path then some (path.drop stem.length) else none

/-- The path of the stream of one aggregate: something without a slash after the stem. -/
def ofAggregatePath? (path : String) : Option Resource :=
  match after? aggregateStem.toList path.toList with
  | some (c :: rest) =>
    if (c :: rest).contains '/' then none
    else some { get? := some (.replayAggregate (String.ofList (c :: rest))) }
  | _ => none

/-- What a path has to offer. -/
def ofPath? (path : String) : Option Resource :=
  match path with
  | "/await-domain-event/v2" => some { get? := some .awaitItem }
  | "/await-domain-event/v2/renew-lock" => some { post? := some .renewLock }
  | "/await-domain-event/v2/acknowledge" => some { post? := some .acknowledge }
  | "/await-domain-event/v2/defer" => some { post? := some .defer }
  | "/domain-event-store/v2/write" => some { post? := some .write }
  | "/domain-event-store/v2/replay" => some { get? := some .replay }
  | "/domain-event-store/v2/last-domain-event" => some { get? := some .lastEvent }
  | "/domain-event-store/v2/domain-events-by-causation-id" => some { get? := some .causedBy }
  | "/domain-event-store/v2/domain-events-by-correlation-id" =>
    some { get? := some .correlatedBy }
  | "/domain-event-store/v2/has-domain-events-with-causation-id" =>
    some { get? := some .hasCausedBy }
  | "/domain-event-store/v2/snapshot" =>
    some { get? := some .readSnapshot, post? := some .storeSnapshot }
  | "/domain-event-store/v2/aggregate-identifiers" => some { get? := some .aggregates }
  | "/perform-replay/v2" => some { post? := some .performReplay }
  | path => ofAggregatePath? path

end Resource

end EventRelay.Http
