import EventRelay.Event
import EventRelay.Log.Error

/-!
# Batches

A batch is a list of events that are stored together. It is sound if it continues the stream of each
aggregate in it, event by event and without a gap, from the revision that the log has reached.
-/

namespace EventRelay.Batch

/-- The revision that a batch so far has taken of an aggregate, on top of a log. -/
def reached (latest : Uuid → Nat) (before : List Event) (aggregate : Uuid) : Nat :=
  latest aggregate + (before.filter fun e => e.aggregateId == aggregate).length

/-- The first fault in the rest of a batch, of which `before` was found right. -/
def checkFrom (latest : Uuid → Nat) (before : List Event) : List Event → Except LogError Unit
  | [] => .ok ()
  | e :: rest =>
    match e.validate with
    | .error err => .error (.ofValueError err)
    | .ok () =>
      let next := reached latest before e.aggregateId + 1
      if e.revision < next then .error (.taken e.aggregateId e.revision)
      else if next < e.revision then .error (.gap e.aggregateId next e.revision)
      else checkFrom latest (before ++ [e]) rest

/-- The first fault of a batch on top of a log of which `latest` tells the latest revisions. -/
def check (latest : Uuid → Nat) (batch : List Event) : Except LogError Unit :=
  if batch.isEmpty then .error .noEvents else checkFrom latest [] batch

end EventRelay.Batch
