import EventRelay.Event
import EventRelay.Log.Range

/-!
# Replay requests

A request to put stored events into the lanes again names windows: an aggregate, the context that
its events have to be of, and the first and last revision.
-/

namespace EventRelay

/-- Stored events of an aggregate in a context, from one revision to another. -/
structure ReplayWindow where
  context : Context
  aggregate : Aggregate
  first : Nat
  last : Nat
  deriving DecidableEq, Inhabited

/-- How many events a replay put into lanes, and how many were there. -/
structure ReplayReport where
  enqueued : Nat := 0
  alreadyQueued : Nat := 0
  deriving DecidableEq, Inhabited

namespace ReplayWindow

/-- The revisions of the window, or what is wrong with it. -/
def range (w : ReplayWindow) : Except String RevisionRange :=
  match w.aggregate.validate with
  | .error e => .error e.message
  | .ok () =>
    match RevisionRange.between (some w.first) (some w.last) with
    | .error e => .error ("aggregate " ++ toString w.aggregate.id ++ ": " ++ e.message)
    | .ok r => .ok r

end ReplayWindow

end EventRelay
