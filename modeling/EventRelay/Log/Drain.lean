import EventRelay.Call

/-!
# Reading to the end

A reader is asked for one event after the other until it ends or fails.
-/

namespace EventRelay.Reader

/-- All that is left of a read, and the failure that broke it off, if one did. No more than `count`
events are asked for. -/
def drain : (count : Nat) → Reader → Work (List Event × Option LogError)
  | 0, _ => return ([], none)
  | count + 1, reader => do
    match ← Work.log (.next reader) with
    | (none, _) => return ([], none)
    | (some (.error e), _) => return ([], some e)
    | (some (.ok event), reader) =>
      let (events, broken) ← drain count reader
      return (event :: events, broken)

/-- All that is left of the delivery of aggregates, and the failure that broke it off. -/
def drainAggregates :
    List (Except LogError Aggregate) → Work (List Aggregate × Option LogError)
  | [] => return ([], none)
  | a :: rest => do
    match ← Work.log (.nextAggregate a) with
    | .error e => return ([], some e)
    | .ok a =>
      let (aggregates, broken) ← drainAggregates rest
      return (a :: aggregates, broken)

end EventRelay.Reader
