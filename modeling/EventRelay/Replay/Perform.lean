import EventRelay.Dispatch
import EventRelay.Flow.Registry

/-!
# Replaying stored events

A replay puts the events of its windows into the lanes of the flows that want them, whether they
were settled or not. All windows are looked at before anything is read, so a request with a wrong
window does nothing.
-/

namespace EventRelay

/-- Why a replay stopped. -/
inductive ReplayError where
  /-- A window is not accepted. -/
  | invalid (reason : String)
  | log (e : LogError)
  | queue (e : QueueError)
  deriving DecidableEq, Repr

namespace ReplayError

/-- The text of the error. -/
def message : ReplayError → String
  | invalid reason => "invalid replay request: " ++ reason
  | log e => "domain event store error: " ++ e.message
  | queue e => "queue error: " ++ e.message

end ReplayError

namespace Replay

open Work (log note)

/-- A part of a replay: it goes on with a report, or stops. -/
abbrev Part (α : Type) := ExceptT ReplayError (Procedure Call Call.Answer) α

/-- Work that cannot fail. -/
def always {α : Type} (w : Work α) : Part α := ExceptT.mk do return .ok (← w)

/-- The windows with their ranges, or what is wrong with the first wrong one. -/
def ranges : List ReplayWindow → Except ReplayError (List (ReplayWindow × RevisionRange))
  | [] => .ok []
  | w :: rest =>
    match w.range with
    | .error reason => .error (.invalid reason)
    | .ok r => (ranges rest).map ((w, r) :: ·)

/-- Puts an event into the lanes of flows, one after the other. -/
def enqueueForAll (event : Event) : List String → ReplayReport → Part ReplayReport
  | [], report => return report
  | flow :: flows, report => do
    match ← always (Dispatch.enqueue flow event event.timestamp) with
    | .ok () => enqueueForAll event flows { report with enqueued := report.enqueued + 1 }
    | .error (.itemAlreadyQueued ..) =>
      enqueueForAll event flows { report with alreadyQueued := report.alreadyQueued + 1 }
    | .error e => throw (.queue e)

/-- Puts an event of the window's context into the lanes of the flows that want it. -/
def visit (registry : Registry) (w : ReplayWindow) (report : ReplayReport) (event : Event) :
    Part ReplayReport := do
  if event.context = w.context then enqueueForAll event (registry.owners event) report
  else
    always (note (.skipped w.aggregate.id event.revision))
    return report

/-- Goes through the events of a read, of which there are at most `count`. -/
def walk (registry : Registry) (w : ReplayWindow) :
    (count : Nat) → Reader → ReplayReport → Part ReplayReport
  | 0, _, report => return report
  | count + 1, reader, report => do
    match ← always (log (.next reader)) with
    | (none, _) => return report
    | (some (.error e), _) => throw (.log e)
    | (some (.ok event), reader) => walk registry w count reader (← visit registry w report event)

/-- Goes through windows, one after the other. -/
def visitWindows (registry : Registry) :
    List (ReplayWindow × RevisionRange) → ReplayReport → Part ReplayReport
  | [], report => return report
  | (w, range) :: rest, report => do
    match ← always (log (.read (.stream w.aggregate.id range))) with
    | .error e => throw (.log e)
    | .ok reader =>
      visitWindows registry rest (← walk registry w (w.last - w.first + 2) reader report)

/-- A replay up to its end or its first failure. -/
def parts (registry : Registry) (windows : List ReplayWindow) : Part ReplayReport := do
  let ranges ← ExceptT.mk (pure (ranges windows))
  let report ← visitWindows registry ranges {}
  always (note (.replayed report))
  return report

/-- One replay. A failure is told as well as answered. -/
def perform (registry : Registry) (windows : List ReplayWindow) :
    Work (Except ReplayError ReplayReport) := do
  match ← (parts registry windows).run with
  | .ok report => return .ok report
  | .error e =>
    note (.replayFailed e.message)
    return .error e

end Replay

end EventRelay
