import EventRelay.Dispatch
import EventRelay.Flow.Registry

/-!
# Recovery

Recovery finds what was stored and never put into a lane. It goes through the aggregates, and for
each through the flows: it reads the events above the flow's watermark, puts those into the lane
that the flow wants and has not settled, and moves the watermark up over the leading events of
which nothing is left to do. It stops at the first failure; what it has done by then stays, and the
next run goes on from there.
-/

namespace EventRelay

/-- Why a recovery stopped. -/
inductive RecoveryError where
  | log (e : LogError)
  | queue (e : QueueError)
  | progress (e : ProgressError)
  deriving DecidableEq, Repr

namespace RecoveryError

/-- The text of the error. -/
def message : RecoveryError → String
  | log e => "domain event store error: " ++ e.message
  | queue e => "queue error: " ++ e.message
  | progress e => "progress store error: " ++ e.message

end RecoveryError

namespace Recovery

open Work (log progress note)

/-- A part of a recovery: it goes on with a report, or stops. -/
abbrev Part (α : Type) := ExceptT RecoveryError (Procedure Call Call.Answer) α

/-- A call on the log. -/
def onLog {α : Type} (w : Work (Except LogError α)) : Part α := ExceptT.mk do
  match ← w with
  | .ok a => return .ok a
  | .error e => return .error (.log e)

/-- A call on the queue. -/
def onQueue {α : Type} (w : Work (Except QueueError α)) : Part α := ExceptT.mk do
  match ← w with
  | .ok a => return .ok a
  | .error e => return .error (.queue e)

/-- A call on the progress table. -/
def onProgress {α : Type} (w : Work (Except ProgressError α)) : Part α := ExceptT.mk do
  match ← w with
  | .ok a => return .ok a
  | .error e => return .error (.progress e)

/-- Work that cannot fail. -/
def always {α : Type} (w : Work α) : Part α := ExceptT.mk do return .ok (← w)

/-- Takes off the leases that have run out and counts them. -/
def sweepLeases : Part Nat := do
  let expired ← onQueue Dispatch.sweep
  for lease in expired do
    always (note (.leaseExpired lease))
  return expired.length

/-- How far the events of an aggregate are looked through for a flow. `settledUpTo` is where the
watermark may go, and `contiguous` says that nothing below was left to do. -/
structure Walk where
  settledUpTo : Nat
  contiguous : Bool := true
  report : RecoveryReport

/-- Looks at one event that is above the watermark of a flow. -/
def visit (registry : Registry) (flow : String) (p : Progress) (w : Walk) (event : Event) :
    Part Walk := do
  if !registry.routesTo event flow || p.isSettled event.revision then
    if w.contiguous then return { w with settledUpTo := event.revision }
    else return w
  let w := { w with contiguous := false }
  match ← always (Dispatch.enqueue flow event event.timestamp) with
  | .ok () =>
    always (note (.reEnqueued ⟨flow, event.aggregateId, event.revision⟩))
    return { w with report.reEnqueued := w.report.reEnqueued + 1 }
  | .error (.itemAlreadyQueued ..) =>
    return { w with report.alreadyQueued := w.report.alreadyQueued + 1 }
  | .error e => throw (.queue e)

/-- Looks at the events of a read, of which there are at most `count`. -/
def walk (registry : Registry) (flow : String) (p : Progress) :
    (count : Nat) → Reader → Walk → Part Walk
  | 0, _, w => return w
  | count + 1, reader, w => do
    match ← always (log (.next reader)) with
    | (none, _) => return w
    | (some (.error e), _) => throw (.log e)
    | (some (.ok event), reader) =>
      walk registry flow p count reader (← visit registry flow p w event)

/-- Looks after one flow on an aggregate whose latest revision is `latest`. -/
def visitFlow (registry : Registry) (aggregate : Uuid) (latest : Nat) (report : RecoveryReport)
    (flow : String) : Part RecoveryReport := do
  let p ← onProgress (progress (.get flow aggregate))
  if latest ≤ p.watermark then return report
  let range ← onLog (pure (RevisionRange.between (some (p.watermark + 1)) (some latest)))
  let reader ← onLog (log (.read (.stream aggregate range)))
  let w ← walk registry flow p (latest - p.watermark + 1) reader
    { settledUpTo := p.watermark, report }
  if p.watermark < w.settledUpTo then
    onProgress (progress (.advance flow aggregate w.settledUpTo))
  return w.report

/-- Looks after flows on an aggregate, one after the other. -/
def visitFlows (registry : Registry) (aggregate : Uuid) (latest : Nat) :
    List String → RecoveryReport → Part RecoveryReport
  | [], report => return report
  | flow :: flows, report => do
    visitFlows registry aggregate latest flows
      (← visitFlow registry aggregate latest report flow)

/-- Looks after aggregates, one after the other. One without events is passed over. -/
def visitAggregates (registry : Registry) :
    List (Except LogError Aggregate) → RecoveryReport → Part RecoveryReport
  | [], report => return report
  | delivered :: rest, report => do
    let aggregate ← onLog (log (.nextAggregate delivered))
    let report := { report with aggregatesChecked := report.aggregatesChecked + 1 }
    match ← always (log (.last aggregate)) with
    | .ok event =>
      visitAggregates registry rest
        (← visitFlows registry aggregate.id event.revision registry.names report)
    | .error (.notFound _) => visitAggregates registry rest report
    | .error e => throw (.log e)

/-- A recovery up to its end or its first failure. -/
def parts (registry : Registry) : Part RecoveryReport := do
  let report : RecoveryReport := { expiredLeases := ← sweepLeases }
  if registry.isEmpty then return report
  visitAggregates registry (← onLog (log .aggregates)) report

/-- One recovery. -/
def run (registry : Registry) : Work (Except RecoveryError RecoveryReport) := (parts registry).run

/-- One recovery of those made at intervals: its outcome is told and not answered. -/
def tick (registry : Registry) : Work Unit := do
  match ← run registry with
  | .ok report =>
    if 0 < report.reEnqueued ∨ 0 < report.expiredLeases then note (.recoveryTick report)
    else note (.recoveryIdle report.aggregatesChecked)
  | .error e => note (.recoveryFailed e.message)

end Recovery

end EventRelay
