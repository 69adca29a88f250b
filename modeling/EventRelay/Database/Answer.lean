import EventRelay.Database.LogStore
import EventRelay.Database.ProgressStore
import EventRelay.Database.QueueStore

/-!
# Calls answered from tables
-/

namespace EventRelay.Database

/-- The log answers a call. -/
def answerLog : (c : LogCall) → StateM Session c.Answer
  | .append batch => (LogStore.append batch).run
  | .read selection => return .ok (.table (LogStore.openCursor selection))
  | .next (.table cursor) => LogStore.next cursor
  | .next reader => return (none, reader)
  | .last aggregate => (LogStore.last aggregate).run
  | .hasCausedBy id => (LogStore.hasCausedBy id).run
  | .storeSnapshot s => (LogStore.storeSnapshot s).run
  | .snapshot aggregate => (LogStore.snapshot aggregate).run
  | .aggregates => LogStore.aggregates.run
  | .nextAggregate delivered => return delivered

/-- A queue answers a call. Its items are kept as their JSON. -/
def answerQueue {τ : Type} [Keyed τ] (items : Json.Codec τ) (r : Call.Reading) :
    (c : QueueCall τ) → StateM Session c.Answer
  | .enqueue flow item priority => (QueueStore.enqueue items flow item priority).run
  | .lease => (QueueStore.lease items r.expiration r.fresh).run
  | .renew lock => (QueueStore.renew lock r.expiration).run
  | .release lock => (QueueStore.release lock).run
  | .acknowledge lock => (QueueStore.acknowledge items lock).run
  | .defer lock priority => (QueueStore.defer lock priority).run
  | .sweep => QueueStore.sweep.run
  | .isQueued flow key => (QueueStore.isQueued flow key).run

/-- The progress table answers a call. -/
def answerProgress : (c : ProgressCall) → StateM Session c.Answer
  | .get flow aggregate => (ProgressStore.get flow aggregate).run
  | .record flow aggregate revision => (ProgressStore.record flow aggregate revision).run
  | .advance flow aggregate revision => (ProgressStore.advance flow aggregate revision).run

/-- A call is answered at a reading of the clock. -/
def answer (s : Session) (r : Call.Reading) (c : Call) : c.Answer × Session :=
  let script : StateM Session c.Answer :=
    match c with
    | .log c => answerLog c
    | .queue c => answerQueue Wire.event r c
    | .progress c => answerProgress c
    | .wake => return ()
    | .note _ => return ()
  script.run { s with now := r.now }

end EventRelay.Database
