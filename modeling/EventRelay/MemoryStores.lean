import EventRelay.Log.Storage
import EventRelay.Memory

/-!
# The stores in memory

What the broker keeps in memory, each part as it is held. The queue and the progress table are held
as `Memory` has them, the log as a `Storage`.
-/

namespace EventRelay

/-- The log answers a call from what is held. -/
def Storage.answer (s : Storage) : (c : LogCall) → c.Answer × Storage
  | .append batch =>
    match s.append batch with
    | .ok s => (.ok (), s)
    | .error e => (.error e, s)
  | .read selection => (.ok (.memory (EventLog.openCursor selection)), s)
  | .next reader =>
    match reader with
    | .memory cursor =>
      match s.next? cursor with
      | some (e, cursor) => ((some (.ok e), .memory cursor), s)
      | none => ((none, .ended), s)
    | other => ((none, other), s)
  | .last aggregate => (s.last aggregate, s)
  | .hasCausedBy id => (.ok (s.hasCausedBy id), s)
  | .storeSnapshot x =>
    match s.storeSnapshot x with
    | .ok s => (.ok (), s)
    | .error e => (.error e, s)
  | .snapshot aggregate => (.ok (s.snapshot? aggregate), s)
  | .aggregates => (.ok (s.aggregates.map .ok), s)
  | .nextAggregate delivered => (delivered, s)

/-- The event log, the queue and the progress table, as they are held in memory. -/
structure MemoryStores where
  log : Storage := {}
  queue : Queue Event := {}
  progress : ProgressTable := {}

namespace MemoryStores

instance : Inhabited MemoryStores := ⟨{}⟩

/-- The part that a call is for answers it. -/
def answer (s : MemoryStores) (r : Call.Reading) : (c : Call) → c.Answer × MemoryStores
  | .log c =>
    let (a, log) := s.log.answer c
    (a, { s with log })
  | .queue c =>
    let (a, queue) := Memory.answerQueue s.queue r c
    (a, { s with queue })
  | .progress c =>
    let (a, progress) := Memory.answerProgress s.progress c
    (a, { s with progress })
  | .wake => ((), s)
  | .note _ => ((), s)

end MemoryStores

end EventRelay
