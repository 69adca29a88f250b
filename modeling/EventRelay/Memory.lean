import EventRelay.Call

/-!
# The parts of the broker in memory

Each part is a value, and each call on it is one total function of the value, the clock and a fresh
token. Nothing fails here but what is asked for wrongly. The log is the list of its events; how it
is held, with positions and maps to find them, is a matter of `Storage`.
-/

namespace EventRelay

/-- The event log, the queue and the progress table. -/
structure Memory where
  log : EventLog := {}
  queue : Queue Event := {}
  progress : ProgressTable := {}

namespace Memory

instance : Inhabited Memory := ⟨{}⟩

/-- The log answers a call. -/
def answerLog (l : EventLog) : (c : LogCall) → c.Answer × EventLog
  | .append batch =>
    match l.append batch with
    | .ok l => (.ok (), l)
    | .error e => (.error e, l)
  | .read selection => (.ok (.memory (EventLog.openCursor selection)), l)
  | .next reader =>
    match reader with
    | .memory cursor =>
      match l.next? cursor with
      | some (e, cursor) => ((some (.ok e), .memory cursor), l)
      | none => ((none, .ended), l)
    | other => ((none, other), l)
  | .last aggregate => (l.last aggregate, l)
  | .hasCausedBy id => (.ok (l.hasCausedBy id), l)
  | .storeSnapshot s =>
    match l.storeSnapshot s with
    | .ok l => (.ok (), l)
    | .error e => (.error e, l)
  | .snapshot aggregate => (.ok (l.snapshot? aggregate), l)
  | .aggregates => (.ok (l.aggregates.map .ok), l)
  | .nextAggregate delivered => (delivered, l)

/-- A queue answers a call. -/
def answerQueue {τ : Type} [Keyed τ] (q : Queue τ) (r : Call.Reading) :
    (c : QueueCall τ) → c.Answer × Queue τ
  | .enqueue flow item priority => q.enqueue flow item priority
  | .lease =>
    let (leased, q) := q.lease r.now r.expiration r.fresh
    (.ok leased, q)
  | .renew lock => q.renew lock r.now r.expiration
  | .release lock => q.release lock r.now
  | .acknowledge lock => q.acknowledge lock r.now
  | .defer lock priority => q.defer lock priority r.now
  | .sweep =>
    let (expired, q) := q.sweep r.now
    (.ok expired, q)
  | .isQueued flow key => (.ok (q.isQueued flow key), q)

/-- The progress table answers a call. -/
def answerProgress (t : ProgressTable) : (c : ProgressCall) → c.Answer × ProgressTable
  | .get flow aggregate => (.ok (t.get flow aggregate), t)
  | .record flow aggregate revision => (.ok (), t.record flow aggregate revision)
  | .advance flow aggregate revision => (.ok (), t.advance flow aggregate revision)

/-- The part that a call is for answers it. -/
def answer (m : Memory) (r : Call.Reading) : (c : Call) → c.Answer × Memory
  | .log c =>
    let (a, log) := answerLog m.log c
    (a, { m with log })
  | .queue c =>
    let (a, queue) := answerQueue m.queue r c
    (a, { m with queue })
  | .progress c =>
    let (a, progress) := answerProgress m.progress c
    (a, { m with progress })
  | .wake => ((), m)
  | .note _ => ((), m)

end Memory

end EventRelay
