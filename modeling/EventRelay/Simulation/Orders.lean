import EventRelay.Log.Drain
import EventRelay.Simulation.Schedule

/-!
# Orders to a simulation

What a simulation can be told to do with its background parties: to start, question and cancel those
who wait for an item, to open, read and drop streams, and to start and stop recoveries.
-/

namespace EventRelay.Simulation

/-- A call on the stores themselves, past the armed failures. -/
def behind (c : Call) : Sim c.Answer := fun w =>
  let (a, stores) := w.stores.answer w.reading c
  (a, { w with stores })

/-- How many events a read can meet at most. -/
def readBound : Sim Nat := return (← get).stores.storedCount + 2

/-- Reads to the end. -/
def drain (reader : Reader) : Sim (List Event × Option LogError) := do
  perform (reader.drain (← readBound))

/-! ## Waiting for an item -/

/-- What a wait came to. -/
def outcome? (p : Party) : Sim (Option (Nat × Except QueueError (LeasedItem Event))) := do
  match ← task? p with
  | some (.wait outcome) => return outcome
  | _ => return none

/-- Frees the name of a party for another. Answers what it is called from now on, if there was
one. -/
def displace (p : Party) : Sim (Option Party) := do
  match ← task? p with
  | some _ =>
    let former := Party.former (← stamp)
    rename p former
    return some former
  | none => return none

/-- Starts a wait. One that was started under the same name goes on without it. -/
def startWait (p : Party) : Sim Unit := do
  let _ ← displace p
  setTask p (.wait none)
  modify (·.rouse p)

/-- Waits for an item for some milliseconds. -/
def awaitItem (ms : Nat) : Sim (Option (Except QueueError (LeasedItem Event))) := do
  startWait .caller
  let outcome ← passUntil ms (outcome? .caller)
  dismiss .caller
  return outcome.map (·.2)

/-- What a question about a wait is answered. -/
inductive WaitStatus where
  | unknown
  | pending
  | done (instant : Nat) (outcome : Except QueueError (LeasedItem Event))

/-- How far a wait has come. One that is done is forgotten with the answer. -/
def checkWait (name : String) : Sim WaitStatus := do
  match ← task? (.waiter name) with
  | some (.wait (some (instant, outcome))) =>
    dismiss (.waiter name)
    return .done instant outcome
  | some _ => return .pending
  | none => return .unknown

/-! ## Streams of one item -/

/-- The reader of a stream goes; its producer will find out when it runs. -/
def closeStream (p : Party) : Sim Unit := do
  match ← task? p with
  | some (.handoff h stamp) =>
    setTask p (.handoff h.close stamp)
    modify (·.rouse p)
  | _ => return ()

/-- Opens a stream. Of one that was opened under the same name the reader goes. -/
def openStream (p : Party) (heartbeatMs : Nat) : Sim Unit := do
  let former? ← displace p
  setTask p (.handoff (.start heartbeatMs (← get).now) (← stamp))
  modify (·.rouse p)
  if let some former := former? then
    closeStream former
    settle
    dismiss former

/-- What a reader of a stream gets. -/
inductive StreamReading where
  | unknown
  | frame (f : HandoffFrame)
  | ended
  | timeout

/-- Takes a frame off a stream, or finds it at its end. -/
def takeFrame? (p : Party) : Sim (Option StreamReading) := do
  match ← task? p with
  | some (.handoff h stamp) =>
    match h.channel.take? with
    | some (f, channel) =>
      setTask p (.handoff { h with channel } stamp)
      modify (·.rouse p)
      return some (.frame f)
    | none => return if h.isStopped then some .ended else none
  | _ => return some .unknown

/-- Waits for the next frame of a stream for some milliseconds. A stream at its end is forgotten. -/
def readStream (p : Party) (ms : Nat) : Sim StreamReading := do
  match ← passUntil ms (takeFrame? p) with
  | some .ended =>
    dismiss p
    return .ended
  | some reading => return reading
  | none => return .timeout

/-- The reader of a stream goes. Answers whether there was one. -/
def dropStream (p : Party) : Sim Bool := do
  match ← task? p with
  | some (.handoff ..) =>
    closeStream p
    settle
    dismiss p
    return true
  | _ => return false

/-! ## Recoveries -/

/-- The series of recoveries that runs. -/
def runningRecovery? : Sim (Option Party) := do
  return ((← get).tasks.find? fun (_, t) => t matches .recovery ..).map (·.1)

/-- Ends a series of recoveries. One without time between them never began. -/
def endRecovery (p : Party) : Sim Unit := do
  match ← task? p with
  | some (.recovery t ..) =>
    dismiss p
    if t.hasRhythm then tell .recoveryStopped
  | _ => return ()

/-- Starts recoveries at intervals, the first at once, in place of those that run. -/
def startRecovery (intervalMs : Nat) : Sim Unit := do
  let old ← runningRecovery?
  let w ← get
  let p := Party.recovery w.recoveries
  set { w with recoveries := w.recoveries + 1 }
  setTask p (.recovery ⟨intervalMs, w.now⟩ false (← stamp))
  modify (·.rouse p)
  settle
  if let some old := old then endRecovery old

/-- Stops the recoveries. Answers whether any ran. -/
def stopRecovery : Sim Bool := do
  match ← runningRecovery? with
  | some p =>
    endRecovery p
    return true
  | none => return false

end EventRelay.Simulation
