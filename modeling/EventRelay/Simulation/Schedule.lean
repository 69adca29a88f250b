import EventRelay.Dispatch
import EventRelay.Recovery
import EventRelay.Simulation.World

/-!
# Running the parties of a simulation

A party runs until it has to wait. Time passes from one timer to the next; at each, the parties run
whose timers are due, and after them those they woke, until none is ready.
-/

namespace EventRelay.Simulation

/-- A new stamp for a timer. -/
def stamp : Sim Nat := modifyGet fun w => (w.stamps, { w with stamps := w.stamps + 1 })

/-- The task of a party. -/
def task? (p : Party) : Sim (Option Task) := return (← get).tasks.lookup p

/-- Puts a task in place of the one of its party. -/
def setTask (p : Party) (t : Task) : Sim Unit :=
  modify fun w => { w with tasks := (w.tasks.filter fun (q, _) => q != p) ++ [(p, t)] }

/-- Takes a party out of everything. -/
def dismiss (p : Party) : Sim Unit :=
  modify fun w =>
    { w with
      tasks := w.tasks.filter fun (q, _) => q != p
      parked := w.parked.filter fun q => q.party != p
      ready := w.ready.filter fun q => q != p }

/-- Gives a party another name wherever it stands, so that its own is free. -/
def rename (old new : Party) : Sim Unit :=
  let named (p : Party) : Party := if p = old then new else p
  modify fun w =>
    { w with
      tasks := w.tasks.map fun (p, t) => (named p, t)
      parked := w.parked.map fun q => { q with party := named q.party }
      ready := w.ready.map named }

/-- A party that waits for an item looks whether one has come. It attempts a lease unless it is
parked and its poll is not due, and it is parked anew before the attempt can fail. -/
def pollItem (p : Party) : Sim (Option (Except QueueError (LeasedItem Event))) := do
  let w ← get
  if w.parked.any fun q => q.party == p && w.now < q.due then return none
  set { w with parked := w.parked.filter fun q => q.party != p }
  match ← perform Dispatch.attempt with
  | .ok (some leased) => return some (.ok leased)
  | .error e => return some (.error e)
  | .ok none =>
    let stamp ← stamp
    modify fun w =>
      { w with parked := w.parked ++ [⟨p, w.now + w.settings.pollMs, stamp⟩] }
    return none

/-- Runs the producer of a stream until it has to wait, at most `fuel` moves. -/
def runHandoff (p : Party) : (fuel : Nat) → Handoff.Producer → Sim Handoff.Producer
  | 0, h => return h
  | fuel + 1, h => do
    match Handoff.next (← get).now h with
    | .rest => return h
    | .go h => runHandoff p fuel h
    | .ask next =>
      match next (← pollItem p) with
      | some h => runHandoff p fuel h
      | none => return h
    | .leave h =>
      tell .consumerLeft
      return h
    | .abandon leased h =>
      perform (Dispatch.releaseAbandoned leased)
      return h

/-- Takes the ticks of a recovery that are due, at most `fuel` of them. -/
def runRecoveries : (fuel : Nat) → Ticker → Sim Ticker
  | 0, t => return t
  | fuel + 1, t => do
    let w ← get
    if t.isDue w.now then
      perform (Recovery.tick w.settings.registry)
      runRecoveries fuel (t.take w.now)
    else return t

/-- How many moves a party makes at most in one run. -/
def movesPerRun : Nat := 64

/-- Runs a party until it has to wait. -/
def runParty (p : Party) : Sim Unit := do
  match ← task? p with
  | none => return ()
  | some (.wait (some _)) => return ()
  | some (.wait none) =>
    match ← pollItem p with
    | some outcome => setTask p (.wait (some ((← get).now, outcome)))
    | none => return ()
  | some (.handoff h old) =>
    let after ← runHandoff p movesPerRun h
    if after.isStopped then modify fun w =>
      { w with parked := w.parked.filter fun q => q.party != p }
    let new ← if after.ticker.due = h.ticker.due then pure old else stamp
    setTask p (.handoff after new)
  | some (.recovery t started old) =>
    if !t.hasRhythm then return ()
    if !started then tell (.recoveryStarted t.interval)
    let after ← runRecoveries movesPerRun t
    let new ← if after.due = t.due then pure old else stamp
    setTask p (.recovery after true new)

/-- Runs parties until none is ready, at most `fuel` of them. -/
def settleWithin : (fuel : Nat) → Sim Unit
  | 0 => return ()
  | fuel + 1 => do
    let w ← get
    match w.ready with
    | [] => return ()
    | p :: rest =>
      set { w with ready := rest }
      runParty p
      settleWithin fuel

/-- How many parties run at most between two orders. -/
def runsPerOrder : Nat := 100000

/-- Runs parties until none is ready. -/
def settle : Sim Unit := settleWithin runsPerOrder

/-- A timer: when it goes off, when it was set, and for whom. -/
structure Timer where
  due : Nat
  stamp : Nat
  party : Party

/-- The timers of a world. -/
def timers (w : World) : List Timer :=
  w.parked.map (fun p => ⟨p.due, p.stamp, p.party⟩) ++
    w.tasks.filterMap fun (p, t) =>
      match t with
      | .wait _ => none
      | .handoff h stamp => if h.isStopped then none else some ⟨h.ticker.due, stamp, p⟩
      | .recovery t _ stamp => if t.hasRhythm then some ⟨t.due, stamp, p⟩ else none

/-- The first instant after now at which a timer goes off. -/
def nextInstant? (w : World) : Option Nat :=
  (((timers w).map (·.due)).filter (w.now < ·)).min?

/-- Moves the clock on, and runs the parties whose timers go off there. -/
def moveTo (instant : Nat) : Sim Unit := do
  modify fun w => { w with now := instant }
  let due := ((timers (← get)).filter (·.due == instant)).mergeSort fun a b => a.stamp ≤ b.stamp
  modify fun w => due.foldl (fun w t => w.rouse t.party) w
  settle

/-- Lets time pass up to an instant, with at most `fuel` stops. A check is made after each stop, and
answers early if it has something. -/
def passWithin {α : Type} (deadline : Nat) (check : Sim (Option α)) : (fuel : Nat) → Sim (Option α)
  | 0 => return none
  | fuel + 1 => do
    match ← check with
    | some a => return some a
    | none =>
      match nextInstant? (← get) with
      | some t =>
        if t ≤ deadline then
          moveTo t
          passWithin deadline check fuel
        else
          modify fun w => { w with now := deadline }
          return none
      | none =>
        modify fun w => { w with now := deadline }
        return none

/-- Lets up to `ms` milliseconds pass, until a check has something. -/
def passUntil {α : Type} (ms : Nat) (check : Sim (Option α)) : Sim (Option α) := do
  settle
  passWithin ((← get).now + ms) check (ms + 2)

/-- Lets milliseconds pass. -/
def pass (ms : Nat) : Sim Unit := do
  let _ ← passUntil (α := Unit) ms (pure none)

end EventRelay.Simulation
