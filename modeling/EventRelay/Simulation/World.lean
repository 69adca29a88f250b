import EventRelay.Flow.Registry
import EventRelay.Simulation.Fault
import EventRelay.Stores
import EventRelay.Stream.Handoff

/-!
# The world of a simulation

A simulated broker runs on a virtual clock that moves only when it is told to. Parties run in the
background: those who wait for an item, streams of one item, and recoveries at intervals. A party
that waits is parked until it is woken or until its poll is due; one that has something to do stands
in the list of those that are ready, and they run one after the other.
-/

namespace EventRelay.Simulation

/-- Those who run. -/
inductive Party where
  /-- Whoever gives the orders, when it waits itself. -/
  | caller
  /-- Someone who waits for an item. -/
  | waiter (name : String)
  /-- A stream of one item. -/
  | stream (name : String)
  /-- The stream of one item that answers a request. -/
  | response
  /-- A waiter or a stream whose name another one has taken. -/
  | former (number : Nat)
  /-- Recoveries at intervals. -/
  | recovery (number : Nat)
  deriving DecidableEq, Repr

/-- A party that waits to be woken, until its poll is due. Timers that are due at one instant go off
in the order they were set. -/
structure Parked where
  party : Party
  due : Nat
  stamp : Nat

/-- What runs in the background. -/
inductive Task where
  /-- A wait for an item, and what it came to at which instant. -/
  | wait (outcome : Option (Nat × Except QueueError (LeasedItem Event)))
  /-- The producer of a stream of one item, and when its ticker was set. -/
  | handoff (producer : Handoff.Producer) (stamp : Nat)
  /-- Recoveries at intervals, and when the ticker was set. -/
  | recovery (ticker : Ticker) (started : Bool) (stamp : Nat)

/-- The settings of a simulated broker, in milliseconds. -/
structure Settings where
  expirationMs : Nat
  pollMs : Nat
  heartbeatMs : Nat
  registry : Registry

/-- A simulated broker with all that runs on it. -/
structure World where
  settings : Settings
  /-- Milliseconds from the start of 1970. -/
  now : Nat := 1700000000000
  stores : Stores := .memory {}
  faults : List Fault := []
  /-- How many tokens were drawn. -/
  drawn : Nat := 0
  /-- The latest notice first. -/
  notices : List Notice := []
  tasks : List (Party × Task) := []
  parked : List Parked := []
  ready : List Party := []
  /-- How many timers were set. -/
  stamps : Nat := 0
  /-- How many series of recoveries were started. -/
  recoveries : Nat := 0

/-- What happens in a simulation. -/
abbrev Sim (α : Type) := StateM World α

namespace World

/-- The readings that a call may need. -/
def reading (w : World) : Call.Reading :=
  ⟨.ofMillis w.now, Uuid.ofSeed 4 w.drawn, .ofMillis w.settings.expirationMs⟩

/-- Puts a party at the end of those that are ready, unless it is there. -/
def rouse (w : World) (p : Party) : World :=
  if w.ready.contains p then w else { w with ready := w.ready ++ [p] }

/-- Wakes all that are parked, in the order in which they were. -/
def wakeAll (w : World) : World :=
  w.parked.foldl (fun w p => w.rouse p.party) { w with parked := [] }

/-- Draws a token where a call grants a lease. -/
def draw (w : World) : Call → World
  | .queue .lease => { w with drawn := w.drawn + 1 }
  | _ => w

/-- What a read that met an event is answered, if a failure strikes there. -/
def strikeRead (w : World) : (c : Call) → c.Answer → c.Answer × World
  | .log (.next _), (some (.ok e), reader) =>
    match Fault.strike .streamItem { revision? := some e.revision } w.faults with
    | (true, faults) => ((some (.error (.storage reason)), reader), { w with faults })
    | (false, faults) => ((some (.ok e), reader), { w with faults })
  | _, a => (a, w)

/-- The simulated broker answers a call. -/
def handle (c : Call) (w : World) : c.Answer × World :=
  match c with
  | .wake => ((), w.wakeAll)
  | .note n => ((), { w with notices := n :: w.notices })
  | c =>
    match strike w.faults c with
    | (some a, faults) => (a, { w with faults })
    | (none, faults) =>
      let (a, stores) := w.stores.answer w.reading c
      ({ w with faults, stores }.draw c).strikeRead c a

end World

/-- Does work to its end without a break. -/
def perform {α : Type} (work : Work α) : Sim α := fun w => work.run World.handle w

/-- Tells something. -/
def tell (n : Notice) : Sim Unit := perform (Work.note n)

end EventRelay.Simulation
