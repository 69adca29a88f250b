import EventRelay.Database.Answer
import EventRelay.MemoryStores

/-!
# The stores of a broker

A broker keeps the event log, the queue and the progress table in memory, where they end with it, or
in the tables of a database.
-/

namespace EventRelay

/-- Where a broker keeps what it knows. -/
inductive Stores where
  | memory (m : MemoryStores)
  | durable (s : Database.Session)

namespace Stores

instance : Inhabited Stores := ⟨.memory {}⟩

/-- The stores answer a call. -/
def answer (s : Stores) (r : Call.Reading) (c : Call) : c.Answer × Stores :=
  match s with
  | .memory m =>
    let (a, m) := m.answer r c
    (a, .memory m)
  | .durable s =>
    let (a, s) := Database.answer s r c
    (a, .durable s)

/-- The number of stored events. -/
def storedCount : Stores → Nat
  | memory m => m.log.length
  | durable s => s.tables.events.length

/-- The number of queued entries. -/
def queuedCount : Stores → Nat
  | memory m => m.queue.length
  | durable s => s.tables.items.length

end Stores

end EventRelay
