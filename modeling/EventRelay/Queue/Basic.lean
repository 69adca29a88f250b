import EventRelay.ByName
import EventRelay.Lease
import EventRelay.Queue.Error

/-!
# The queue

A queue has lanes. A lane is a list of entries with distinct keys, of which only the head is ever
handed out, to one worker at a time: handing it out puts a lease on the lane, and every operation
that ends or renews a lease has to present its token. A lease that has run out frees the lane
although it stays on it until it is swept or replaced.

An operation takes the reading of the clock, and `lease` a fresh token. It answers and leaves a
queue behind; where it refuses, nothing changes but the next sequence number.
-/

namespace EventRelay

/-- Items that carry a key, which is theirs alone within a lane. -/
class Keyed (τ : Type) where
  key : τ → String

instance : Keyed String := ⟨id⟩

/-- An item in a lane. The sequence number says when it was put at the end of the lane. -/
structure Entry (τ : Type) where
  item : τ
  key : String
  priority : Int
  sequence : Nat

/-- Entries, the head first, and the lease on the head. -/
structure Lane (τ : Type) where
  entries : List (Entry τ) := []
  lease : Option Lease := none

/-- The lanes by name, and the sequence number of the next entry. -/
structure Queue (τ : Type) where
  lanes : List (String × Lane τ) := []
  nextSequence : Nat := 0

/-- What `lease` hands out. -/
structure LeasedItem (τ : Type) where
  item : τ
  priority : Int
  lease : Lease

namespace Lane

variable {τ : Type}

/-- No lease is on the lane that has not run out. -/
def isLeasableAt (l : Lane τ) (now : Instant) : Bool :=
  match l.lease with
  | none => true
  | some lease => lease.isExpiredAt now

/-- An entry has the key. -/
def hasKey (l : Lane τ) (key : String) : Bool := l.entries.any fun e => e.key == key

end Lane

namespace Queue

variable {τ : Type}

instance : Inhabited (Queue τ) := ⟨{}⟩

/-- The queue without a lane. -/
def empty : Queue τ := {}

/-- The lane of a name. -/
def lane? (q : Queue τ) (name : String) : Option (Lane τ) := ByName.find? name q.lanes

/-- Puts a lane in place of the one of its name. -/
def setLane (q : Queue τ) (name : String) (l : Lane τ) : Queue τ :=
  { q with lanes := ByName.insert name l q.lanes }

/-- Puts a lane in place of the one of its name, or takes the name out where the lane has neither
an entry nor a lease. -/
def setOrDrop (q : Queue τ) (name : String) (l : Lane τ) : Queue τ :=
  if l.entries.isEmpty && l.lease.isNone then { q with lanes := ByName.erase name q.lanes }
  else q.setLane name l

/-- The entries of all lanes, leased or not. -/
def entries (q : Queue τ) : List (Entry τ) := q.lanes.flatMap fun (_, l) => l.entries

/-- The number of entries in all lanes. -/
def length (q : Queue τ) : Nat := q.entries.length

/-- No lane holds an entry. -/
def isEmpty (q : Queue τ) : Bool := q.length == 0

/-- The lane whose live lease has the token, or why there is none. -/
def lockedLane (q : Queue τ) (lock : Lock) (now : Instant) : Except QueueError (Lane τ) :=
  match q.lane? lock.lane with
  | none => .error (.itemNotFound lock.lane)
  | some l =>
    match l.lease with
    | none => .error (.itemNotLocked lock.lane)
    | some lease =>
      if lease.isExpiredAt now then .error (.itemNotLocked lock.lane)
      else if lease.token = lock.token then .ok l
      else .error (.tokenMismatch lock.lane)

/-! ## Operations -/

/-- Puts an item at the end of a lane, unless its key is there. -/
def enqueue [Keyed τ] (q : Queue τ) (lane : String) (item : τ) (priority : Int) :
    Except QueueError Unit × Queue τ :=
  let key := Keyed.key item
  let l := (q.lane? lane).getD {}
  if l.hasKey key then (.error (.itemAlreadyQueued lane key), q)
  else
    let entry : Entry τ := ⟨item, key, priority, q.nextSequence⟩
    (.ok (), { q.setLane lane { l with entries := l.entries ++ [entry] } with
      nextSequence := q.nextSequence + 1 })

/-- A lane with its head, as a candidate for a lease. -/
structure Candidate (τ : Type) where
  name : String
  lane : Lane τ
  head : Entry τ

/-- The lanes that can be leased, with their heads. -/
def candidates (q : Queue τ) (now : Instant) : List (Candidate τ) :=
  q.lanes.filterMap fun (name, l) =>
    if l.isLeasableAt now then l.entries.head?.map fun head => ⟨name, l, head⟩ else none

/-- The first candidate comes before the second: by priority, then by sequence. -/
def Candidate.before (a b : Candidate τ) : Bool :=
  a.head.priority < b.head.priority ||
    (a.head.priority == b.head.priority && a.head.sequence < b.head.sequence)

/-- The candidate that comes before all others. -/
def best? : List (Candidate τ) → Option (Candidate τ)
  | [] => none
  | c :: rest =>
    match best? rest with
    | none => some c
    | some d => if d.before c then some d else some c

/-- Hands out the head that comes first among those of lanes without a live lease. -/
def lease (q : Queue τ) (now : Instant) (expiration : Duration) (fresh : Uuid) :
    Option (LeasedItem τ) × Queue τ :=
  match best? (q.candidates now) with
  | none => (none, q)
  | some c =>
    let lease := Lease.grant c.name fresh now expiration
    (some ⟨c.head.item, c.head.priority, lease⟩,
      q.setLane c.name { c.lane with lease := some lease })

/-- Lets a live lease run from `now` on. -/
def renew (q : Queue τ) (lock : Lock) (now : Instant) (expiration : Duration) :
    Except QueueError Unit × Queue τ :=
  match q.lockedLane lock now with
  | .error e => (.error e, q)
  | .ok l =>
    (.ok (), q.setLane lock.lane { l with lease := l.lease.map fun x => x.renew now expiration })

/-- Takes a live lease off its lane. -/
def release (q : Queue τ) (lock : Lock) (now : Instant) : Except QueueError Unit × Queue τ :=
  match q.lockedLane lock now with
  | .error e => (.error e, q)
  | .ok l => (.ok (), q.setLane lock.lane { l with lease := none })

/-- Takes the head off its lane, and the lease with it. -/
def acknowledge (q : Queue τ) (lock : Lock) (now : Instant) : Except QueueError τ × Queue τ :=
  match q.lockedLane lock now with
  | .error e => (.error e, q)
  | .ok l =>
    match l.entries with
    | [] => (.error (.itemNotFound lock.lane), q)
    | head :: rest => (.ok head.item, q.setOrDrop lock.lane { entries := rest, lease := none })

/-- Moves the head to the end of its lane with another priority, and takes the lease off. A sequence
number is used up even where this is refused. -/
def defer (q : Queue τ) (lock : Lock) (priority : Int) (now : Instant) :
    Except QueueError Unit × Queue τ :=
  let taken := { q with nextSequence := q.nextSequence + 1 }
  match q.lockedLane lock now with
  | .error e => (.error e, taken)
  | .ok l =>
    match l.entries with
    | [] => (.error (.itemNotFound lock.lane), taken)
    | head :: rest =>
      let moved := { head with priority := priority, sequence := q.nextSequence }
      (.ok (), taken.setLane lock.lane { entries := rest ++ [moved], lease := none })

/-- The lease on a lane, if it has run out. -/
def expiredLease? (now : Instant) (l : Lane τ) : Option Lease :=
  l.lease.filter fun lease => lease.isExpiredAt now

/-- A lane without a lease that has run out. -/
def sweepLane (now : Instant) (l : Lane τ) : Lane τ :=
  if (expiredLease? now l).isSome then { l with lease := none } else l

/-- Takes all leases off that have run out, and answers them lane by lane. That the lanes go by
their names here means nothing: they may be gone through in any order. -/
def sweep (q : Queue τ) (now : Instant) : List Lease × Queue τ :=
  (q.lanes.filterMap fun (_, l) => expiredLease? now l,
    { q with
      lanes := (q.lanes.map fun (name, l) => (name, sweepLane now l)).filter fun (_, l) =>
        !l.entries.isEmpty || l.lease.isSome })

/-- A lane holds an entry with the key. -/
def isQueued (q : Queue τ) (lane key : String) : Bool :=
  match q.lane? lane with
  | none => false
  | some l => l.hasKey key

end Queue

end EventRelay
