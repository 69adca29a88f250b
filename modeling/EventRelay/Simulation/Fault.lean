import EventRelay.Call

/-!
# Armed failures

A simulation can arm failures on the calls of a kind, on those for one flow or one revision alone,
and on some of them alone by letting the first ones pass. Failures are asked in the order they were
armed. One that lets a call pass hands it on to the next; one that strikes changes nothing but the
answer.
-/

namespace EventRelay.Simulation

/-- The kinds of calls that failures can be armed on. -/
inductive Target where
  | enqueue | lease | renew | release | acknowledge | defer | sweep | isQueued
  | getProgress | recordProgress | advanceProgress
  | append | read | last
  /-- The latest event of an aggregate, as if there were none. -/
  | lastMissing
  | hasCausedBy | storeSnapshot | snapshot | aggregates
  /-- An event in the course of a read. -/
  | streamItem
  /-- An aggregate in the course of a read. -/
  | aggregateItem
  deriving DecidableEq, Repr

/-- The kind of calls that goes by a name. -/
def Target.ofName? : String → Option Target
  | "enqueue" => some .enqueue
  | "lease" => some .lease
  | "renew" => some .renew
  | "release" => some .release
  | "acknowledge" => some .acknowledge
  | "defer" => some .defer
  | "sweep" => some .sweep
  | "is_queued" => some .isQueued
  | "get_progress" => some .getProgress
  | "record_progress" => some .recordProgress
  | "advance_watermark" => some .advanceProgress
  | "append" => some .append
  | "read" => some .read
  | "last" => some .last
  | "last_missing" => some .lastMissing
  | "has_causation" => some .hasCausedBy
  | "store_snapshot" => some .storeSnapshot
  | "get_snapshot" => some .snapshot
  | "aggregates" => some .aggregates
  | "stream_item" => some .streamItem
  | "aggregate_item" => some .aggregateItem
  | _ => none

/-- A failure that is armed. -/
structure Fault where
  target : Target
  flow? : Option String := none
  revision? : Option Nat := none
  /-- How many calls it still lets pass. -/
  skip : Nat := 0
  /-- How often it still strikes. -/
  times : Nat := 1
  deriving Repr

/-- What a call is about, as failures ask for it. -/
structure Mark where
  flow? : Option String := none
  revision? : Option Nat := none

namespace Fault

/-- The failure is armed on the call. What it asks for and the call does not have never matches. -/
def concerns (f : Fault) (target : Target) (m : Mark) : Bool :=
  f.target == target && (f.flow?.isNone || f.flow? == m.flow?) &&
    (f.revision?.isNone || f.revision? == m.revision?)

/-- Whether one of the failures strikes a call, and the failures after it. -/
def strike (target : Target) (m : Mark) : List Fault → Bool × List Fault
  | [] => (false, [])
  | f :: rest =>
    let pass (f : Fault) : Bool × List Fault :=
      let (struck, rest) := strike target m rest
      (struck, f :: rest)
    if !f.concerns target m then pass f
    else
      match f.skip, f.times with
      | skip + 1, _ => pass { f with skip }
      | 0, times + 1 => (true, { f with times } :: rest)
      | 0, 0 => pass f

end Fault

/-- The reason that armed failures give. -/
def reason : String := "injected"

/-- What a struck call on the log is answered. -/
def strikeLog (fs : List Fault) : (c : LogCall) → Option c.Answer × List Fault
  | .append _ => answer .append (.error (.storage reason))
  | .read _ => answer .read (.error (.storage reason))
  | .next _ => (none, fs)
  | .last _ =>
    match Fault.strike .last {} fs with
    | (true, fs) => (some (.error (.storage reason)), fs)
    | (false, fs) =>
      let (struck, fs) := Fault.strike .lastMissing {} fs
      (if struck then some (.error (.notFound reason)) else none, fs)
  | .hasCausedBy _ => answer .hasCausedBy (.error (.storage reason))
  | .storeSnapshot _ => answer .storeSnapshot (.error (.storage reason))
  | .snapshot _ => answer .snapshot (.error (.storage reason))
  | .aggregates => answer .aggregates (.error (.storage reason))
  | .nextAggregate _ => answer .aggregateItem (.error (.storage reason))
where
  /-- The answer, if a failure strikes. -/
  answer {α : Type} (target : Target) (a : α) : Option α × List Fault :=
    let (struck, fs) := Fault.strike target {} fs
    (if struck then some a else none, fs)

/-- What a struck call on the queue is answered. -/
def strikeQueue (fs : List Fault) : (c : QueueCall Event) → Option c.Answer × List Fault
  | .enqueue flow event _ => answer .enqueue ⟨some flow, some event.revision⟩ (.error failure)
  | .lease => answer .lease ⟨some "", none⟩ (.error failure)
  | .renew lock => answer .renew ⟨some lock.lane, none⟩ (.error failure)
  | .release lock => answer .release ⟨some lock.lane, none⟩ (.error failure)
  | .acknowledge lock => answer .acknowledge ⟨some lock.lane, none⟩ (.error failure)
  | .defer lock _ => answer .defer ⟨some lock.lane, none⟩ (.error failure)
  | .sweep => answer .sweep ⟨some "", none⟩ (.error failure)
  | .isQueued flow _ => answer .isQueued ⟨some flow, none⟩ (.error failure)
where
  /-- The failure of the queue. -/
  failure : QueueError := .storage reason
  /-- The answer, if a failure strikes. -/
  answer {α : Type} (target : Target) (m : Mark) (a : α) : Option α × List Fault :=
    let (struck, fs) := Fault.strike target m fs
    (if struck then some a else none, fs)

/-- What a struck call on the progress table is answered. -/
def strikeProgress (fs : List Fault) : (c : ProgressCall) → Option c.Answer × List Fault
  | .get flow _ => answer .getProgress ⟨some flow, none⟩ (.error ⟨reason⟩)
  | .record flow _ revision =>
    answer .recordProgress ⟨some flow, some revision⟩ (.error ⟨reason⟩)
  | .advance flow _ revision =>
    answer .advanceProgress ⟨some flow, some revision⟩ (.error ⟨reason⟩)
where
  /-- The answer, if a failure strikes. -/
  answer {α : Type} (target : Target) (m : Mark) (a : α) : Option α × List Fault :=
    let (struck, fs) := Fault.strike target m fs
    (if struck then some a else none, fs)

/-- What a struck call is answered. -/
def strike (fs : List Fault) : (c : Call) → Option c.Answer × List Fault
  | .log c => strikeLog fs c
  | .queue c => strikeQueue fs c
  | .progress c => strikeProgress fs c
  | .wake => (none, fs)
  | .note _ => (none, fs)

end EventRelay.Simulation
