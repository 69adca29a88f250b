import EventRelay.Database.Tables
import EventRelay.Wire.Codecs

/-!
# Sessions with a database

A broker talks to its database in statements. Several of them make a transaction: it is committed
whole, or what it did is rolled back. Other brokers work on the same tables, so between any two
statements the tables may change; what others did stays when a transaction is rolled back.

A statement can be made to fail, and a rival's deed can be put in front of one, by kind and by
letting the first ones of that kind pass.
-/

namespace EventRelay.Database

/-- The kinds of statements, the opening of a connection among them. -/
inductive Statement where
  | connect | setup
  | begin | commit | rollback
  | enqueue | leaseCandidate | laneHead | leaseClaim | checkLock | hasItems | renewLock
  | releaseLock | acknowledge | defer | sweep | isQueued
  | currentRevision | insertEvent | fetchPage | last | hasCausedBy | storeSnapshot | snapshot
  | aggregates
  | readProgress | insertProgress | lockProgress | updateProgress
  deriving DecidableEq, Repr

/-- The kind of statements that goes by a name. -/
def Statement.ofName? : String → Option Statement
  | "connect" => some .connect
  | "setup" => some .setup
  | "begin" => some .begin
  | "commit" => some .commit
  | "rollback" => some .rollback
  | "enqueue" => some .enqueue
  | "lease_candidate" => some .leaseCandidate
  | "lane_head" => some .laneHead
  | "lease_claim" => some .leaseClaim
  | "check_lock" => some .checkLock
  | "has_items" => some .hasItems
  | "renew_lock" => some .renewLock
  | "release_lock" => some .releaseLock
  | "acknowledge" => some .acknowledge
  | "defer" => some .defer
  | "sweep" => some .sweep
  | "is_queued" => some .isQueued
  | "current_revision" => some .currentRevision
  | "insert_event" => some .insertEvent
  | "fetch_page" => some .fetchPage
  | "last" => some .last
  | "has_causation" => some .hasCausedBy
  | "store_snapshot" => some .storeSnapshot
  | "get_snapshot" => some .snapshot
  | "aggregates" => some .aggregates
  | "progress_get" => some .readProgress
  | "progress_insert" => some .insertProgress
  | "progress_lock" => some .lockProgress
  | "progress_update" => some .updateProgress
  | _ => none

/-- Why a statement failed. -/
inductive Failure where
  /-- The database refused it: because a key is there already, or for another reason. -/
  | refused (duplicate : Bool) (reason : String)
  /-- The broker has closed its connections. -/
  | closed
  /-- A value came back that cannot be read. -/
  | unreadable
  deriving DecidableEq, Repr

/-! ## Armed failures -/

/-- What an armed failure does to the statement that it strikes. -/
inductive Effect where
  /-- It is refused, as if a key were there already or for another reason. -/
  | refuse (duplicate : Bool)
  /-- It is carried out, but all values of the rows that come back are missing. -/
  | blank
  deriving DecidableEq, Repr

/-- A failure that is armed. -/
structure Fault where
  statement : Statement
  effect : Effect := .refuse false
  /-- How many statements it still lets pass. -/
  skip : Nat := 0
  /-- How often it still strikes. -/
  times : Nat := 1
  deriving Repr

namespace Fault

/-- What one of the failures does to a statement, and the failures after it. -/
def strike (st : Statement) : List Fault → Option Effect × List Fault
  | [] => (none, [])
  | f :: rest =>
    let pass (f : Fault) : Option Effect × List Fault :=
      let (effect, rest) := strike st rest
      (effect, f :: rest)
    if f.statement ≠ st then pass f
    else
      match f.skip, f.times with
      | skip + 1, _ => pass { f with skip }
      | 0, times + 1 => (some f.effect, { f with times } :: rest)
      | 0, 0 => pass f

/-- The reason that armed failures give. -/
def reason : String := "injected"

end Fault

/-! ## Rivals -/

/-- What another broker does to the tables. -/
inductive Deed where
  /-- Locks the head of a lane for some milliseconds. -/
  | lease (lane : String) (token : Uuid) (ms : Nat)
  /-- Takes the head off a lane. -/
  | removeHead (lane : String)
  /-- Leaves an item at the head of a lane that cannot be decoded. -/
  | spoilHead (lane : String)
  /-- Stores an event. -/
  | append (e : Event)
  /-- Leaves an event that cannot be decoded. -/
  | spoilEvent (aggregate : Uuid) (revision : Nat)

namespace Deed

/-- The tables after a deed. -/
def apply (now : Instant) (t : Tables) : Deed → Tables
  | lease lane token ms =>
    let sequence := ((t.head? lane).map ItemRow.sequence).getD 0
    t.putLock ⟨lane, token, now.add (.ofMillis ms), sequence⟩
  | removeHead lane =>
    match t.head? lane with
    | some row => t.removeItem lane row.sequence
    | none => t
  | spoilHead lane =>
    match t.head? lane with
    | some head =>
      { t with items := t.items.map fun row =>
          if row.sequence == head.sequence then { row with payload := .null } else row }
    | none => t
  | append e =>
    if t.hasRevision e.aggregateId e.revision then t
    else t.insertEvent e (Wire.event.encode e)
  | spoilEvent aggregate revision =>
    { t with events := t.events.map fun row =>
        if row.aggregate.id == aggregate && row.revision == revision then
          { row with payload := .null }
        else row }

end Deed

/-- A deed that comes in front of a statement. -/
structure Rival where
  deed : Deed
  before : Statement
  /-- How many statements of the kind it still lets pass. -/
  skip : Nat := 0

/-! ## Sessions -/

/-- A session with the database. -/
structure Session where
  tables : Tables := {}
  /-- What a rollback goes back to, while a transaction is open. -/
  saved? : Option Tables := none
  /-- The reading of the clock. -/
  now : Instant := .ofMillis 0
  isConnected : Bool := false
  isClosed : Bool := false
  faults : List Fault := []
  rivals : List Rival := []

namespace Session

instance : Inhabited Session := ⟨{}⟩

/-- Another broker does something. -/
def suffer (s : Session) (d : Deed) : Session :=
  { s with
    tables := d.apply s.now s.tables
    saved? := s.saved?.map fun t => d.apply s.now (t.withCountersOf s.tables) }

/-- The deeds that come in front of a statement, and those that still wait. -/
def due (st : Statement) : List Rival → List Deed × List Rival
  | [] => ([], [])
  | r :: rest =>
    let (deeds, waiting) := due st rest
    if r.before ≠ st then (deeds, r :: waiting)
    else
      match r.skip with
      | 0 => (r.deed :: deeds, waiting)
      | skip + 1 => (deeds, { r with skip } :: waiting)

/-- Another broker does something at once, or in front of a later statement. -/
def plan (s : Session) (d : Deed) (before? : Option Statement) (skip : Nat) : Session :=
  match before? with
  | none => s.suffer d
  | some before => { s with rivals := s.rivals ++ [⟨d, before, skip⟩] }

/-- Lets rivals act in front of a statement. -/
def yield (s : Session) (st : Statement) : Session :=
  let (deeds, rivals) := due st s.rivals
  deeds.foldl suffer { s with rivals }

/-- Looks for an armed failure. -/
def strike (s : Session) (st : Statement) : Option Effect × Session :=
  let (effect, faults) := Fault.strike st s.faults
  (effect, { s with faults })

/-- Ends the transaction by going back to where it began. -/
def restore (s : Session) : Session :=
  match s.saved? with
  | some t => { s with tables := t.withCountersOf s.tables, saved? := none }
  | none => s

end Session

/-! ## Scripts -/

/-- Statements one after the other, up to the first failure. -/
abbrev Script (ε α : Type) := ExceptT ε (StateM Session) α

namespace Script

variable {ε ζ α : Type}

/-- The script with other words for its failures. -/
def mapFailure (f : ε → ζ) (s : Script ε α) : Script ζ α := ExceptT.mk do
  match ← s.run with
  | .ok a => return .ok a
  | .error e => return .error (f e)

end Script

/-- Stops if a statement is struck, and answers whether its values are missing. -/
def struck (st : Statement) : Script Failure Bool := do
  let (effect, s) := (← get).strike st
  set s
  match effect with
  | none => return false
  | some .blank => return true
  | some (.refuse duplicate) => throw (.refused duplicate Fault.reason)

/-- Opens a connection unless one is open. -/
def connect : Script Failure Unit := do
  let s ← get
  if s.isClosed then throw .closed
  if !s.isConnected then
    let _ ← struck .connect
    modify fun s => { s with isConnected := true }

/-- Carries a statement out, and answers besides whether the values of its rows are missing. -/
def execute {α : Type} (st : Statement) (f : Tables → Except Failure (α × Tables)) :
    Script Failure (α × Bool) := do
  connect
  modify fun s => s.yield st
  let isBlank ← struck st
  match f (← get).tables with
  | .error e => throw e
  | .ok (a, tables) =>
    modify fun s => { s with tables }
    return (a, isBlank)

/-- Carries a statement out that gives rows. Each is there, or its values are missing. -/
def query {α : Type} (st : Statement) (f : Tables → List α × Tables) :
    Script Failure (List (Option α)) := do
  let (rows, isBlank) ← execute st fun t => .ok (f t)
  return rows.map fun row => if isBlank then none else some row

/-- Carries a statement out that gives rows and changes nothing. -/
def select {α : Type} (st : Statement) (rows : Tables → List α) :
    Script Failure (List (Option α)) :=
  query st fun t => (rows t, t)

/-- Carries a statement out that changes the tables or is refused. -/
def attempt (st : Statement) (change : Tables → Except Failure Tables) : Script Failure Unit := do
  let _ ← execute st fun t => (change t).map fun t => ((), t)

/-- Carries a statement out that changes the tables. -/
def alter (st : Statement) (change : Tables → Tables) : Script Failure Unit :=
  attempt st fun t => .ok (change t)

/-! ## Transactions -/

/-- Opens a transaction. -/
def begin : Script Failure Unit := do
  alter .begin id
  modify fun s => { s with saved? := some s.tables }

/-- Makes what the transaction did last. -/
def commit : Script Failure Unit := do
  alter .commit id
  modify fun s => { s with saved? := none }

/-- Undoes what the transaction did. -/
def rollback : Script Failure Unit := do
  alter .rollback id
  modify Session.restore

/-- Undoes what a transaction did that was not brought to its end. Nobody hears of a failure in
this, but the connection is given up for it. -/
def abandon : StateM Session Unit := do
  let s ← get
  if s.isConnected then
    let (effect, s) := (s.yield .rollback).strike .rollback
    let isBroken := match effect with
      | some (.refuse _) => true
      | _ => false
    set { s.restore with isConnected := !isBroken }

/-- Carries statements out in a transaction. If they neither commit it nor roll it back, it is
abandoned. -/
def transaction {ε α : Type} (refusal : Failure → ε) (body : Script ε α) : Script ε α :=
  ExceptT.mk do
    match ← begin.run with
    | .error e =>
      abandon
      return .error (refusal e)
    | .ok () =>
      let result ← body.run
      if (← get).saved?.isSome then abandon
      return result

end EventRelay.Database
