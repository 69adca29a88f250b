import EventRelay.ErrorCode
import EventRelay.Json.Basic
import EventRelay.Text.Blank
import EventRelay.Uuid

/-!
# Domain events

An event happened to an aggregate in a context. Its revision is its place in the stream of its
aggregate, counted from 1. An event that is stored never changes.
-/

namespace EventRelay

/-- The bounded context that an aggregate lives in. -/
structure Context where
  name : String
  deriving DecidableEq, Inhabited

/-- An aggregate: the name of its sort and its own id. -/
structure Aggregate where
  name : String
  id : Uuid
  deriving DecidableEq, Inhabited

/-- Whoever caused an event; passed through untouched. -/
structure Initiator where
  user : String
  claims : Json
  deriving Inhabited

/-- What is known of an event besides what happened. -/
structure Metadata where
  causationId : Uuid
  correlationId : Uuid
  /-- Milliseconds from the start of 1970. -/
  timestamp : Int
  revision : Nat
  initiator : Initiator
  tags : List String
  deriving Inhabited

/-- Something that happened to an aggregate. -/
structure Event where
  context : Context
  aggregate : Aggregate
  name : String
  id : Uuid
  data : Json
  metadata : Metadata
  deriving Inhabited

namespace Aggregate

/-- An aggregate has to have a name that is not blank. -/
def validate (a : Aggregate) : Except ValueError Unit :=
  if Text.isBlank a.name then .error (.invalid "aggregate identifier name must not be empty")
  else .ok ()

end Aggregate

namespace Initiator

/-- A user known by an id alone. -/
def ofUser (id : String) : Initiator := ⟨id, .object [("sub", .string id)]⟩

/-- The program itself. -/
def system : Initiator := ofUser "system"

end Initiator

namespace Event

/-- A new event. Until told otherwise it is its own cause, and the program's own. -/
def create (id : Uuid) (now : Int) (context : Context) (aggregate : Aggregate) (name : String)
    (data : Json) (revision : Nat) : Event where
  context := context
  aggregate := aggregate
  name := name
  id := id
  data := data
  metadata :=
    { causationId := id, correlationId := id, timestamp := now, revision := revision,
      initiator := Initiator.system, tags := [] }

/-- The place in the stream of the aggregate. -/
abbrev revision (e : Event) : Nat := e.metadata.revision

/-- The id of the aggregate. -/
abbrev aggregateId (e : Event) : Uuid := e.aggregate.id

/-- Milliseconds from the start of 1970. -/
abbrev timestamp (e : Event) : Int := e.metadata.timestamp

/-- Context, aggregate and event name with points between them. -/
def fullName (e : Event) : String := e.context.name ++ "." ++ e.aggregate.name ++ "." ++ e.name

/-- The event with another cause. -/
def withCausation (e : Event) (id : Uuid) : Event :=
  { e with metadata := { e.metadata with causationId := id } }

/-- The event as part of another correlation. -/
def withCorrelation (e : Event) (id : Uuid) : Event :=
  { e with metadata := { e.metadata with correlationId := id } }

/-- The event at another time. -/
def withTimestamp (e : Event) (t : Int) : Event :=
  { e with metadata := { e.metadata with timestamp := t } }

/-- The event of another initiator. -/
def withInitiator (e : Event) (i : Initiator) : Event :=
  { e with metadata := { e.metadata with initiator := i } }

/-- The three names have to be more than blanks, the revision at least 1, the time not before
1970. -/
def validate (e : Event) : Except ValueError Unit := do
  if Text.isBlank e.context.name then
    throw (.invalid "context identifier name must not be empty")
  e.aggregate.validate
  if Text.isBlank e.name then
    throw (.invalid "domain event name must not be empty")
  if e.revision < 1 then
    throw (.invalid ("revision must be at least 1 (event " ++ toString e.id ++ ")"))
  if e.timestamp < 0 then
    throw (.invalid "timestamp must not be negative")

end Event

/-- The state of an aggregate after a revision, so that readers need not read what led to it. -/
structure Snapshot where
  aggregate : Aggregate
  revision : Nat
  state : Json
  deriving Inhabited

namespace Snapshot

/-- The aggregate has to have a name that is not blank, and the revision has to be at least 1. -/
def validate (s : Snapshot) : Except ValueError Unit := do
  s.aggregate.validate
  if s.revision < 1 then
    throw (.invalid "snapshot revision must be at least 1")

end Snapshot

end EventRelay
