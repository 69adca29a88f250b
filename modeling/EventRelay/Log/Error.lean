import EventRelay.ErrorCode
import EventRelay.Uuid

/-!
# Refusals of the event log
-/

namespace EventRelay

/-- Why the log refuses, with the reason in words. -/
inductive LogError where
  | validation (reason : String)
  | revisionAlreadyExists (reason : String)
  | revisionGap (reason : String)
  | notFound (reason : String)
  | storage (reason : String)
  deriving DecidableEq, Repr

namespace LogError

/-- The text of the error. -/
def message : LogError → String
  | validation reason => "validation failed: " ++ reason
  | revisionAlreadyExists reason => "revision already exists: " ++ reason
  | revisionGap reason => "revision gap: " ++ reason
  | notFound reason => "not found: " ++ reason
  | storage reason => "storage error: " ++ reason

/-- The code that clients are told. -/
def code : LogError → ErrorCode
  | validation _ => .requestMalformed
  | revisionAlreadyExists _ => .revisionAlreadyExists
  | revisionGap _ => .revisionGap
  | notFound _ => .notFound
  | storage _ => .unknownError

/-- A value that breaks its own rules. -/
def ofValueError (e : ValueError) : LogError := validation e.message

/-- A batch without events. -/
def noEvents : LogError := validation "domain events are missing"

/-- The revision is below the one that comes next. -/
def taken (aggregate : Uuid) (revision : Nat) : LogError :=
  revisionAlreadyExists
    ("aggregate " ++ toString aggregate ++ " already has revision " ++ toString revision)

/-- The revision is above the one that comes next. -/
def gap (aggregate : Uuid) (next revision : Nat) : LogError :=
  revisionGap ("aggregate " ++ toString aggregate ++ " expects revision " ++ toString next ++
    ", got " ++ toString revision)

/-- The aggregate has no event. -/
def noEventsOf (aggregate : Uuid) : LogError :=
  notFound ("no domain events for aggregate " ++ toString aggregate)

end LogError

end EventRelay
