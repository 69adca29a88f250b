import EventRelay.ErrorCode

/-!
# Refusals of the queue
-/

namespace EventRelay

/-- Why the queue refuses. -/
inductive QueueError where
  /-- The lane holds an entry with the same key. -/
  | itemAlreadyQueued (lane key : String)
  /-- The lane holds no entry. -/
  | itemNotFound (lane : String)
  /-- No live lease is on the lane. -/
  | itemNotLocked (lane : String)
  /-- The live lease of the lane has another token. -/
  | tokenMismatch (lane : String)
  /-- What keeps the lanes failed. -/
  | storage (reason : String)
  deriving DecidableEq, Repr

namespace QueueError

/-- The text of the error. -/
def message : QueueError → String
  | itemAlreadyQueued lane key =>
    "item '" ++ key ++ "' is already queued for discriminator '" ++ lane ++ "'"
  | itemNotFound lane => "no item found for discriminator '" ++ lane ++ "'"
  | itemNotLocked lane => "item for discriminator '" ++ lane ++ "' is not locked"
  | tokenMismatch lane => "token mismatch for discriminator '" ++ lane ++ "'"
  | storage reason => "storage error: " ++ reason

/-- The code that clients are told. -/
def code : QueueError → ErrorCode
  | itemAlreadyQueued .. => .itemAlreadyQueued
  | itemNotFound _ => .itemNotFound
  | itemNotLocked _ => .itemNotLocked
  | tokenMismatch _ => .tokenMismatch
  | storage _ => .unknownError

end QueueError

end EventRelay
