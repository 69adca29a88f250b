import EventRelay.Call
import EventRelay.Database.Session

/-!
# Progress in tables

Progress is changed by reading a row under a lock and writing it back in the same transaction.
-/

namespace EventRelay.Database.ProgressStore

/-- What is done in a statement, as failures name it. -/
def activity : Statement → String
  | .setup => "setup"
  | .begin => "begin"
  | .commit => "commit"
  | .readProgress => "get_progress"
  | .insertProgress => "insert progress"
  | .lockProgress => "lock progress"
  | .updateProgress => "update progress"
  | _ => ""

/-- What a failed statement means to users of the table. -/
def refusal (st : Statement) : Failure → ProgressError
  | .refused _ reason => ⟨activity st ++ ": error returned from database: " ++ reason⟩
  | .closed => ⟨activity st ++ ": attempted to acquire a connection on a closed pool"⟩
  | .unreadable => ⟨activity st⟩

/-- The row that a statement gives, if it gives one. -/
def row? {α : Type} (st : Statement) (f : Tables → Option α) : Script ProgressError (Option α) := do
  match ← (select st fun t => (f t).toList).mapFailure (refusal st) with
  | [] => return none
  | some a :: _ => return some a
  | none :: _ => throw (refusal st .unreadable)

/-- Carries a statement out that changes the tables. -/
def change (st : Statement) (f : Tables → Tables) : Script ProgressError Unit :=
  (alter st f).mapFailure (refusal st)

/-- Makes the table. -/
def setup : Script ProgressError Unit := change .setup id

/-- What a flow has settled of an aggregate. -/
def get (flow : String) (aggregate : Uuid) : Script ProgressError Progress := do
  return (← row? .readProgress (·.progress? flow aggregate)).getD {}

/-- Changes what a flow has settled of an aggregate. -/
def update (flow : String) (aggregate : Uuid) (f : Progress → Progress) :
    Script ProgressError Unit :=
  transaction (refusal .begin) do
    change .insertProgress (·.ensureProgress flow aggregate)
    let p := (← row? .lockProgress (·.progress? flow aggregate)).getD {}
    change .updateProgress (·.setProgress flow aggregate (f p))
    commit.mapFailure (refusal .commit)

/-- Records a revision as settled. -/
def record (flow : String) (aggregate : Uuid) (revision : Nat) : Script ProgressError Unit :=
  update flow aggregate fun p => (p.acknowledge revision).2

/-- Moves the watermark up. -/
def advance (flow : String) (aggregate : Uuid) (revision : Nat) : Script ProgressError Unit :=
  update flow aggregate (·.advanceTo revision)

end EventRelay.Database.ProgressStore
