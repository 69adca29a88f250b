import EventRelay.Config
import EventRelay.Notice
import EventRelay.Stores

/-!
# Starting a broker

A broker reads its settings, opens its stores, and then listens. Stores that are to persist need a
database, in which the tables are made first: those of the log, of the queue and of the progress.
-/

namespace EventRelay

open Database (Session Script)

/-- Why stores cannot be opened. -/
inductive OpenError where
  | config (e : ConfigError)
  /-- The database cannot be reached. -/
  | connection (reason : String)
  | log (e : LogError)
  | queue (e : QueueError)
  | progress (e : ProgressError)
  deriving DecidableEq, Repr

namespace OpenError

/-- The text of the error. -/
def message : OpenError → String
  | config e => e.message
  | connection reason => "failed to connect to Postgres: " ++ reason
  | log e => "domain event store setup failed: " ++ e.message
  | queue e => "priority queue setup failed: " ++ e.message
  | progress e => "progress store setup failed: " ++ e.message

/-- A connection that was refused. -/
def ofFailure : Database.Failure → OpenError
  | .refused _ reason => connection ("error returned from database: " ++ reason)
  | .closed => connection "attempted to acquire a connection on a closed pool"
  | .unreadable => connection "unexpected response"

end OpenError

namespace Startup

/-- Connects to the database and makes all tables. -/
def makeTables : Script OpenError Unit := do
  Database.connect.mapFailure OpenError.ofFailure
  Database.LogStore.setup.mapFailure OpenError.log
  Database.QueueStore.setup.mapFailure OpenError.queue
  Database.ProgressStore.setup.mapFailure OpenError.progress

/-- Opens the stores that the settings ask for; `s` is a session with the database they name. -/
def openStores (c : Config) (s : Session) : Except OpenError Stores :=
  if !c.persistent then .ok (.memory {})
  else
    match c.databaseUrl with
    | none => .error (.config .missingDatabaseUrl)
    | some _ =>
      match makeTables.run.run s with
      | (.ok (), s) => .ok (.durable s)
      | (.error e, _) => .error e

/-- What is told when stores were opened. -/
def opened : Stores → Notice
  | .memory _ => .storesInMemory
  | .durable _ => .storesInDatabase

/-- Why a server ends before it serves. -/
inductive Obstacle where
  | config (e : ConfigError)
  | stores (e : OpenError)
  /-- The address is not free. -/
  | address (port : Nat)

namespace Obstacle

/-- What went wrong, and the cause of it. -/
def texts : Obstacle → List String
  | config e => ["invalid configuration", e.message]
  | stores e => ["failed to build services", e.message]
  | address port =>
    ["failed to bind 0.0.0.0:" ++ toString port, "Address already in use (os error 98)"]

end Obstacle

/-- A server that listens: its settings and stores. -/
structure Listening where
  config : Config
  stores : Stores

/-- Starts a server, and answers besides what it tells. -/
def start (lookup : Config.Lookup) (s : Session) (isFree : Nat → Bool) :
    Except Obstacle Listening × List Notice :=
  match Config.ofLookup lookup with
  | .error e => (.error (.config e), [])
  | .ok config =>
    match openStores config s with
    | .error e => (.error (.stores e), [])
    | .ok stores =>
      if isFree config.port then
        (.ok ⟨config, stores⟩, [opened stores, .recoveryStarted config.recoveryMs,
          .listening ("0.0.0.0:" ++ toString config.port) config.registry.names])
      else (.error (.address config.port), [opened stores])

/-- What a server tells when it stops. -/
def stopped : List Notice := [.recoveryStopped, .shutDown]

end Startup

end EventRelay
