import EventRelay.Console
import EventRelay.Recovery
import EventRelay.Startup
import Std.Time.DateTime.Timestamp

/-!
# The program

The broker takes its settings from the environment, opens its stores and answers requests, one a
line of standard input, until there are no more. Recoveries are due at intervals and made up for
before the next request. What it has to tell goes to standard error.

No database can be reached from here, so stores that are to persist are refused.
-/

namespace EventRelay.Program

/-- The variables of the environment that hold settings. -/
def settingNames : List String :=
  ["AEON_PORT", "AEON_EXPIRATION_TIME_MS", "AEON_MISSED_DOMAIN_EVENT_RECOVERY_INTERVAL_MS",
    "AEON_HEARTBEAT_INTERVAL_MS", "AEON_QUEUE_POLL_INTERVAL_MS", "AEON_USE_PERSISTENT_STORES",
    "DATABASE_URL", "AEON_FLOWS", "AEON_LOG_FORMAT"]

/-- The variables that are set, with their values. -/
def readVariables : IO (List (String × String)) := do
  let found ← settingNames.mapM fun name => do
    return (← IO.getEnv name).map fun value => (name, value)
  return found.filterMap id

/-- Milliseconds from the start of 1970. -/
def clock : IO Int := return (← Std.Time.Timestamp.now).toMillisecondsSinceUnixEpoch.val

/-- A random token. -/
def freshToken : IO Uuid := do
  let bytes ← IO.getRandomBytes 16
  return Uuid.ofSeed 4 (bytes.toList.foldl (fun n b => 256 * n + b.toNat) 0)

/-- Tells a notice that matters to those who do not look for faults. -/
def tell (format : LogFormat) (n : Notice) : IO Unit := do
  if n.level = .debug then return ()
  let instant := (Instant.ofMillis (← clock)).toRfc3339
  let fields := n.toJson
  (← IO.getStderr).putStrLn (match format with
    | .json => (Json.ofMembers [("timestamp", .string instant), ("level", .string n.level.name),
        ("fields", fields)]).compact
    | .pretty => instant ++ " " ++ n.level.name ++ " " ++ fields.compact)

/-- A broker that runs. -/
structure Broker where
  format : LogFormat
  config : Config
  stores : IO.Ref Stores
  /-- When the next recovery is due. -/
  recoveryDue : IO.Ref Int

namespace Broker

/-- Answers a call. -/
def call (b : Broker) (c : Call) : IO c.Answer := do
  if let .note n := c then tell b.format n
  let reading : Call.Reading :=
    ⟨.ofMillis (← clock), ← freshToken, .ofMillis b.config.expirationMs⟩
  b.stores.modifyGet fun stores => stores.answer reading c

/-- Does work, call by call. -/
def perform {α : Type} (b : Broker) : Work α → IO α
  | .done a => return a
  | .call c next => do perform b (next (← b.call c))

/-- Makes a recovery if one is due. -/
def recover (b : Broker) : IO Unit := do
  let now ← clock
  if (← b.recoveryDue.get) ≤ now then
    b.recoveryDue.set (now + b.config.recoveryMs)
    b.perform (Recovery.tick b.config.registry)

/-- Answers one line. -/
def answerLine (b : Broker) (line : String) : IO String := do
  match Console.request? line with
  | none => return Console.unreadable
  | some r => b.perform (Console.answer b.config.registry ((← b.stores.get).storedCount + 2) r)

/-- Answers lines until there are no more. -/
partial def serve (b : Broker) (input output : IO.FS.Stream) : IO Unit := do
  let line ← input.getLine
  if line.isEmpty then return ()
  b.recover
  output.putStrLn (← b.answerLine line)
  output.flush
  b.serve input output

end Broker

/-- A session with a database that cannot be reached. -/
def unreachable : Database.Session := { isClosed := true }

/-- Runs the broker and answers the exit code. -/
def run : IO UInt32 := do
  let settings ← readVariables
  let lookup : Config.Lookup := fun name => settings.lookup name
  let format := LogFormat.ofSetting (lookup "AEON_LOG_FORMAT")
  let (result, notices) := Startup.start lookup unreachable fun _ => true
  notices.forM (tell format)
  match result with
  | .error obstacle =>
    (← IO.getStderr).putStrLn ("Error: " ++ ": ".intercalate obstacle.texts)
    return 1
  | .ok listening =>
    let broker : Broker :=
      ⟨format, listening.config, ← IO.mkRef listening.stores, ← IO.mkRef (← clock)⟩
    broker.serve (← IO.getStdin) (← IO.getStdout)
    Startup.stopped.forM (tell format)
    return 0

end EventRelay.Program

/-- Runs the broker. -/
def main : IO UInt32 := EventRelay.Program.run
