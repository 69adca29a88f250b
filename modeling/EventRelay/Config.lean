import EventRelay.Flow.Registry
import EventRelay.Text.Numeral

/-!
# Configuration

The settings come from named variables. A variable that is not set leaves the default, and a set one
is read without its outer blanks. The first setting in their order that cannot be read is reported.
-/

namespace EventRelay

/-- All settings of the program. Intervals are in milliseconds and positive. -/
structure Config where
  port : Nat := 3000
  expirationMs : Nat := 15000
  recoveryMs : Nat := 30000
  heartbeatMs : Nat := 90000
  pollMs : Nat := 500
  persistent : Bool := false
  databaseUrl : Option String := none
  registry : Registry := {}
  deriving Inhabited

/-- Why the settings cannot be used. -/
inductive ConfigError where
  /-- The value of a variable is not accepted. -/
  | invalid (key value reason : String)
  /-- Stores are to persist and no database is named. -/
  | missingDatabaseUrl
  /-- The flows are not accepted. -/
  | flows (error : FlowError)
  deriving DecidableEq, Repr

namespace ConfigError

/-- The text of the error. -/
def message : ConfigError → String
  | invalid key value reason => "invalid value '" ++ value ++ "' for " ++ key ++ ": " ++ reason
  | missingDatabaseUrl => "DATABASE_URL must be set when AEON_USE_PERSISTENT_STORES=true"
  | flows e => "invalid AEON_FLOWS: " ++ e.message

end ConfigError

namespace Config

/-- The values of variables that are set. -/
abbrev Lookup := String → Option String

/-- A number up to `limit`, or the default where the variable is not set. -/
def natural (lookup : Lookup) (key : String) (limit default : Nat) : Except ConfigError Nat :=
  match lookup key with
  | none => .ok default
  | some raw =>
    match Text.natural? limit (Text.trim raw) with
    | .ok n => .ok n
    | .error e => .error (.invalid key raw e.message)

/-- A positive number of milliseconds below `2 ^ 64`. -/
def interval (lookup : Lookup) (key : String) (default : Nat) : Except ConfigError Nat :=
  match natural lookup key (Nat.pow 2 64 - 1) default with
  | .error e => .error e
  | .ok 0 => .error (.invalid key "0" "must be greater than zero")
  | .ok n => .ok n

/-- `true` or `false`, or the default where the variable is not set. -/
def truth (lookup : Lookup) (key : String) (default : Bool) : Except ConfigError Bool :=
  match lookup key with
  | none => .ok default
  | some raw =>
    match Text.trim raw with
    | "true" => .ok true
    | "false" => .ok false
    | _ => .error (.invalid key raw "provided string was not \x60true\x60 or \x60false\x60")

/-- The value of a variable, unless it is blank. -/
def unlessBlank (lookup : Lookup) (key : String) : Option String :=
  (lookup key).filter fun raw => !Text.isBlank raw

/-- The name of the database, which persistent stores cannot do without. -/
def database (lookup : Lookup) (persistent : Bool) : Except ConfigError (Option String) :=
  match persistent, unlessBlank lookup "DATABASE_URL" with
  | true, none => .error .missingDatabaseUrl
  | _, url => .ok url

/-- The registered flows; none where the variable is not set or blank. -/
def flows (lookup : Lookup) : Except ConfigError Registry :=
  match unlessBlank lookup "AEON_FLOWS" with
  | none => .ok .empty
  | some raw =>
    match Registry.ofJson raw with
    | .ok r => .ok r
    | .error e => .error (.flows e)

/-- Reads all settings. -/
def ofLookup (lookup : Lookup) : Except ConfigError Config := do
  let port ← natural lookup "AEON_PORT" 65535 3000
  let expirationMs ← interval lookup "AEON_EXPIRATION_TIME_MS" 15000
  let recoveryMs ← interval lookup "AEON_MISSED_DOMAIN_EVENT_RECOVERY_INTERVAL_MS" 30000
  let heartbeatMs ← interval lookup "AEON_HEARTBEAT_INTERVAL_MS" 90000
  let pollMs ← interval lookup "AEON_QUEUE_POLL_INTERVAL_MS" 500
  let persistent ← truth lookup "AEON_USE_PERSISTENT_STORES" false
  let databaseUrl ← database lookup persistent
  let registry ← flows lookup
  return { port, expirationMs, recoveryMs, heartbeatMs, pollMs, persistent, databaseUrl, registry }

end Config

/-- How log lines are written. -/
inductive LogFormat where
  | json
  | pretty
  deriving DecidableEq, Repr

namespace LogFormat

/-- The name of a format. -/
def name : LogFormat → String
  | json => "Json"
  | pretty => "Pretty"

/-- The format a variable asks for: `pretty` in any case, and JSON for all else. -/
def ofSetting (value : Option String) : LogFormat :=
  match value with
  | some raw => if (Text.trim raw).map Char.toLower = "pretty" then pretty else json
  | none => json

end LogFormat

end EventRelay
