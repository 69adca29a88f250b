import EventRelay.Lease
import EventRelay.Json.Basic
import EventRelay.Replay.Window
import EventRelay.Text.Visible

/-!
# Notices

What the program tells those who run it. A notice says what happened; its level, its words and its
fields follow from that.
-/

namespace EventRelay

/-- How much a notice matters. -/
inductive Level where
  | debug
  | info
  | warn
  | error
  deriving DecidableEq, Repr

namespace Level

/-- The name of a level. -/
def name : Level → String
  | debug => "DEBUG"
  | info => "INFO"
  | warn => "WARN"
  | error => "ERROR"

end Level

/-- What one recovery did. -/
structure RecoveryReport where
  expiredLeases : Nat := 0
  aggregatesChecked : Nat := 0
  reEnqueued : Nat := 0
  alreadyQueued : Nat := 0
  deriving DecidableEq, Inhabited

/-- An event of a flow: the flow, the aggregate and the revision. -/
structure Subject where
  flow : String
  aggregate : Uuid
  revision : Nat
  deriving DecidableEq

/-- Something worth telling. -/
inductive Notice where
  | enqueued (s : Subject)
  | heldBack (s : Subject)
  | leftForRecovery (s : Subject) (error : String)
  | leased (flow : String) (revision : Nat)
  | recordFailed (s : Subject) (error : String)
  | acknowledged (s : Subject)
  | consumerLeft
  | leaseReleased (flow : String) (revision : Nat)
  | releaseFailed (flow : String) (error : String)
  | leaseExpired (lease : Lease)
  | reEnqueued (s : Subject)
  | recoveryStarted (intervalMs : Nat)
  | recoveryTick (report : RecoveryReport)
  | recoveryIdle (aggregatesChecked : Nat)
  | recoveryFailed (error : String)
  | recoveryStopped
  | skipped (aggregate : Uuid) (revision : Nat)
  | replayed (report : ReplayReport)
  | replayFailed (error : String)
  | streamLeft
  | streamAborted (error : String)
  | queueFailed (error : String)
  | logFailed (error : String)
  | storesInMemory
  | storesInDatabase
  | listening (address : String) (flows : List String)
  | shutDown

namespace Notice

/-- How much the notice matters. -/
def level : Notice → Level
  | enqueued _ | heldBack _ | leased .. | acknowledged _ | consumerLeft | recoveryIdle _
  | skipped .. | streamLeft => .debug
  | leaseReleased .. | reEnqueued _ | recoveryStarted _ | recoveryTick _ | recoveryStopped
  | replayed _ | storesInMemory | storesInDatabase | listening .. | shutDown => .info
  | leftForRecovery .. | recordFailed .. | releaseFailed .. | leaseExpired _ | recoveryFailed _
  | streamAborted _ => .warn
  | replayFailed _ | queueFailed _ | logFailed _ => .error

/-- The words of the notice; some have none besides their fields. -/
def message : Notice → Option String
  | enqueued _ => some "enqueued domain event"
  | heldBack _ => some "enqueue held back behind an earlier failure"
  | leftForRecovery .. => some "enqueue after append failed; left for recovery"
  | leased .. => some "leased domain event"
  | recordFailed .. => some "failed to record consumer progress"
  | acknowledged _ => some "acknowledged domain event"
  | consumerLeft => some "consumer went away while waiting for an item"
  | leaseReleased .. => some "consumer disconnected before delivery; lease released"
  | releaseFailed .. => some "failed to release abandoned lease; it will expire"
  | leaseExpired _ => some "lease expired without acknowledgement; item is leasable again"
  | reEnqueued _ => some "re-enqueued missed domain event"
  | recoveryStarted _ => some "recovery loop started"
  | recoveryTick _ => some "recovery tick"
  | recoveryIdle _ => some "recovery tick found nothing to do"
  | recoveryFailed _ => some "recovery tick failed"
  | recoveryStopped => some "recovery loop stopped"
  | skipped .. => some "skipping event from another context"
  | replayed _ => some "replay performed"
  | replayFailed _ => none
  | streamLeft => some "stream consumer went away"
  | streamAborted _ => some "aborting stream"
  | queueFailed _ => some "priority queue operation failed"
  | logFailed _ => some "domain event store operation failed"
  | storesInMemory => some "using in-memory stores"
  | storesInDatabase => some "using Postgres stores"
  | listening .. => some "listening"
  | shutDown => some "shut down"

/-- A character as it stands between quotes. -/
def quotedChar (c : Char) : List Char :=
  match c with
  | '"' | '\\' => ['\\', c]
  | '\n' => ['\\', 'n']
  | '\r' => ['\\', 'r']
  | '\t' => ['\\', 't']
  | '\x00' => ['\\', '0']
  | c =>
    if Text.isVisible c then [c]
    else ['\\', 'u', '\x7b'] ++ Nat.toDigits 16 c.toNat ++ ['\x7d']

/-- A name between quotes, with what would not show written as its number. -/
def quoted (name : String) : String :=
  "\"" ++ String.ofList (name.toList.flatMap quotedChar) ++ "\""

/-- Names between quotes, in brackets. -/
def quotedList (names : List String) : String :=
  "[" ++ ", ".intercalate (names.map quoted) ++ "]"

/-- The fields that name an event of a flow. -/
def subjectFields (s : Subject) : List (String × Json) :=
  [("discriminator", .string s.flow), ("aggregate_id", .string (toString s.aggregate)),
    ("revision", .nat s.revision)]

/-- The fields of the notice. -/
def fields : Notice → List (String × Json)
  | enqueued s | heldBack s | acknowledged s | reEnqueued s => subjectFields s
  | leftForRecovery s e | recordFailed s e => subjectFields s ++ [("error", .string e)]
  | leased flow revision | leaseReleased flow revision =>
    [("discriminator", .string flow), ("revision", .nat revision)]
  | releaseFailed flow e => [("discriminator", .string flow), ("error", .string e)]
  | leaseExpired l =>
    [("discriminator", .string l.lane), ("token", .string (toString l.token)),
      ("expired_at", .string l.expiresAt.toLogText)]
  | recoveryStarted ms => [("interval_ms", .nat ms)]
  | recoveryTick r =>
    [("expired_leases", .nat r.expiredLeases), ("re_enqueued", .nat r.reEnqueued),
      ("already_queued", .nat r.alreadyQueued), ("aggregates_checked", .nat r.aggregatesChecked)]
  | recoveryIdle n => [("aggregates_checked", .nat n)]
  | skipped aggregate revision =>
    [("aggregate_id", .string (toString aggregate)), ("revision", .nat revision)]
  | replayed r => [("enqueued", .nat r.enqueued), ("already_queued", .nat r.alreadyQueued)]
  | recoveryFailed e | replayFailed e | streamAborted e | queueFailed e | logFailed e =>
    [("error", .string e)]
  | listening address flows =>
    [("addr", .string address), ("flows", .string (quotedList flows))]
  | consumerLeft | recoveryStopped | streamLeft | storesInMemory | storesInDatabase
  | shutDown => []

/-- The words and fields of the notice as one object. -/
def toJson (n : Notice) : Json :=
  match n.message with
  | some m => .object (("message", .string m) :: n.fields)
  | none => .object n.fields

end Notice

end EventRelay
