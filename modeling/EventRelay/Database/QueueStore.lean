import EventRelay.Database.Session
import EventRelay.Queue.Basic

/-!
# The queue in tables

A lane is locked by a row of its own, which names the entry that was handed out. Taking a lock is
decided by the database alone: the lock is put where none is live, and the transaction is committed
only if the head of the lane is still the entry that was chosen before. Acknowledging and deferring
act on the entry that the lock names, whatever stands at the head by then.
-/

namespace EventRelay.Database.QueueStore

variable {τ : Type}

/-- What is done in a statement, as failures name it. -/
def activity : Statement → String
  | .setup => "setup"
  | .begin => "begin_transaction"
  | .commit => "commit"
  | .rollback => "rollback"
  | .enqueue => "enqueue"
  | .leaseCandidate => "lease_candidate"
  | .laneHead => "lane_head"
  | .leaseClaim => "lease_claim"
  | .checkLock | .hasItems => "check_lock"
  | .renewLock => "renew_lock"
  | .releaseLock => "release_lock"
  | .acknowledge => "acknowledge"
  | .defer => "defer"
  | .sweep => "sweep_expired_locks"
  | .isQueued => "is_queued"
  | _ => ""

/-- What a failed statement means to users of the queue. -/
def refusal (st : Statement) : Failure → QueueError
  | .refused _ reason => .storage ("database error in " ++ activity st ++ ": " ++ reason)
  | .closed => .storage ("connection pool closed in " ++ activity st)
  | .unreadable => .storage ("sqlx error in " ++ activity st)

/-- An entry that cannot be read. -/
def unreadableItem : QueueError := .storage "failed to read queue row"

/-- A lock that cannot be read. -/
def unreadableLock : QueueError := .storage "failed to read lock row"

/-- The item of an entry. -/
def decode (c : Json.Codec τ) (payload : Json) : Except QueueError τ :=
  match c.ofJson payload with
  | .ok item => .ok item
  | .error _ => .error (.storage "failed to decode queued item")

/-- The first row that a statement gives, if it gives any. -/
def firstRow {α : Type} (st : Statement) (unreadable : QueueError) (rows : Tables → List α) :
    Script QueueError (Option α) := do
  match ← (select st rows).mapFailure (refusal st) with
  | [] => return none
  | some row :: _ => return some row
  | none :: _ => throw unreadable

/-- The truth value that a statement gives. -/
def isTrue (st : Statement) (holds : Tables → Bool) : Script QueueError Bool := do
  match ← (select st fun t => [holds t]).mapFailure (refusal st) with
  | some b :: _ => return b
  | _ => throw (refusal st .unreadable)

/-- Carries a statement out that only changes the tables. -/
def change (st : Statement) (f : Tables → Tables) : Script QueueError Unit :=
  (alter st f).mapFailure (refusal st)

/-- Carries statements out in a transaction, up to its end. -/
def inTransaction {α : Type} (body : Script QueueError α) : Script QueueError α :=
  transaction (refusal .begin) body

/-- Ends a transaction well. -/
def finish : Script QueueError Unit := commit.mapFailure (refusal .commit)

/-- The number of statements that make the tables. -/
def setupLength : Nat := 3

/-- Makes the tables. -/
def setup : Script QueueError Unit := do
  for _ in List.range setupLength do
    change .setup id

/-! ## Operations -/

/-- Puts an item at the end of a lane, unless its key is there. -/
def enqueue [Keyed τ] (c : Json.Codec τ) (lane : String) (item : τ) (priority : Int) :
    Script QueueError Unit := do
  let key := Keyed.key item
  let refuse : Failure → QueueError
    | .refused true _ => .itemAlreadyQueued lane key
    | e => refusal .enqueue e
  (attempt .enqueue fun t =>
    if t.hasKey lane key then .error (.refused true "")
    else .ok (t.insertItem lane key priority (c.encode item))).mapFailure refuse

/-- The sequence number of the entry that a live lock with the right token is on. -/
def lockedEntry (lock : Lock) : Script QueueError Nat := do
  let row? ← firstRow .checkLock unreadableLock fun t => (t.lock? lock.lane).toList
  let now := (← get).now
  match row?.filter fun row => now < row.expiresAt with
  | some row =>
    if row.token = lock.token then return row.sequence else throw (.tokenMismatch lock.lane)
  | none =>
    if ← isTrue .hasItems (·.hasItems lock.lane) then throw (.itemNotLocked lock.lane)
    else throw (.itemNotFound lock.lane)

/-- Locks the lane of a candidate. Nothing is locked if another lock on the lane is live, or if the
candidate is no longer the head. -/
def claim (candidate : ItemRow) (expiration : Duration) (fresh : Uuid) :
    Script QueueError (Option Lease) :=
  inTransaction do
    let now := (← get).now
    let lease := Lease.grant candidate.lane fresh now expiration
    let lock : LockRow := ⟨candidate.lane, fresh, lease.expiresAt, candidate.sequence⟩
    let claimed ← (query .leaseClaim fun t =>
      if t.isLocked now candidate.lane then ([], t) else ([()], t.putLock lock)).mapFailure
      (refusal .leaseClaim)
    if claimed.isEmpty then return none
    let head? ← firstRow .laneHead unreadableItem fun t => (t.head? candidate.lane).toList
    if head?.map ItemRow.sequence ≠ some candidate.sequence then
      rollback.mapFailure (refusal .rollback)
      return none
    finish
    return some lease

/-- Hands out the best candidate, after as many lost races as are left. -/
def leaseWithin (c : Json.Codec τ) (expiration : Duration) (fresh : Uuid) :
    (attempts : Nat) → Script QueueError (Option (LeasedItem τ))
  | 0 => return none
  | attempts + 1 => do
    let now := (← get).now
    match ← firstRow .leaseCandidate unreadableItem fun t => (t.candidate? now).toList with
    | none => return none
    | some candidate =>
      match ← claim candidate expiration fresh with
      | none => leaseWithin c expiration fresh attempts
      | some lease =>
        let item ← decode c candidate.payload
        return some ⟨item, candidate.priority, lease⟩

/-- How often a candidate is looked for. -/
def leaseAttempts : Nat := 3

/-- Hands out the head that comes first among those of lanes without a live lock. -/
def lease (c : Json.Codec τ) (expiration : Duration) (fresh : Uuid) :
    Script QueueError (Option (LeasedItem τ)) :=
  leaseWithin c expiration fresh leaseAttempts

/-- Lets a live lock run from now on. -/
def renew (lock : Lock) (expiration : Duration) : Script QueueError Unit :=
  inTransaction do
    let _ ← lockedEntry lock
    let expiresAt := (← get).now.addSaturating expiration
    change .renewLock fun t => { t with locks := t.locks.map fun row =>
      if row.lane == lock.lane then { row with expiresAt } else row }
    finish

/-- Takes the lock off its lane and ends the transaction. -/
def unlock (lane : String) : Script QueueError Unit := do
  change .releaseLock (·.removeLock lane)
  finish

/-- Takes a live lock off its lane. -/
def release (lock : Lock) : Script QueueError Unit :=
  inTransaction do
    let _ ← lockedEntry lock
    unlock lock.lane

/-- Takes the locked entry out, and the lock with it. -/
def acknowledge (c : Json.Codec τ) (lock : Lock) : Script QueueError τ := do
  let payload ← inTransaction do
    let sequence ← lockedEntry lock
    let rows ← (query .acknowledge fun t =>
      ((t.item? lock.lane sequence).toList, t.removeItem lock.lane sequence)).mapFailure
      (refusal .acknowledge)
    match rows with
    | [] => throw (.itemNotFound lock.lane)
    | none :: _ => throw (refusal .acknowledge .unreadable)
    | some row :: _ =>
      unlock lock.lane
      return row.payload
  decode c payload

/-- Moves the locked entry to the end of its lane with another priority, and takes the lock off. -/
def defer (lock : Lock) (priority : Int) : Script QueueError Unit :=
  inTransaction do
    let sequence ← lockedEntry lock
    let (isThere, _) ← (execute .defer fun t =>
      .ok ((t.item? lock.lane sequence).isSome, t.moveItem lock.lane sequence priority)).mapFailure
      (refusal .defer)
    if !isThere then throw (.itemNotFound lock.lane)
    unlock lock.lane

/-- Takes all locks off that have run out. -/
def sweep : Script QueueError (List Lease) := do
  let now := (← get).now
  let rows ← (query .sweep fun t =>
    let (expired, live) := t.locks.partition fun row => row.expiresAt ≤ now
    (expired, { t with locks := live })).mapFailure (refusal .sweep)
  rows.mapM fun
    | some row => return ⟨row.lane, row.token, row.expiresAt⟩
    | none => throw unreadableLock

/-- A lane holds an entry with the key. -/
def isQueued (lane key : String) : Script QueueError Bool :=
  isTrue .isQueued (·.hasKey lane key)

end EventRelay.Database.QueueStore
