import EventRelay.Instant
import EventRelay.Uuid

/-!
# Leases

A lease is the claim of one worker on the head of a lane for a length of time. Whoever holds its
token holds the lease.
-/

namespace EventRelay

/-- The claim on the head of a lane, up to an instant. -/
structure Lease where
  lane : String
  token : Uuid
  expiresAt : Instant
  deriving DecidableEq, Inhabited

/-- What a worker needs to end or renew a lease. -/
structure Lock where
  lane : String
  token : Uuid
  deriving DecidableEq, Inhabited

namespace Lease

/-- The lease with a fresh token from `now` on. -/
def grant (lane : String) (token : Uuid) (now : Instant) (expiration : Duration) : Lease where
  lane := lane
  token := token
  expiresAt := now.addSaturating expiration

/-- A lease is over from the instant of its expiry on. -/
def isExpiredAt (l : Lease) (now : Instant) : Bool := decide (l.expiresAt ≤ now)

/-- The same lease from `now` on. -/
def renew (l : Lease) (now : Instant) (expiration : Duration) : Lease :=
  { l with expiresAt := now.addSaturating expiration }

/-- The lane and the token. -/
def lock (l : Lease) : Lock := ⟨l.lane, l.token⟩

end Lease

end EventRelay
