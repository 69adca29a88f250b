import EventRelay.Client.Operation
import EventRelay.Main
import EventRelay.Proofs.Delivery.ExactlyOnce
import EventRelay.Proofs.Delivery.RevisionOrder
import EventRelay.Proofs.Handoff.Safety
import EventRelay.Proofs.Log.Cursors
import EventRelay.Proofs.Log.Views
import EventRelay.Proofs.Queue.Exclusion
import EventRelay.Proofs.Recovery.NothingLost
import EventRelay.Proofs.Recovery.Resumed
import EventRelay.Proofs.Waiting.WakeUps
import EventRelay.Simulation.Exchange
import EventRelay.Stream.Heartbeats
import EventRelay.Proofs.Delivery.Acceptance
import EventRelay.Proofs.Json.Shape
import EventRelay.Proofs.Log.Identity
import EventRelay.Proofs.Json.Lexing
import EventRelay.Proofs.Json.Keeping
import EventRelay.Proofs.Json.Yields
import EventRelay.Proofs.Wire.Values
import EventRelay.Proofs.Wire.RoundTrip
import EventRelay.Proofs.Client.Framing
import EventRelay.Proofs.Progress.Canonical
import EventRelay.Proofs.Flow.Built
import EventRelay.Proofs.Queue.Filling
import EventRelay.Proofs.Recovery.Owed
import EventRelay.Proofs.Recovery.Exact
import EventRelay.Proofs.Replay.Exact
import EventRelay.Proofs.Broker.Troubled
import EventRelay.Proofs.Delivery.HoldBack
import EventRelay.Proofs.Delivery.LinedUp
import EventRelay.Proofs.Flow.Patterns
import EventRelay.Proofs.Queue.Sweeps
import EventRelay.Proofs.Stream.Delivery
import EventRelay.Proofs.Stream.Timing
import EventRelay.Proofs.Config.Settings
import EventRelay.Proofs.Delivery.Ownership
import EventRelay.Proofs.Log.Snapshots
import EventRelay.Proofs.Queue.Representation
import EventRelay.Proofs.Broker.WithinLog
import EventRelay.Proofs.Expiry
