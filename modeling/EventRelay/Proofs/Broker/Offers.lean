import EventRelay.Proofs.Broker.Sound
import EventRelay.Proofs.Flow.Built

/-!
# What may be put into lanes

A party enqueues nothing but what its work lets it enqueue, whatever its calls are answered and
whoever calls in between. Publishing, replaying and recovering put an event only into lanes of flows
that it is routed to: the first two go through the owners of the event, recovery goes through the
names and asks of each whether the event is routed there. So that holds of everything that is ever
put into a lane.
-/

namespace EventRelay

variable {registry : Registry} {α β ε : Type} {P : String → Event → Prop}

/-- The call enqueues nothing, or an event in a lane where `P` lets it be. -/
def Call.OffersOnly (P : String → Event → Prop) (c : Call) : Prop :=
  ∀ flow e priority, c = .queue (.enqueue flow e priority) → P flow e

/-- Whatever its calls are answered, the work enqueues events only in lanes where `P` lets them
be. -/
def OffersOnly (P : String → Event → Prop) : Work α → Prop
  | .done _ => True
  | .call c next => c.OffersOnly P ∧ ∀ a, OffersOnly P (next a)

namespace OffersOnly

/-- `OffersOnly` goes through a sequence, whatever the first part ends with. -/
theorem bind {p : Work α} {f : α → Work β} (h : OffersOnly P p) (hf : ∀ a, OffersOnly P (f a)) :
    OffersOnly P (p >>= f) := by
  induction p with
  | done a => exact hf a
  | call c next ih => exact ⟨h.1, fun a => ih a (h.2 a)⟩

theorem pure (a : α) : OffersOnly P (Pure.pure a : Work α) := trivial

theorem log (c : LogCall) : OffersOnly P (Work.log c) := ⟨nofun, fun _ => trivial⟩

theorem progress (c : ProgressCall) : OffersOnly P (Work.progress c) := ⟨nofun, fun _ => trivial⟩

theorem wake : OffersOnly P Work.wake := ⟨nofun, fun _ => trivial⟩

theorem note (n : Notice) : OffersOnly P (Work.note n) := ⟨nofun, fun _ => trivial⟩

/-- A call on the queue other than `QueueCall.enqueue`. -/
theorem queue {c : QueueCall Event} (hc : ∀ flow e priority, c ≠ .enqueue flow e priority) :
    OffersOnly P (Work.queue c) :=
  ⟨fun flow e priority h => absurd (Call.queue.inj h) (hc flow e priority), fun _ => trivial⟩

theorem wake_done (a : α) : OffersOnly P (Work.wake >>= fun _ => Pure.pure a) :=
  wake.bind fun _ => pure a

theorem note_done (n : Notice) (a : α) : OffersOnly P (Work.note n >>= fun _ => Pure.pure a) :=
  (note n).bind fun _ => pure a

end OffersOnly

/-! ## Handing out -/

namespace Dispatch

/-- `enqueue` makes its call on the queue for the flow and the event it was given. -/
theorem offers_enqueue {flow : String} {e : Event} (h : P flow e) (priority : Int) :
    OffersOnly P (enqueue flow e priority) := by
  have hcall : OffersOnly P (Work.queue (.enqueue flow e priority)) := by
    refine ⟨fun flow' e' priority' heq => ?_, fun _ => trivial⟩
    obtain ⟨rfl, rfl, -⟩ := QueueCall.enqueue.inj (Call.queue.inj heq)
    exact h
  refine hcall.bind fun out => ?_
  cases out with
  | ok => exact .wake_done _
  | error => exact .pure _

/-- A call on the queue other than `QueueCall.enqueue`, and what is done when it succeeds. -/
theorem offers_settle {c : QueueCall Event} {f : c.Answer → Work α}
    (hc : ∀ flow e priority, c ≠ .enqueue flow e priority) (hf : ∀ out, OffersOnly P (f out)) :
    OffersOnly P (Work.queue c >>= f) :=
  (OffersOnly.queue hc).bind hf

theorem offers_sweep : OffersOnly P sweep := by
  refine offers_settle nofun fun out => ?_
  split
  · exact .pure _
  · exact .pure _
  · exact .wake_done _

theorem offers_acknowledge (lock : Lock) : OffersOnly P (acknowledge lock) := by
  refine offers_settle nofun fun out => ?_
  cases out with
  | error => exact .pure _
  | ok e =>
    refine OffersOnly.wake.bind fun _ => (OffersOnly.progress _).bind fun out => ?_
    cases out with
    | error => exact (OffersOnly.note _).bind fun _ => .note_done _ _
    | ok => exact .note_done _ _

end Dispatch

/-! ## Work that stops at the first failure -/

/-- `OffersOnly` of work that may fail. -/
def PartOffersOnly (P : String → Event → Prop) (x : ExceptT ε (Procedure Call Call.Answer) α) :
    Prop :=
  OffersOnly P x.run

namespace PartOffersOnly

variable {x : ExceptT ε (Procedure Call Call.Answer) α}

theorem pure (a : α) :
    PartOffersOnly P (Pure.pure a : ExceptT ε (Procedure Call Call.Answer) α) := trivial

theorem throw (e : ε) :
    PartOffersOnly P (MonadExcept.throw e : ExceptT ε (Procedure Call Call.Answer) α) := trivial

/-- `OffersOnly.bind` for work that may fail. What follows a failure makes no call. -/
theorem bind {f : α → ExceptT ε (Procedure Call Call.Answer) β} (h : PartOffersOnly P x)
    (hf : ∀ a, PartOffersOnly P (f a)) : PartOffersOnly P (x >>= f) := by
  refine OffersOnly.bind h fun out => ?_
  cases out with
  | ok a => exact hf a
  | error => exact .pure _

/-- Work whose result is taken as it is, or with its failure as one of the whole. -/
theorem of_work {p : Work α} {f : α → Procedure Call Call.Answer (Except ε β)}
    (h : OffersOnly P p) (hf : ∀ a, OffersOnly P (f a)) :
    PartOffersOnly P (ExceptT.mk (p >>= f)) :=
  OffersOnly.bind h hf

end PartOffersOnly

/-! ## The three paths -/

namespace Publish

/-- `enqueueFor` tries the one flow it is given, or holds the event back from it. -/
theorem offers_enqueueFor {e : Event} {flow : String} (h : P flow e) (heldBack : HeldBack) :
    OffersOnly P (enqueueFor e heldBack flow) := by
  unfold enqueueFor
  split
  · exact .note_done _ _
  · refine (Dispatch.offers_enqueue h _).bind fun out => ?_
    split
    · exact .note_done _ _
    · exact .pure _
    · exact .note_done _ _

theorem offers_enqueueForAll {e : Event} {flows : List String} (h : ∀ flow ∈ flows, P flow e)
    (heldBack : HeldBack) : OffersOnly P (enqueueForAll e flows heldBack) := by
  induction flows generalizing heldBack with
  | nil => exact .pure _
  | cons flow flows ih =>
    obtain ⟨hfirst, hrest⟩ := List.forall_mem_cons.1 h
    exact (offers_enqueueFor hfirst heldBack).bind fun heldBack => ih hrest heldBack

theorem offers_enqueueBatch (h : ∀ e, ∀ flow ∈ registry.owners e, P flow e) (batch : List Event)
    (heldBack : HeldBack) : OffersOnly P (enqueueBatch registry batch heldBack) := by
  induction batch generalizing heldBack with
  | nil => exact .pure _
  | cons e rest ih => exact (offers_enqueueForAll (h e) heldBack).bind fun heldBack => ih heldBack

/-- A batch is enqueued for `Registry.owners` only, so publishing offers as they allow. -/
theorem offers_publish (h : ∀ e, ∀ flow ∈ registry.owners e, P flow e) (batch : List Event) :
    OffersOnly P (publish registry batch) := by
  refine (OffersOnly.log _).bind fun out => ?_
  cases out with
  | error => exact .pure _
  | ok => exact (offers_enqueueBatch h batch []).bind fun _ => .pure _

end Publish

namespace Replay

theorem offers_always {p : Work α} (h : OffersOnly P p) : PartOffersOnly P (always p) :=
  .of_work h fun _ => .pure _

theorem offers_enqueueForAll {e : Event} {flows : List String} (h : ∀ flow ∈ flows, P flow e)
    (report : ReplayReport) : PartOffersOnly P (enqueueForAll e flows report) := by
  induction flows generalizing report with
  | nil => exact .pure _
  | cons flow flows ih =>
    obtain ⟨hfirst, hrest⟩ := List.forall_mem_cons.1 h
    refine (offers_always (Dispatch.offers_enqueue hfirst _)).bind fun out => ?_
    split
    · exact ih hrest _
    · exact ih hrest _
    · exact .throw _

/-- A replay enqueues an event for its owners, as publishing does. -/
theorem offers_walk (h : ∀ e, ∀ flow ∈ registry.owners e, P flow e) (w : ReplayWindow)
    (count : Nat) (reader : Reader) (report : ReplayReport) :
    PartOffersOnly P (walk registry w count reader report) := by
  induction count generalizing reader report with
  | zero => exact .pure _
  | succ count ih =>
    refine (offers_always (.log _)).bind fun out => ?_
    split
    · exact .pure _
    · exact .throw _
    · refine PartOffersOnly.bind ?_ fun report => ih _ report
      unfold visit
      split
      · exact offers_enqueueForAll (h _) report
      · exact (offers_always (.note _)).bind fun _ => .pure _

theorem offers_visitWindows (h : ∀ e, ∀ flow ∈ registry.owners e, P flow e)
    (windows : List (ReplayWindow × RevisionRange)) (report : ReplayReport) :
    PartOffersOnly P (visitWindows registry windows report) := by
  induction windows generalizing report with
  | nil => exact .pure _
  | cons x rest ih =>
    refine (offers_always (.log _)).bind fun out => ?_
    split
    · exact .throw _
    · exact (offers_walk h _ _ _ _).bind fun report => ih report

/-- A replay offers events to `Registry.owners` only. -/
theorem offers_perform (h : ∀ e, ∀ flow ∈ registry.owners e, P flow e)
    (windows : List ReplayWindow) : OffersOnly P (perform registry windows) := by
  have hparts : PartOffersOnly P (parts registry windows) := by
    have hranges : PartOffersOnly P (ExceptT.mk (Pure.pure (ranges windows))) := trivial
    refine hranges.bind fun found => ?_
    refine (offers_visitWindows h found {}).bind fun report => ?_
    exact (offers_always (.note _)).bind fun _ => .pure _
  refine OffersOnly.bind hparts fun out => ?_
  cases out with
  | ok => exact .pure _
  | error => exact .note_done _ _

end Replay

namespace Recovery

theorem offers_always {p : Work α} (h : OffersOnly P p) : PartOffersOnly P (always p) :=
  .of_work h fun _ => .pure _

theorem offers_onLog {p : Work (Except LogError α)} (h : OffersOnly P p) :
    PartOffersOnly P (onLog p) :=
  .of_work h fun out => by cases out <;> exact .pure _

theorem offers_onQueue {p : Work (Except QueueError α)} (h : OffersOnly P p) :
    PartOffersOnly P (onQueue p) :=
  .of_work h fun out => by cases out <;> exact .pure _

theorem offers_onProgress {p : Work (Except ProgressError α)} (h : OffersOnly P p) :
    PartOffersOnly P (onProgress p) :=
  .of_work h fun out => by cases out <;> exact .pure _

/-- Recovery enqueues an event for the flow it visits, and only if `Registry.routesTo` says so. -/
theorem offers_visit {flow : String} (h : ∀ e, registry.routesTo e flow = true → P flow e)
    (p : Progress) (w : Walk) (e : Event) : PartOffersOnly P (visit registry flow p w e) := by
  unfold visit
  cases hroute : registry.routesTo e flow with
  | false =>
    simp only [Bool.not_false, Bool.true_or, if_true]
    split <;> exact .pure _
  | true =>
    have hguarded : PartOffersOnly P (always (Dispatch.enqueue flow e e.timestamp)) :=
      offers_always (Dispatch.offers_enqueue (h e hroute) _)
    simp only [Bool.not_true, Bool.false_or]
    split
    · split <;> exact .pure _
    · refine hguarded.bind fun out => ?_
      split
      · exact (offers_always (.note _)).bind fun _ => .pure _
      · exact .pure _
      · exact .throw _

theorem offers_walk {flow : String} (h : ∀ e, registry.routesTo e flow = true → P flow e)
    (p : Progress) (count : Nat) (reader : Reader) (w : Walk) :
    PartOffersOnly P (walk registry flow p count reader w) := by
  induction count generalizing reader w with
  | zero => exact .pure _
  | succ count ih =>
    refine (offers_always (.log _)).bind fun out => ?_
    split
    · exact .pure _
    · exact .throw _
    · exact (offers_visit h p w _).bind fun w => ih _ w

theorem offers_visitFlow {flow : String} (h : ∀ e, registry.routesTo e flow = true → P flow e)
    (a : Uuid) (latest : Nat) (report : RecoveryReport) :
    PartOffersOnly P (visitFlow registry a latest report flow) := by
  refine (offers_onProgress (.progress _)).bind fun p => ?_
  split
  · exact .pure _
  · refine (offers_onLog (.pure _)).bind fun range => (offers_onLog (.log _)).bind fun reader => ?_
    refine (offers_walk h p _ reader _).bind fun w => ?_
    split
    · exact (offers_onProgress (.progress _)).bind fun _ => .pure _
    · exact .pure _

theorem offers_visitFlows (h : ∀ e flow, registry.routesTo e flow = true → P flow e) (a : Uuid)
    (latest : Nat) (flows : List String) (report : RecoveryReport) :
    PartOffersOnly P (visitFlows registry a latest flows report) := by
  induction flows generalizing report with
  | nil => exact .pure _
  | cons flow flows ih =>
    exact (offers_visitFlow (fun e => h e flow) a latest report).bind fun report => ih report

theorem offers_visitAggregates (h : ∀ e flow, registry.routesTo e flow = true → P flow e)
    (delivered : List (Except LogError Aggregate)) (report : RecoveryReport) :
    PartOffersOnly P (visitAggregates registry delivered report) := by
  induction delivered generalizing report with
  | nil => exact .pure _
  | cons x rest ih =>
    refine (offers_onLog (.log _)).bind fun aggregate => ?_
    refine (offers_always (.log _)).bind fun out => ?_
    split
    · exact (offers_visitFlows h _ _ _ _).bind fun report => ih report
    · exact ih _
    · exact .throw _

theorem offers_sweepLeases : PartOffersOnly P sweepLeases := by
  refine (offers_onQueue Dispatch.offers_sweep).bind fun expired => ?_
  refine PartOffersOnly.bind ?_ fun _ => .pure _
  induction expired with
  | nil => exact .pure _
  | cons lease rest ih =>
    rw [List.forIn_cons]
    refine ((offers_always (.note _)).bind fun _ => .pure _).bind fun step => ?_
    cases step with
    | done => exact .pure _
    | yield => exact ih

/-- A tick offers events only as `Registry.routesTo` allows. -/
theorem offers_run (h : ∀ e flow, registry.routesTo e flow = true → P flow e) :
    OffersOnly P (run registry) := by
  have hparts : PartOffersOnly P (parts registry) := by
    refine offers_sweepLeases.bind fun _ => ?_
    split
    · exact .pure _
    · exact (offers_onLog (.log _)).bind fun delivered => offers_visitAggregates h delivered _
  exact hparts

end Recovery

/-! ## All parties -/

/-- A task of a built registry puts an event only into lanes of flows that `Registry.routesTo`
has. -/
theorem Task.offersOnly (hreg : registry.Built) (t : Task) :
    OffersOnly (fun flow e => registry.routesTo e flow = true) (t.work registry) := by
  cases t with
  | publish batch => exact Publish.offers_publish (fun _ _ => hreg.mem_owners_iff.1) batch
  | replay windows => exact Replay.offers_perform (fun _ _ => hreg.mem_owners_iff.1) windows
  | recover => exact Recovery.offers_run fun _ _ h => h
  | lease =>
    refine Dispatch.offers_settle nofun fun out => ?_
    split
    · exact .note_done _ _
    · exact .pure _
  | renew lock => exact .queue nofun
  | release | defer =>
    refine Dispatch.offers_settle nofun fun out => ?_
    cases out with
    | ok => exact .wake_done _
    | error => exact .pure _
  | acknowledge lock => exact Dispatch.offers_acknowledge lock
  | sweep => exact Dispatch.offers_sweep

namespace System

variable {s s' : System}

/-- No party enqueued, or is about to enqueue, an event where `P` does not let it be. -/
def OffersOnly (P : String → Event → Prop) (s : System) : Prop :=
  ∀ p ∈ s.parties, EventRelay.OffersOnly P p.rest ∧ ∀ x ∈ p.said, x.call.OffersOnly P

/-- `System.OffersOnly` is kept by each `Step`: a party goes on with the rest of its work, a new one
starts a task. -/
theorem OffersOnly.step (ht : ∀ t : Task, EventRelay.OffersOnly P (t.work registry))
    (h : s.OffersOnly P) (hs : Step registry s s') : s'.OffersOnly P := by
  refine hs.forall_parties h (fun t => ⟨ht t, List.forall_mem_nil _⟩) ?_ fun _ => id
  rintro t c a next said - ⟨⟨hcall, hnext⟩, hsaid⟩
  refine ⟨hnext a, List.forall_mem_append.2 ⟨hsaid, ?_⟩⟩
  exact List.forall_mem_singleton.2 hcall

/-- **Nobody puts an event into a lane of a flow that does not want it**, however the parties
interleave and whatever fails. -/
theorem Reachable.offersOnly (hreg : registry.Built) (hs : Reachable registry s) :
    s.OffersOnly fun flow e => registry.routesTo e flow = true := by
  induction hs with
  | refl => exact List.forall_mem_nil _
  | tail _ hstep ih => exact ih.step (Task.offersOnly hreg) hstep

end System

end EventRelay
