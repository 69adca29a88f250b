import EventRelay.Proofs.Broker.Offers
import EventRelay.Proofs.Delivery.HoldBack
import EventRelay.Proofs.Flow.Registrations
import EventRelay.Proofs.Recovery.Exact
import EventRelay.Proofs.Replay.Exact

/-!
# Every path delivers to the same flows

An event gets into lanes when it is published, when it is replayed and when it is recovered. Which
lanes these are depends on the calls that registered flows and on nothing else: of what comes up on
any of the paths, each flow gets just what its latest registration covers.
-/

namespace EventRelay.Registry

open Registration (Wants SameByName)
open Recovery (isOwed owed)

variable {calls : List Registration} {m : Memory} {batch : List Event} {l : EventLog}

/-- Each lane gets, behind what it has, those of the events coming up for its flow that the flow
`Wants` and that are not there yet. -/
def Delivers (calls : List Registration) (coming : String → List Event) (q q' : Queue Event) :
    Prop :=
  ∀ flow, (q.laneAt flow).Gains
    (fresh (q.laneAt flow).ids ((coming flow).filter fun e => Wants calls flow e)) (q'.laneAt flow)

/-- The stored events that are not `Settled` for a flow, by aggregates as they came first, and of
each aggregate in the order of revisions. -/
def unsettled (m : Memory) (flow : String) : List Event :=
  m.log.aggregates.flatMap fun x => (m.log.streamOf x.id).filter fun e =>
    !(m.progress.get flow e.aggregateId).isSettled e.revision

theorem filter_routesTo (calls : List Registration) (flow : String) (es : List Event) :
    (es.filter fun e => (ofCalls calls).routesTo e flow) =
      es.filter fun e => Wants calls flow e := by
  apply List.filter_congr
  intro e _
  rw [Bool.eq_iff_iff, routesTo_ofCalls_iff, decide_eq_true_iff]

/-- What recovery owes a flow is what is `unsettled` and the flow `Wants`. -/
theorem owed_eq (calls : List Registration) (m : Memory) (flow : String) :
    owed (ofCalls calls) m flow = (unsettled m flow).filter fun e => Wants calls flow e := by
  unfold owed unsettled
  rw [List.filter_flatMap]
  congr 1
  funext x
  rw [← filter_routesTo, List.filter_filter]
  rfl

/-! ## The three paths -/

/-- An accepted batch `Delivers` its events. -/
theorem delivers_publish (hq : m.queue.WF) (happend : m.log.append batch = .ok l) (clock : Clock) :
    ∃ m', Work.alone clock (Publish.publish (ofCalls calls) batch) m = (.ok (), m') ∧
      Delivers calls (fun _ => batch) m.queue m'.queue := by
  refine ⟨_, Publish.comes_publish_ok happend clock rfl, fun flow => ?_⟩
  have hgrown := hq.grown_putAll (Queue.deliveries (ofCalls calls) batch) flow
  rw [Queue.meantFor_deliveries (built_ofCalls calls), filter_routesTo] at hgrown
  rw [Publish.offerAll_eq_putAll]
  exact hgrown.gains

/-- A replay without bad windows `Delivers` what matches them. -/
theorem delivers_replay (hn : m.log.Numbered) (hq : m.queue.WF) {windows : List ReplayWindow}
    (hgood : ∀ w ∈ windows, ¬ Replay.Bad w) (clock : Clock) :
    ∃ report m', Work.alone clock (Replay.perform (ofCalls calls) windows) m = (.ok report, m') ∧
      Delivers calls (fun _ => windows.flatMap (Replay.matching m.log)) m.queue m'.queue := by
  obtain ⟨report, m', hcomes, hreplayed⟩ :=
    Replay.exists_comes_perform (built_ofCalls calls) hn hq hgood
  refine ⟨report, m', hcomes (clock 0) clock rfl, fun flow => ?_⟩
  rw [← filter_routesTo]
  exact (hreplayed.grown flow).gains

/-- A recovery `Delivers` what is `unsettled`. -/
theorem delivers_recovery (hn : m.log.Numbered) (hq : m.queue.WF) (clock : Clock) :
    ∃ report m', Work.alone clock (Recovery.run (ofCalls calls)) m = (.ok report, m') ∧
      Delivers calls (unsettled m) m.queue m'.queue := by
  refine ⟨_, _, Recovery.alone_run (ofCalls calls) clock m hn, fun flow => ?_⟩
  obtain ⟨new, hentries, hnew⟩ :=
    (Recovery.grown_effect (ofCalls calls) (clock 0).now hn hq (built_ofCalls calls) flow).gains
  rw [Queue.sweepLane_entries] at hentries
  rw [owed_eq] at hnew
  exact ⟨new, hentries, hnew⟩

/-! ## Ownership -/

/-- Who owns an event, by the calls that registered flows, and which runs `Delivers` it to whom. -/
structure Ownership (calls : List Registration) : Prop where
  /-- A call is accepted by its own name and texts, whatever was registered before. -/
  accepted : ∀ x : Registration,
    (∃ r, (ofCalls calls).register x.flow x.patterns = .ok r) ↔ x.Accepted
  ascending : ∀ e, ((ofCalls calls).owners e).Pairwise (· < ·)
  mem_owners : ∀ e flow, flow ∈ (ofCalls calls).owners e ↔ Wants calls flow e
  routesTo : ∀ e flow, (ofCalls calls).routesTo e flow = true ↔ Wants calls flow e
  /-- Asking each name in turn finds the same owners as going through the registry. -/
  filter_names : ∀ e,
    (ofCalls calls).names.filter ((ofCalls calls).routesTo e) = (ofCalls calls).owners e
  /-- In which order different names were registered does not matter. -/
  unordered : ∀ calls', SameByName calls' calls → ofCalls calls' = ofCalls calls
  /-- However the parties interleave and whatever fails, none puts an event into a lane of a flow
  that does not want it. -/
  offered : ∀ s, System.Reachable (ofCalls calls) s → ∀ p ∈ s.parties, ∀ x ∈ p.said,
    ∀ flow e priority, x.call = .queue (.enqueue flow e priority) → Wants calls flow e
  /-- A batch that the log takes is delivered when it is published. -/
  published : ∀ s, System.Reachable (ofCalls calls) s → ∀ batch l,
    s.memory.log.append batch = .ok l → ∀ clock, ∃ m',
      Work.alone clock (Publish.publish (ofCalls calls) batch) s.memory = (.ok (), m') ∧
      Delivers calls (fun _ => batch) s.memory.queue m'.queue
  /-- What is stored in the windows of a replay is delivered. -/
  replayed : ∀ s, System.Reachable (ofCalls calls) s → ∀ windows,
    (∀ w ∈ windows, ¬ Replay.Bad w) → ∀ clock, ∃ report m',
      Work.alone clock (Replay.perform (ofCalls calls) windows) s.memory = (.ok report, m') ∧
      Delivers calls (fun _ => windows.flatMap (Replay.matching s.memory.log)) s.memory.queue
        m'.queue
  /-- What is stored and not settled is delivered by a recovery. -/
  recovered : ∀ s, System.Reachable (ofCalls calls) s → ∀ clock, ∃ report m',
    Work.alone clock (Recovery.run (ofCalls calls)) s.memory = (.ok report, m') ∧
    Delivers calls (unsettled s.memory) s.memory.queue m'.queue

/-- **All paths agree on who owns an event.** Whatever calls registered flows, accepted or not, the
owners of an event are, in ascending order and once each, the flows whose latest registration covers
it, and the event is routed to just these. So publishing, replaying and recovering deliver it to the
same flows, and in no run does it get into the lane of another. -/
theorem all_paths_agree (calls : List Registration) : Ownership calls where
  accepted x := by simp [register_eq_ok_iff]
  ascending := (built_ofCalls calls).ascending_owners
  mem_owners _ _ := mem_owners_ofCalls_iff
  routesTo _ _ := routesTo_ofCalls_iff
  filter_names := (built_ofCalls calls).filter_names
  unordered _ h := ofCalls_congr h
  offered s hs p hp x hx flow e priority hcall := by
    have hrouted := (hs.offersOnly (built_ofCalls calls) p hp).2 x hx flow e priority hcall
    exact routesTo_ofCalls_iff.1 hrouted
  published s hs batch l happend clock := by
    obtain ⟨w, hw⟩ := hs.exists_world
    rw [← hw.memory] at happend ⊢
    exact delivers_publish w.lawful.stocked.wf happend clock
  replayed s hs windows hgood clock := by
    obtain ⟨w, hw⟩ := hs.exists_world
    rw [← hw.memory]
    exact delivers_replay w.lawful.numbered w.lawful.stocked.wf hgood clock
  recovered s hs clock := by
    obtain ⟨w, hw⟩ := hs.exists_world
    rw [← hw.memory]
    exact delivers_recovery w.lawful.numbered w.lawful.stocked.wf clock

/-- The second call of the name is refused for its second text, so the first still counts. -/
example : (ofCalls [⟨"mail", ["shop.*.*"]⟩, ⟨"audit", ["*.*.*"]⟩,
    ⟨"mail", ["bank.*.*", "order"]⟩]).owners (Sample.placed 1) = ["audit", "mail"] := by
  decide

end EventRelay.Registry
