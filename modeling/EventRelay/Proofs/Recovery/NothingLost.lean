import EventRelay.Proofs.Broker.Settled
import EventRelay.Proofs.Recovery.Drain

/-!
# No event is lost

Whatever the parties did and wherever they stopped, one recovery brings back every event that a flow
wants and that it has not settled. A worker then only has to take what waits.
-/

namespace EventRelay.Recovery

variable {registry : Registry} {s : System}

/-- **No event is lost.** From any state that can be reached, with different ids of events: once
all leases have run out, a recovery without failures succeeds; draining the lanes then ends, after
as many rounds as there are entries; every stored event is settled then for every flow that wants
it; and another recovery enqueues nothing and leaves every watermark at the latest revision. -/
theorem no_event_lost (hs : System.Reachable registry s) (hids : s.memory.log.DistinctIds)
    (clock : Clock)
    (hexp : ∀ name lease, (s.memory.queue.laneAt name).lease = some lease →
      lease.isExpiredAt (clock 0).now = true)
    (rounds : Nat → Clock × Clock) (hrounds : InTime rounds) :
    ∃ report m₁, Work.alone clock (run registry) s.memory = (.ok report, m₁) ∧
      (∃ m₂, Drain rounds 0 m₁ m₁.queue.length m₂) ∧
      ∀ n m₂, Drain rounds 0 m₁ n m₂ → n = m₁.queue.length ∧
        (∀ flow, ∀ e ∈ s.memory.log.events, registry.routesTo e flow = true →
          m₂.progress.Settled flow e.aggregateId e.revision) ∧
        ∀ later, ∃ report₂ m₃, Work.alone later (run registry) m₂ = (.ok report₂, m₃) ∧
          report₂.reEnqueued = 0 ∧ ∀ flow ∈ registry.names, ∀ a,
            (m₃.progress.get flow a).watermark = s.memory.log.latest a := by
  obtain ⟨w, hw⟩ := hs.exists_world
  rw [← hw.memory] at hids hexp ⊢
  have hn := w.lawful.numbered
  -- the recovery
  have hrun := alone_run registry clock w.memory hn
  obtain ⟨hlater, hhandled⟩ := effect_spec registry (clock 0).now w.lawful.stocked hids hn
  obtain ⟨w₁, hle₁, hw₁, -⟩ := (Task.recover.sound w).alone clock
  replace hw₁ : w₁.memory = (effect registry (clock 0).now w.memory).1 :=
    hw₁.trans (congrArg Prod.snd hrun)
  have hlog₁ : w₁.memory.log = w.memory.log := by
    rw [hw₁]
    exact hlater.log
  have hu : w₁.memory.queue.Unleased := by
    intro name
    rw [hw₁, hlater.fuller.lease]
    exact unleased_onLeases (clock 0).now w.lawful.stocked.wf hexp name
  refine ⟨_, _, hrun, ?_, fun n m₂ hd => ?_⟩
  · rw [← hw₁]
    exact exists_drain hrounds 0 hu
  · rw [← hw₁] at hd ⊢
    obtain ⟨hcount, w₂, hle₂, hw₂, hlog₂, hdrained⟩ := hd.spec hrounds rfl hu
    have hlog : m₂.log = w.memory.log := hlog₂.trans hlog₁
    have hall : AllSettled registry m₂ := by
      intro flow e he hroute
      rw [hlog] at he
      rcases hhandled flow e he hroute with hset | hwaits
      · rw [← hw₁] at hset
        exact hw₂ ▸ hle₂.settled _ _ _ hset
      · rw [← hw₁] at hwaits
        exact hdrained flow e hwaits
    refine ⟨hcount, fun flow e he hroute => hall flow e (hlog ▸ he) hroute, fun later => ?_⟩
    -- the other recovery
    subst hw₂
    have hids₂ : w₂.memory.log.DistinctIds := hlog ▸ hids
    have hn₂ := w₂.lawful.numbered
    have hrun₂ := alone_run registry later w₂.memory hn₂
    obtain ⟨hzero, hlow⟩ := effect_of_allSettled (later 0).now hall w₂.lawful.stocked hids₂ hn₂
    have hlog₃ := (effect_spec registry (later 0).now w₂.lawful.stocked hids₂ hn₂).1.log
    obtain ⟨w₃, -, hw₃, -⟩ := (Task.recover.sound w₂).alone later
    replace hw₃ : w₃.memory = (effect registry (later 0).now w₂.memory).1 :=
      hw₃.trans (congrArg Prod.snd hrun₂)
    refine ⟨_, _, hrun₂, hzero, fun flow hflow a => Nat.le_antisymm ?_ ?_⟩
    · have hhigh := w₃.le_latest_of_passed
        (w₃.passed_of_settled (Progress.isSettled_watermark (w₃.memory.progress.get flow a)))
      rw [hw₃, hlog₃] at hhigh
      exact hlog ▸ hhigh
    · exact hlog ▸ hlow flow hflow a

/-- A `System` whose publisher stopped right after it stored two events. -/
def stopped : System where
  memory := { log := { events := [Sample.placed 1, Sample.placed 2] } }
  parties := [⟨.publish [Sample.placed 1, Sample.placed 2],
    (do Publish.enqueueBatch Sample.registry [Sample.placed 1, Sample.placed 2] []; pure (.ok ())),
    [⟨.log (.append [Sample.placed 1, Sample.placed 2]), .ok ()⟩]⟩]

theorem reachable_stopped : System.Reachable Sample.registry stopped := by
  refine .tail (.single (.start {} (.publish [Sample.placed 1, Sample.placed 2]))) ?_
  exact .call [] _ [] [] (.given (Sample.readingAt 0) _)

theorem no_event_lost_of_stopped :
    stopped.memory.queue.length = 0 ∧ ∃ report m₁ m₂,
      Work.alone (Sample.clockAt 1) (run Sample.registry) stopped.memory = (.ok report, m₁) ∧
      Drain (fun _ => (Sample.clockAt 2, Sample.clockAt 3)) 0 m₁ 2 m₂ ∧
      m₂.progress.Settled "mail" (.ofNat 7) 1 ∧ m₂.progress.Settled "mail" (.ofNat 7) 2 := by
  have hrounds : InTime fun _ => (Sample.clockAt 2, Sample.clockAt 3) := by
    intro i
    dsimp only
    decide
  obtain ⟨report, m₁, hrun, ⟨m₂, hd⟩, hend⟩ := no_event_lost reachable_stopped (by decide)
    (Sample.clockAt 1) (fun _ _ h => by cases h) _ hrounds
  have hm : (Work.alone (Sample.clockAt 1) (run Sample.registry) stopped.memory).2 = m₁ :=
    congrArg Prod.snd hrun
  have hlen : m₁.queue.length = 2 := by
    rw [← hm]
    decide
  obtain ⟨-, hsettled, -⟩ := hend _ m₂ hd
  rw [hlen] at hd
  refine ⟨rfl, report, m₁, m₂, hrun, hd, ?_, ?_⟩
  · exact hsettled "mail" (Sample.placed 1) List.mem_cons_self (by decide)
  · exact hsettled "mail" (Sample.placed 2) (List.mem_cons_of_mem _ List.mem_cons_self) (by decide)

end EventRelay.Recovery
