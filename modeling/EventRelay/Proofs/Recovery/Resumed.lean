import EventRelay.Proofs.Recovery.NothingLost
import EventRelay.Proofs.Recovery.Tended

/-!
# A recovery that is cut off

A recovery may be cut off between any two of its calls, or by a call on the queue that fails. The
next one at the same time then comes to the same memory as if it had been the only one. And one that
follows on a whole recovery finds nothing to do.
-/

namespace EventRelay.Recovery

variable {registry : Registry} {flow : String} {a : Uuid} {p : Progress} {q : Queue Event}
  {m m' : Memory} {now : Instant} {pairs : List (Uuid × String)}

/-! ## Leases -/

/-- No lease has run out, in a queue that is `WF`. -/
structure Calm (now : Instant) (q : Queue Event) : Prop where
  wf : q.WF
  live : ∀ name lease, (q.laneAt name).lease = some lease → lease.isExpiredAt now = false

/-- `onLeases` does nothing to a queue that is `Calm`. -/
theorem Calm.onLeases_eq (h : Calm now m.queue) : onLeases now m = (m, {}) := by
  rw [onLeases, h.wf.sweep_eq h.live]
  rfl

/-- After `onLeases` a queue is `Calm`. -/
theorem calm_onLeases (hq : m.queue.WF) : Calm now (onLeases now m).1.queue where
  wf := hq.sweep now
  live name lease hl := by
    simp only [onLeases, hq.laneAt_sweep, Queue.sweepLane_lease] at hl
    simpa using (Option.filter_eq_some_iff.1 hl).2

/-- Filling in an event changes no lease, so a queue stays `Calm`. -/
theorem Calm.fill (h : Calm now q) (e : Event) : Calm now (fill registry flow p q e) := by
  unfold Recovery.fill
  split
  · exact h
  · refine ⟨h.wf.enqueue flow e e.timestamp, ?_⟩
    cases hk : (q.laneAt flow).hasKey (Keyed.key e) with
    | true =>
      rw [Queue.enqueue_of_hasKey _ hk]
      exact h.live
    | false =>
      intro name lease hl
      rw [(Queue.fuller_enqueue e.timestamp hk).lease] at hl
      exact h.live name lease hl

theorem Calm.foldl_fill (h : Calm now q) (es : List Event) :
    Calm now (es.foldl (Recovery.fill registry flow p) q) := by
  induction es generalizing q with
  | nil => exact h
  | cons e rest ih => exact ih (h.fill e)

theorem Calm.tend (h : Calm now m.queue) (hn : m.log.Numbered) (pair : Uuid × String) :
    Calm now (tend registry m pair).queue := by
  rw [tend_eq hn]
  exact h.foldl_fill _

/-- A queue is `Calm` wherever a recovery goes through after its sweep. -/
theorem Calm.met (h : Calm now m.queue) (hn : m.log.Numbered) (hmet : Met registry pairs m m') :
    Calm now m'.queue := by
  induction hmet with
  | here => exact h
  | filling => exact h.foldl_fill _
  | later _ ih =>
    apply ih (h.tend hn _)
    rwa [tend_log]

/-! ## What is counted -/

/-- What is enqueued in between is counted, by the sequence numbers that are used up. -/
structure Counted (q : Queue Event) (report : RecoveryReport) (q' : Queue Event)
    (report' : RecoveryReport) : Prop where
  reEnqueued : report'.reEnqueued + q.nextSequence = report.reEnqueued + q'.nextSequence
  expiredLeases : report'.expiredLeases = report.expiredLeases

namespace Counted

variable {q' q'' : Queue Event} {report report' report'' : RecoveryReport}

theorem refl (q : Queue Event) (report : RecoveryReport) : Counted q report q report := ⟨rfl, rfl⟩

/-- What was `Counted` in two parts was counted in all. -/
theorem trans (h : Counted q report q' report') (h' : Counted q' report' q'' report'') :
    Counted q report q'' report'' where
  reEnqueued := by
    have h₁ := h.reEnqueued
    have h₂ := h'.reEnqueued
    omega
  expiredLeases := h'.expiredLeases.trans h.expiredLeases

theorem foldl {β : Type} {f : Memory × RecoveryReport → β → Memory × RecoveryReport}
    (hf : ∀ s x, Counted s.1.queue s.2 (f s x).1.queue (f s x).2) (xs : List β)
    (s : Memory × RecoveryReport) :
    Counted s.1.queue s.2 (xs.foldl f s).1.queue (xs.foldl f s).2 := by
  induction xs generalizing s with
  | nil => exact .refl _ _
  | cons x rest ih => exact (hf s x).trans (ih _)

end Counted

/-- A `look` counts as enqueued again what uses up a sequence number. -/
theorem counted_look (s : Queue Event × Walk) (e : Event) :
    Counted s.1 s.2.report (look registry flow p s e).1 (look registry flow p s e).2.report := by
  unfold look
  split
  · split
    · exact .refl _ _
    · exact .refl _ _
  · cases hk : (s.1.laneAt flow).hasKey (Keyed.key e) with
    | true => exact ⟨rfl, rfl⟩
    | false =>
      rw [Queue.enqueue_of_not_hasKey _ hk]
      refine ⟨?_, rfl⟩
      simp only [Bool.false_eq_true, if_false, Queue.setLane]
      omega

theorem counted_foldl_look (es : List Event) (s : Queue Event × Walk) :
    Counted s.1 s.2.report (es.foldl (look registry flow p) s).1
      (es.foldl (look registry flow p) s).2.report := by
  induction es generalizing s with
  | nil => exact .refl _ _
  | cons e rest ih => exact (counted_look s e).trans (ih _)

theorem counted_onFlow (registry : Registry) (a : Uuid) (latest : Nat)
    (s : Memory × RecoveryReport) (flow : String) :
    Counted s.1.queue s.2 (onFlow registry a latest s flow).1.queue
      (onFlow registry a latest s flow).2 := by
  unfold onFlow
  simp only
  split
  · exact .refl _ _
  · exact counted_foldl_look _
      (s.1.queue, { settledUpTo := (s.1.progress.get flow a).watermark, report := s.2 })

theorem counted_onAggregate (s : Memory × RecoveryReport) (x : Aggregate) :
    Counted s.1.queue s.2 (onAggregate registry s x).1.queue (onAggregate registry s x).2 := by
  have hflows := Counted.foldl (counted_onFlow registry x.id (s.1.log.latest x.id)) registry.names
    (s.1, { s.2 with aggregatesChecked := s.2.aggregatesChecked + 1 })
  exact ⟨hflows.reEnqueued, hflows.expiredLeases⟩

/-- From its sweep on, what `effect` enqueues is `Counted`. -/
theorem counted_effect (registry : Registry) (now : Instant) (m : Memory) :
    Counted (onLeases now m).1.queue (onLeases now m).2 (effect registry now m).1.queue
      (effect registry now m).2 := by
  unfold effect
  split
  · exact .refl _ _
  · exact Counted.foldl counted_onAggregate _ _

/-! ## Whole recoveries -/

/-- The memory after `effect` is that after `tend` of all pairs, behind the sweep. -/
theorem effect_fst (registry : Registry) (now : Instant) (m : Memory) :
    (effect registry now m).1 =
      (Recovery.pairs registry m.log.aggregates).foldl (tend registry) (onLeases now m).1 := by
  unfold effect
  split
  · next hempty =>
    have hnil : Recovery.pairs registry m.log.aggregates = [] := by
      simp [Recovery.pairs, names_eq_nil_of_isEmpty hempty]
    rw [hnil]
    rfl
  · exact foldl_onAggregate_fst _ _

/-- From whatever memory is `Met` by a recovery another comes to the same. -/
theorem effect_met (hn : m.log.Numbered) (hq : m.queue.WF)
    (h : Met registry (Recovery.pairs registry m.log.aggregates) (onLeases now m).1 m') :
    (effect registry now m').1 = (effect registry now m).1 := by
  have hcalm : Calm now m'.queue := (calm_onLeases hq).met hn h
  have hlog : m'.log = m.log := h.log
  rw [effect_fst, effect_fst, hcalm.onLeases_eq, hlog]
  exact h.foldl_tend hn

/-- A second recovery changes nothing: the memory after the first is `Met` by it. -/
theorem effect_effect (registry : Registry) (now : Instant) (hn : m.log.Numbered)
    (hq : m.queue.WF) :
    (effect registry now (effect registry now m).1).1 = (effect registry now m).1 := by
  apply effect_met hn hq
  rw [effect_fst]
  exact .last _ _

theorem calm_effect (registry : Registry) (now : Instant) (hn : m.log.Numbered) (hq : m.queue.WF) :
    Calm now (effect registry now m).1.queue := by
  rw [effect_fst]
  exact (calm_onLeases hq).met hn (.last _ _)

/-- Where the queue is `Calm` and a recovery changes nothing, it counts nothing. -/
theorem Calm.counts (h : Calm now m.queue) (heq : (effect registry now m).1 = m) :
    (effect registry now m).2.reEnqueued = 0 ∧ (effect registry now m).2.expiredLeases = 0 := by
  have hcounted := counted_effect registry now m
  rw [h.onLeases_eq, heq] at hcounted
  have hre := hcounted.reEnqueued
  simp only at hre
  exact ⟨by omega, hcounted.expiredLeases⟩

/-- **A recovery may be cut off anywhere.** From any state that can be reached under any registry,
whether one recovery is made, or one is cut off and another follows at the same time, the memory is
the same in the end; and then one more changes nothing and counts nothing. -/
theorem run_resumes {registry' : Registry} {s : System} (hs : System.Reachable registry' s)
    {clock : Clock} {m₁ : Memory} (hcut : CutOff clock (run registry) s.memory m₁) :
    ∃ m₂, ∀ later : Clock, (later 0).now = (clock 0).now →
      (∃ report, Work.alone later (run registry) s.memory = (.ok report, m₂)) ∧
      (∃ report, Work.alone later (run registry) m₁ = (.ok report, m₂)) ∧
      ∃ report, Work.alone later (run registry) m₂ = (.ok report, m₂) ∧
        report.reEnqueued = 0 ∧ report.expiredLeases = 0 := by
  obtain ⟨w, hw⟩ := hs.exists_world
  rw [← hw.memory] at hcut ⊢
  have hn := w.lawful.numbered
  have hq := w.lawful.stocked.wf
  refine ⟨(effect registry (clock 0).now w.memory).1, fun later hnow => ?_⟩
  have hcalm := calm_effect registry (later 0).now hn hq
  have hagain := effect_effect registry (later 0).now hn hq
  rw [← hnow]
  refine ⟨⟨_, alone_run registry later w.memory hn⟩, ?_, ?_⟩
  · obtain ⟨hn₁, heq⟩ : m₁.log.Numbered ∧ (effect registry (later 0).now m₁).1 =
        (effect registry (later 0).now w.memory).1 := by
      rcases met_of_cutOff hn hcut with rfl | hmet
      · exact ⟨hn, rfl⟩
      · rw [← hnow] at hmet
        have hlog : m₁.log = w.memory.log := hmet.log
        exact ⟨by rwa [hlog], effect_met hn hq hmet⟩
    rw [← heq]
    exact ⟨_, alone_run registry later m₁ hn₁⟩
  · obtain ⟨hzero, hnone⟩ := hcalm.counts hagain
    have hn₂ : (effect registry (later 0).now w.memory).1.log.Numbered := by
      rw [effect_fst, (Met.last _ _).log]
      exact hn
    have hrun := alone_run registry later _ hn₂
    rw [hagain] at hrun
    exact ⟨_, hrun, hzero, hnone⟩

/-- Cut off after the first of two events is back in its lane. -/
theorem run_resumes_of_stopped :
    (Work.after 8 (Sample.clockAt 1) (run Sample.registry) stopped.memory).queue.length = 1 ∧
    ∃ report m₂, Work.alone (Sample.clockAt 1) (run Sample.registry)
      (Work.after 8 (Sample.clockAt 1) (run Sample.registry) stopped.memory) = (.ok report, m₂) ∧
      m₂.queue.length = 2 := by
  have hcut := cutOff_after 8 (Sample.clockAt 1) (run Sample.registry) stopped.memory
  obtain ⟨m₂, hend⟩ := run_resumes reachable_stopped hcut
  obtain ⟨-, ⟨report, hrun⟩, -⟩ := hend (Sample.clockAt 1) rfl
  refine ⟨by decide, report, m₂, hrun, ?_⟩
  have hm : (Work.alone (Sample.clockAt 1) (run Sample.registry)
      (Work.after 8 (Sample.clockAt 1) (run Sample.registry) stopped.memory)).2 = m₂ :=
    congrArg Prod.snd hrun
  rw [← hm]
  decide

end EventRelay.Recovery
