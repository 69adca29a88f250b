import EventRelay.Proofs.Queue.Lapsed
import EventRelay.Proofs.Recovery.Owed
import Mathlib.Order.Bounds.Basic

/-!
# What one recovery does

All that a recovery does is told from the memory that it starts with: which leases it takes off,
which events it puts into which lanes and in which order, where it leaves the watermarks and what it
counts.
-/

namespace EventRelay

namespace Queue

variable {q q' : Queue Event} {lock : Lock} {r : Call.Reading}

theorem length_sweep_fst (q : Queue Event) (now : Instant) : (q.sweep now).1.length =
    q.lanes.countP fun x => x.2.lease.any fun lease => lease.isExpiredAt now := by
  rw [Queue.sweep, List.length_filterMap_eq_countP]
  apply List.countP_congr
  rintro ⟨name, l⟩ _
  cases hl : l.lease <;> simp [expiredLease?, hl, Option.filter_some]

/-- `sweep` takes leases off and leaves the entries. -/
theorem WF.length_sweep (h : q.WF) (now : Instant) : (q.sweep now).2.length = q.length := by
  unfold length entries
  rw [h.sweep_lanes, List.flatMap_map]
  congr 1
  simp only [sweepLane_entries]

/-- A lock `Opens` its lane as long as it has not `Lapsed`. -/
theorem WF.opens_iff (h : q.WF) : q.Opens lock r ↔ ¬ q.Lapsed lock r.now := by
  constructor
  · intro hopens hlapsed
    exact hlapsed.not_opens h (Instant.le_refl _) hopens
  · intro hlive
    unfold Lapsed at hlive
    push Not at hlive
    obtain ⟨lease, hl, htoken, hnow⟩ := hlive
    obtain ⟨head, rest, he⟩ := List.exists_cons_of_ne_nil (h.entries_ne_nil_of_lease hl)
    have hopen := h.lockedLane_ok he hl (decide_eq_false hnow) htoken
    exact ⟨.renew lock, by simp [Memory.answerQueue, Queue.renew, hopen, Exchange.accepted?]⟩

theorem lapsed_congr (h : (q'.laneAt lock.lane).lease = (q.laneAt lock.lane).lease)
    (now : Instant) :
    q'.Lapsed lock now ↔ q.Lapsed lock now := by
  unfold Lapsed
  rw [h]

end Queue

namespace Recovery

variable {registry : Registry} {flow : String} {a : Uuid} {m m' : Memory} {now : Instant}

/-- Revisions of an aggregate up to which a flow is owed nothing, as far as there are events. -/
def Clear (registry : Registry) (m : Memory) (flow : String) (a : Uuid) : Set Nat :=
  {n | n ≤ m.log.latest a ∧
    ∀ e ∈ m.log.events, e.aggregateId = a → e.revision ≤ n → isOwed registry m flow e = false}

/-- While nobody comes to be owed more or less, the revisions that are `Clear` stay the same. -/
theorem Standing.clear_eq (h : Standing registry m m') (flow : String) (a : Uuid) :
    Clear registry m' flow a = Clear registry m flow a := by
  unfold Clear
  rw [h.log]
  ext n
  refine and_congr_right fun _ => forall₂_congr fun e he => ?_
  rw [h.isOwed flow e he]

theorem mem_clear_watermark (h : (m.progress.get flow a).watermark ≤ m.log.latest a) :
    (m.progress.get flow a).watermark ∈ Clear registry m flow a := by
  refine ⟨h, ?_⟩
  rintro e _ rfl hle
  simp [isOwed, Progress.isSettled_iff.2 (.inl hle)]

/-- Where all is `Tended`, the watermark is as high as it can be. -/
theorem Tended.isGreatest (h : Tended registry m a flow) (hn : m.log.Numbered)
    (hle : (m.progress.get flow a).watermark ≤ m.log.latest a) :
    IsGreatest (Clear registry m flow a) (m.progress.get flow a).watermark := by
  refine ⟨mem_clear_watermark hle, ?_⟩
  rintro n ⟨hlatest, hclear⟩
  by_contra hlt
  -- the event right above the watermark would be done
  obtain ⟨e, he⟩ : ∃ e, (m.log.streamOf a)[(m.progress.get flow a).watermark]? = some e := by
    rw [← Option.isSome_iff_exists, isSome_getElem?]
    unfold EventLog.latest at hlatest
    omega
  have hrev := hn a _ e he
  obtain ⟨hmem, hagg⟩ := EventLog.mem_streamOf.1 (List.mem_of_getElem? he)
  have hdone := hclear e hmem hagg (by omega)
  rw [isOwed_eq hagg, Bool.not_eq_false'] at hdone
  have habove : (above m a flow)[0]? = some e := by
    rw [getElem?_above, Nat.add_zero]
    exact he
  have hlead := h.leading
  unfold Recovery.leading at hlead
  cases hcases : above m a flow with
  | nil => simp [hcases] at habove
  | cons first rest =>
    rw [hcases, List.getElem?_cons_zero] at habove
    obtain rfl := Option.some.inj habove
    rw [hcases, List.takeWhile_cons_of_pos hdone, List.length_cons] at hlead
    omega

/-- What one recovery does to a memory and reports, if it reads the clock at `now`. -/
structure Recovered (registry : Registry) (now : Instant) (m : Memory) (report : RecoveryReport)
    (m' : Memory) : Prop where
  log : m'.log = m.log
  /-- Just the leases that have run out are taken off. -/
  lease : ∀ flow, (m'.queue.laneAt flow).lease =
    (m.queue.laneAt flow).lease.filter fun lease => !lease.isExpiredAt now
  expiredLeases : report.expiredLeases =
    m.queue.lanes.countP fun x => x.2.lease.any fun lease => lease.isExpiredAt now
  /-- A lock that has not lapsed by now opens its lane when it did before. -/
  opens : ∀ lock r, ¬ m.queue.Lapsed lock now → (m'.queue.Opens lock r ↔ m.queue.Opens lock r)
  /-- Each lane gets what its flow is owed and what is not there yet. -/
  gains : ∀ flow, (m.queue.laneAt flow).Gains
    (fresh (m.queue.laneAt flow).ids (owed registry m flow)) (m'.queue.laneAt flow)
  watermark : ∀ flow ∈ registry.names, ∀ a,
    IsGreatest (Clear registry m flow a) (m'.progress.get flow a).watermark
  settled : ∀ flow, ∀ e ∈ m.log.events, registry.routesTo e flow = true →
    (m'.progress.Settled flow e.aggregateId e.revision ↔
      m.progress.Settled flow e.aggregateId e.revision)
  unregistered : ∀ flow ∉ registry.names, ∀ a, m'.progress.get flow a = m.progress.get flow a
  /-- As many entries are new as are reported. -/
  reEnqueued : report.reEnqueued + m.queue.length = m'.queue.length
  seen : report.reEnqueued + report.alreadyQueued =
    (registry.names.map fun flow => m.log.events.countP (isOwed registry m flow)).sum
  aggregatesChecked : report.aggregatesChecked = (m.log.events.map (·.aggregateId)).dedup.length

section

variable (registry) (now) (hn : m.log.Numbered) (hq : m.queue.WF)

include hn

theorem standing_effect : Standing registry m (effect registry now m).1 := by
  have hleases : Standing registry m (onLeases now m).1 := ⟨rfl, fun _ _ _ => rfl⟩
  have hn' : (onLeases now m).1.log.Numbered := hn
  rw [effect_fst]
  exact hleases.trans (standing_foldl_tend hn' _)

/-- The lanes after `effect` are the swept ones with all `jobs` put in. -/
theorem queue_effect : (effect registry now m).1.queue =
    (m.queue.sweep now).2.putAll ((pairs registry m.log.aggregates).flatMap (jobs registry m)) := by
  rw [effect_fst]
  exact queue_foldl_tend (m := (onLeases now m).1) hn _

include hq

/-- What the lanes get from a recovery: they are `Grown` by what is `owed` and not there yet. -/
theorem grown_effect (hreg : registry.Built) (flow : String) :
    (Queue.sweepLane now (m.queue.laneAt flow)).Grown
      (fresh (m.queue.laneAt flow).ids (owed registry m flow))
      ((effect registry now m).1.queue.laneAt flow) := by
  have hgrown := (hq.sweep now).grown_putAll
    ((pairs registry m.log.aggregates).flatMap (jobs registry m)) flow
  rw [meantFor_jobs hreg, hq.laneAt_sweep] at hgrown
  rw [queue_effect registry now hn]
  unfold Lane.ids at hgrown ⊢
  rwa [Queue.sweepLane_entries] at hgrown

/-- The report counts as enqueued again just what the queue has grown by. -/
theorem reEnqueued_effect :
    (effect registry now m).2.reEnqueued + m.queue.length =
      (effect registry now m).1.queue.length := by
  have hcounted := (counted_effect registry now m).reEnqueued
  have hlength := (hq.sweep now).length_putAll
    ((pairs registry m.log.aggregates).flatMap (jobs registry m))
  rw [← queue_effect registry now hn, hq.length_sweep] at hlength
  simp only [onLeases] at hcounted
  omega

end

/-- The report of `effect` has every pair of a flow and an event that it is owed, and every
aggregate. -/
theorem tallied_effect (hreg : registry.Built) (hne : registry.isEmpty = false) (now : Instant)
    (hn : m.log.Numbered) :
    Tallied {}
      (registry.names.map fun flow => m.log.events.countP (isOwed registry m flow)).sum
      (m.log.events.map (·.aggregateId)).dedup.length (effect registry now m).2 := by
  have htallied := tallied_foldl_onAggregate registry m.log.aggregates
    (s := onLeases now m) hn
  rw [← length_jobs hreg, ← length_aggregates hn]
  unfold effect
  rw [hne]
  exact ⟨htallied.seen, htallied.checked⟩

theorem get_foldl_tend_of_ne (hn : m.log.Numbered) {pairs : List (Uuid × String)}
    (h : ∀ pair ∈ pairs, flow ≠ pair.2) (a : Uuid) :
    (pairs.foldl (tend registry) m).progress.get flow a = m.progress.get flow a := by
  induction pairs generalizing m with
  | nil => rfl
  | cons pair rest ih =>
    have hn' : (tend registry m pair).log.Numbered := by rwa [tend_log]
    rw [List.foldl_cons, ih hn' fun pair hpair => h pair (List.mem_cons_of_mem _ hpair)]
    exact get_tend_of_ne hn fun heq => h pair List.mem_cons_self heq.1

theorem get_effect_of_not_mem (now : Instant) (hn : m.log.Numbered) (h : flow ∉ registry.names)
    (a : Uuid) :
    (effect registry now m).1.progress.get flow a = m.progress.get flow a := by
  have hne : ∀ pair ∈ pairs registry m.log.aggregates, flow ≠ pair.2 := by
    rintro pair hpair rfl
    obtain ⟨x, -, hpair⟩ := List.mem_flatMap.1 hpair
    obtain ⟨name, hname, rfl⟩ := List.mem_map.1 hpair
    exact h hname
  have hn' : (onLeases now m).1.log.Numbered := hn
  rw [effect_fst]
  exact get_foldl_tend_of_ne hn' hne a

/-- The watermarks go up as far as what is `Clear` goes. -/
theorem isGreatest_effect {w : World registry} {clock : Clock} (hflow : flow ∈ registry.names)
    (a : Uuid) : IsGreatest (Clear registry w.memory flow a)
      ((effect registry (clock 0).now w.memory).1.progress.get flow a).watermark := by
  have hn := w.lawful.numbered
  have hstands := standing_effect registry (clock 0).now hn
  -- no revision beyond the latest is settled in a world
  obtain ⟨w', -, hw', -⟩ := (Task.recover.sound w).alone clock
  replace hw' : w'.memory = (effect registry (clock 0).now w.memory).1 :=
    hw'.trans (congrArg Prod.snd (alone_run registry clock w.memory hn))
  have hle := w'.le_latest_of_passed
    (w'.passed_of_settled (Progress.isSettled_watermark (w'.memory.progress.get flow a)))
  rw [hw'] at hle
  rw [← hstands.clear_eq]
  by_cases hex : ∃ e ∈ w.memory.log.events, e.aggregateId = a
  · obtain ⟨e, he, rfl⟩ := hex
    obtain ⟨x, hx, hid⟩ := EventLog.exists_aggregate he
    have hpair : (e.aggregateId, flow) ∈ pairs registry w.memory.log.aggregates :=
      List.mem_flatMap.2 ⟨x, hx, List.mem_map.2 ⟨flow, hflow, by rw [hid]⟩⟩
    have hn' : (onLeases (clock 0).now w.memory).1.log.Numbered := hn
    have htended : Tended registry _ e.aggregateId flow := tended_foldl_tend hn' _ hpair
    rw [← effect_fst] at htended
    exact htended.isGreatest (hstands.log ▸ hn) hle
  · refine ⟨mem_clear_watermark hle, ?_⟩
    rintro n ⟨hlatest, -⟩
    rw [hstands.log, EventLog.latest_eq_zero_iff.2 fun e he hagg => hex ⟨e, he, hagg⟩] at hlatest
    exact Nat.le_trans hlatest (Nat.zero_le _)

/-- `effect` does what `Recovered` says, in every `World`. -/
theorem recovered_effect (hreg : registry.Built) (hne : registry.isEmpty = false)
    (w : World registry) (clock : Clock) :
    Recovered registry (clock 0).now w.memory (effect registry (clock 0).now w.memory).2
      (effect registry (clock 0).now w.memory).1 := by
  have hn := w.lawful.numbered
  have hq := w.lawful.stocked.wf
  have hstands := standing_effect registry (clock 0).now hn
  have hgrown := grown_effect registry (clock 0).now hn hq hreg
  have hlease : ∀ flow, ((effect registry (clock 0).now w.memory).1.queue.laneAt flow).lease =
      (w.memory.queue.laneAt flow).lease.filter fun lease => !lease.isExpiredAt (clock 0).now := by
    intro flow
    rw [(hgrown flow).lease, Queue.sweepLane_lease]
  have htallied := tallied_effect hreg hne (clock 0).now hn
  refine
    { log := hstands.log
      lease := hlease
      expiredLeases := ?_
      opens := fun lock r hlive => ?_
      gains := fun flow => ?_
      watermark := fun flow hflow a => isGreatest_effect hflow a
      settled := fun flow e he hroute => hstands.settled_iff he hroute
      unregistered := fun flow hflow a => get_effect_of_not_mem _ hn hflow a
      reEnqueued := reEnqueued_effect registry _ hn hq
      seen := by simpa using htallied.seen
      aggregatesChecked := by simpa using htallied.checked }
  · rw [(counted_effect registry (clock 0).now w.memory).expiredLeases]
    exact Queue.length_sweep_fst _ _
  · have hwf := (calm_effect registry (clock 0).now hn hq).wf
    rw [hwf.opens_iff, hq.opens_iff]
    refine not_congr (Queue.lapsed_congr ?_ _)
    unfold Queue.Lapsed at hlive
    push Not at hlive
    obtain ⟨lease, hl, -, hnow⟩ := hlive
    rw [hlease, hl, Option.filter_some, if_pos (by simp [Lease.isExpiredAt, hnow])]
  · obtain ⟨new, hentries, hnew⟩ := (hgrown flow).gains
    rw [Queue.sweepLane_entries] at hentries
    exact ⟨new, hentries, hnew⟩

/-- **What one recovery does.** From any state that can be reached, a recovery with a flow to look
after, during which nobody else calls and no call fails, succeeds. It takes off just the leases that
have run out, puts into each lane just what its flow is owed and what is not there yet, moves
each watermark as far as nothing is owed, and reports what it did. -/
theorem run_recovers {s : System} (hreg : registry.Built) (hne : registry.isEmpty = false)
    (hs : System.Reachable registry s) (clock : Clock) :
    ∃ report m', Work.alone clock (run registry) s.memory = (.ok report, m') ∧
      Recovered registry (clock 0).now s.memory report m' := by
  obtain ⟨w, hw⟩ := hs.exists_world
  rw [← hw.memory]
  exact ⟨_, _, alone_run registry clock w.memory w.lawful.numbered,
    recovered_effect hreg hne w clock⟩

/-- Both stored events come into the empty lane. -/
theorem run_recovers_of_stopped :
    ∃ report m', Work.alone (Sample.clockAt 1) (run Sample.registry) stopped.memory =
        (.ok report, m') ∧
      m'.queue.items "mail" = [Sample.placed 1, Sample.placed 2] ∧
      report.reEnqueued + report.alreadyQueued = 2 ∧ report.aggregatesChecked = 1 := by
  obtain ⟨report, m', hrun, h⟩ :=
    run_recovers Sample.registry_built rfl reachable_stopped (Sample.clockAt 1)
  have howed : fresh (stopped.memory.queue.laneAt "mail").ids
      (owed Sample.registry stopped.memory "mail") = [Sample.placed 1, Sample.placed 2] := rfl
  have hitems := (h.gains "mail").items
  rw [howed] at hitems
  exact ⟨report, m', hrun, hitems, h.seen, h.aggregatesChecked⟩

end Recovery

end EventRelay
