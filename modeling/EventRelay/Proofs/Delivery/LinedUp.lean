import EventRelay.Proofs.Delivery.HoldBack
import EventRelay.Proofs.Recovery.Exact

/-!
# In order again after a failure

A publication whose enqueueings fail leaves a lane behind of what its flow is owed of an aggregate,
but only at the end: what is there goes on with what is missing. Consumers take nothing from that
but at its front, and a recovery puts what is missing behind it.
-/

namespace EventRelay

/-- A consumer's task: leases, renewals, releases and acknowledgements. -/
def Task.isConsuming : Task → Bool
  | lease | renew _ | release _ | acknowledge _ => true
  | publish _ | defer .. | sweep | replay _ | recover => false

namespace Delivery

open Recovery (isOwed owed)

variable {registry : Registry} {m m' m'' : Memory} {flow : String} {a : Uuid} {e : Event}
  {w : World registry} {missing : List Event}

/-! ## What consumers change -/

/-- Events left the heads of lanes, and `isOwed` holds of them for no flow any more. -/
structure Consumed (registry : Registry) (m m' : Memory) : Prop where
  log : m'.log = m.log
  owed : ∀ flow e, isOwed registry m' flow e = true → isOwed registry m flow e = true
  items : ∀ flow, ∃ gone, m.queue.items flow = gone ++ m'.queue.items flow ∧
    ∀ e ∈ gone, isOwed registry m' flow e = false

namespace Consumed

theorem of_items {q : Queue Event} (h : ∀ flow, q.items flow = m.queue.items flow) :
    Consumed registry m { m with queue := q } where
  log := rfl
  owed _ _ howed := howed
  items flow := ⟨[], (h flow).symm, fun _ he => by cases he⟩

theorem trans (h : Consumed registry m m') (h' : Consumed registry m' m'') :
    Consumed registry m m'' where
  log := h'.log.trans h.log
  owed flow e howed := h.owed flow e (h'.owed flow e howed)
  items flow := by
    obtain ⟨gone, hitems, hgone⟩ := h.items flow
    obtain ⟨gone', hitems', hgone'⟩ := h'.items flow
    refine ⟨gone ++ gone', by rw [hitems, hitems', List.append_assoc], fun e he => ?_⟩
    rcases List.mem_append.1 he with he | he
    · exact Bool.eq_false_iff.2 fun howed =>
        Bool.eq_false_iff.1 (hgone e he) (h'.owed flow e howed)
    · exact hgone' e he

end Consumed

/-- What is settled stays so, so nothing comes to be owed. -/
theorem isOwed_of_settled
    (h : ∀ flow a r, m.progress.Settled flow a r → m'.progress.Settled flow a r)
    (howed : isOwed registry m' flow e = true) : isOwed registry m flow e = true := by
  obtain ⟨hroute, hopen⟩ := Bool.and_eq_true_iff.1 howed
  refine Bool.and_eq_true_iff.2 ⟨hroute, ?_⟩
  rw [Bool.not_eq_true', Bool.eq_false_iff] at hopen ⊢
  exact fun hset => hopen (h flow e.aggregateId e.revision hset)

/-- What an acknowledgement takes off its lane is settled, so it is `Consumed`. -/
theorem consumed_acknowledge {lock : Lock} {q : Queue Event}
    (h : ∀ flow, m.queue.items flow =
      if flow = lock.lane then e :: q.items flow else q.items flow) :
    Consumed registry m { m with
      queue := q, progress := m.progress.record lock.lane e.aggregateId e.revision } where
  log := rfl
  owed _ _ howed :=
    isOwed_of_settled (fun _ _ _ hset => ProgressTable.settled_record.2 (.inl hset)) howed
  items flow := by
    by_cases hlane : flow = lock.lane
    · refine ⟨[e], by rw [h, if_pos hlane, List.singleton_append], fun x hx => ?_⟩
      rw [List.mem_singleton.1 hx, hlane]
      have hset : (m.progress.record lock.lane e.aggregateId e.revision).Settled lock.lane
          e.aggregateId e.revision := ProgressTable.settled_record.2 (.inr ⟨rfl, rfl, rfl⟩)
      unfold ProgressTable.Settled at hset
      simp [Recovery.isOwed, hset]
    · exact ⟨[], by rw [h, if_neg hlane, List.nil_append], fun _ hx => by cases hx⟩

/-- A task that `Task.isConsuming` does nothing but `Consumed`. -/
theorem consumed_carryOut (w : World registry) {job : Task × Clock}
    (h : job.1.isConsuming = true) :
    Consumed registry w.memory (System.carryOut registry w.memory job) := by
  obtain ⟨t, clock⟩ := job
  have hq := w.lawful.stocked.wf
  unfold System.carryOut
  cases t with
  | lease =>
    have hitems := hq.items_lease (clock 0).now (clock 0).expiration (clock 0).fresh
    cases hlease : w.memory.queue.lease (clock 0).now (clock 0).expiration (clock 0).fresh with
    | mk leased? q =>
      rw [hlease] at hitems
      cases leased? with
      | none =>
        simp only [Task.work, Recovery.comes_attempt_none hlease clock rfl]
        exact .of_items hitems
      | some leased =>
        simp only [Task.work, Recovery.comes_attempt_some hlease clock rfl]
        exact .of_items hitems
  | renew lock => exact .of_items (hq.items_renew lock _ _)
  | release lock =>
    simp only [Task.work, Recovery.comes_release lock w.memory clock rfl]
    exact .of_items (hq.items_release lock _)
  | acknowledge lock =>
    rcases hq.acknowledge_cases lock (clock 0).now with ⟨e, hack⟩ | ⟨e, q, hack, hitems⟩
    · simp only [Task.work, Recovery.comes_acknowledge_error hack clock rfl]
      exact .of_items fun _ => rfl
    · simp only [Task.work, Recovery.comes_acknowledge hack clock rfl]
      exact consumed_acknowledge hitems
  | publish | defer | sweep | replay | recover => cases h

/-- `consumed_carryOut`, however many tasks consumers do. -/
theorem exists_consumed (w : World registry) {jobs : List (Task × Clock)}
    (h : ∀ job ∈ jobs, job.1.isConsuming = true) :
    ∃ w', w ≤ w' ∧ w'.memory = jobs.foldl (System.carryOut registry) w.memory ∧
      Consumed registry w.memory w'.memory := by
  induction jobs generalizing w with
  | nil => exact ⟨w, le_rfl, rfl, .of_items fun _ => rfl⟩
  | cons job rest ih =>
    obtain ⟨w₁, hle₁, hm₁, -⟩ := (job.1.sound w).alone job.2
    replace hm₁ : w₁.memory = System.carryOut registry w.memory job := hm₁
    obtain ⟨w₂, hle₂, hm₂, h₂⟩ := ih w₁ fun job hjob => h job (List.mem_cons_of_mem _ hjob)
    have h₁ := consumed_carryOut w (h job List.mem_cons_self)
    rw [← hm₁] at h₁
    refine ⟨w₂, hle₁.trans hle₂, ?_, h₁.trans h₂⟩
    rw [hm₂, hm₁, List.foldl_cons]

/-! ## What waits and what is missing -/

/-- What waits in the lane of a flow of what `isOwed` gives it of an aggregate. -/
def waiting (registry : Registry) (m : Memory) (flow : String) (a : Uuid) : List Event :=
  (m.queue.items flow).filter fun e => e.aggregateId == a && isOwed registry m flow e

/-- What a flow is `owed` of an aggregate, in the order of revisions. -/
def due (registry : Registry) (m : Memory) (flow : String) (a : Uuid) : List Event :=
  (m.log.streamOf a).filter (isOwed registry m flow)

/-- The lane holds all that is `due` of the aggregate, in the order of revisions. -/
def Lined (registry : Registry) (m : Memory) (flow : String) (a : Uuid) : Prop :=
  waiting registry m flow a = due registry m flow a

/-- The lane would be `Lined` with what is missing behind what waits. -/
def Lacks (registry : Registry) (m : Memory) (flow : String) (a : Uuid) (missing : List Event) :
    Prop :=
  waiting registry m flow a ++ missing = due registry m flow a

/-- Consumers take from the front, so what is `Lacks` stays missing, unless it is owed no more. -/
theorem Consumed.lacks (h : Consumed registry m m') (hm : Lacks registry m flow a missing) :
    Lacks registry m' flow a (missing.filter (isOwed registry m' flow)) := by
  have howed : ∀ x, (isOwed registry m flow x && isOwed registry m' flow x) =
      isOwed registry m' flow x := by
    intro x
    rw [Bool.and_eq_right_iff_imp]
    exact h.owed flow x
  have hdue : due registry m' flow a =
      (due registry m flow a).filter (isOwed registry m' flow) := by
    unfold due
    rw [List.filter_filter, h.log]
    exact List.filter_congr fun x _ => by rw [Bool.and_comm, howed]
  have hwaiting : waiting registry m' flow a =
      (waiting registry m flow a).filter (isOwed registry m' flow) := by
    obtain ⟨gone, hitems, hgone⟩ := h.items flow
    have hnone : gone.filter (fun x => x.aggregateId == a && isOwed registry m' flow x) = [] := by
      rw [List.filter_eq_nil_iff]
      intro x hx
      simp [hgone x hx]
    unfold waiting
    rw [List.filter_filter, hitems, List.filter_append]
    simp only [Bool.and_left_comm _ (_ == _), Bool.and_comm (isOwed registry m' flow _), howed]
    rw [hnone, List.nil_append]
  unfold Lacks at hm ⊢
  rw [hdue, ← hm, List.filter_append, hwaiting]

/-- Events of one aggregate are stored once, so nothing is `due` twice. -/
theorem nodup_due (registry : Registry) (h : m.log.Numbered) (flow : String) (a : Uuid) :
    (due registry m flow a).Nodup := by
  have hstream : (m.log.streamOf a).Nodup := (h.ascending_streamOf a).imp fun hlt heq =>
    absurd (congrArg Event.revision heq) (Nat.ne_of_lt hlt)
  exact hstream.filter _

/-! ## A publication leaves a lane behind at the end only -/

section

variable {batch : List Event} {faults : Faults}

/-- No flow has settled an event of an accepted batch, so it `isOwed` to all it is routed to. -/
theorem isOwed_of_mem_batch {l : EventLog} (happend : w.memory.log.append batch = .ok l)
    (he : e ∈ batch) (flow : String) :
    isOwed registry w.memory flow e = registry.routesTo e flow := by
  have hopen : ¬ w.memory.progress.Settled flow e.aggregateId e.revision := by
    intro hset
    have hle := w.le_latest_of_passed (w.passed_of_settled hset)
    have hlt := w.lawful.numbered.latest_lt_revision happend he
    omega
  unfold ProgressTable.Settled at hopen
  simp [isOwed, hopen]

theorem filter_batch {l : EventLog} (happend : w.memory.log.append batch = .ok l)
    {es : List Event} (hes : es ⊆ batch) (flow : String) (a : Uuid) :
    es.filter (fun e => e.aggregateId == a && isOwed registry w.memory flow e) =
      Publish.wanted registry es flow a := by
  apply List.filter_congr
  intro e he
  rw [isOwed_of_mem_batch happend (hes he)]

variable (h : Publish.Offered registry faults batch w.memory m')

include h

theorem isOwed_of_offered (flow : String) :
    isOwed registry m' flow = isOwed registry w.memory flow := by
  unfold isOwed
  rw [h.progress]

theorem mem_events_of_offered : e ∈ m'.log.events ↔ e ∈ w.memory.log.events ∨ e ∈ batch := by
  rw [(EventLog.append_eq_ok h.log).1]
  exact List.mem_append

theorem mem_items_of_offered (he : e ∈ m'.queue.items flow) :
    e ∈ w.memory.queue.items flow ∨ e ∈ batch := by
  obtain ⟨added, hgrown, hsub, -⟩ := h.lanes flow
  unfold Queue.items at he ⊢
  rw [hgrown.gains.items] at he
  exact (List.mem_append.1 he).imp_right fun he => hsub.subset he

/-- What is `due` grows by what is wanted of the batch. -/
theorem due_of_offered (flow : String) (a : Uuid) :
    due registry m' flow a =
      due registry w.memory flow a ++ Publish.wanted registry batch flow a := by
  obtain ⟨hlog, -⟩ := EventLog.append_eq_ok h.log
  unfold due
  rw [isOwed_of_offered h, hlog, EventLog.streamOf_append, List.filter_append, List.filter_filter,
    ← filter_batch h.log (List.Subset.refl batch)]
  simp only [Bool.and_comm]

/-- What is `waiting` grows by what is wanted of the batch up to the first failure. -/
theorem waiting_of_offered (flow : String) (a : Uuid) : waiting registry m' flow a =
    waiting registry w.memory flow a ++
      (Publish.wanted registry batch flow a).takeWhile fun e => (faults flow e).isNone := by
  obtain ⟨added, hgrown, hsub, hadded⟩ := h.lanes flow
  -- what was added of the aggregate is wanted
  have hwanted : Publish.wanted registry added flow a =
      added.filter fun e => e.aggregateId == a := by
    unfold Publish.wanted
    simp only [Bool.and_comm (_ == a)]
    rw [← List.filter_filter, List.filter_eq_self]
    intro e he
    rw [hadded] at he
    have hmem := (List.mem_filter.1 ((List.takeWhile_sublist _).subset he)).2
    exact (Bool.and_eq_true_iff.1 hmem).2
  rw [← hadded, ← hwanted, ← filter_batch h.log hsub.subset]
  unfold waiting Queue.items
  rw [isOwed_of_offered h, hgrown.gains.items, List.filter_append]

/-- A lane that was `Lined` now `Lacks` what comes from the first failure on. -/
theorem lacks_of_offered (hlined : Lined registry w.memory flow a) :
    Lacks registry m' flow a
      ((Publish.wanted registry batch flow a).dropWhile fun e => (faults flow e).isNone) := by
  unfold Lacks
  rw [due_of_offered h, waiting_of_offered h, hlined, List.append_assoc,
    List.takeWhile_append_dropWhile]

end

/-! ## A recovery puts what is missing behind -/

/-- Of one aggregate, `owed` is what is `due`. -/
theorem filter_owed (registry : Registry) (m : Memory) (flow : String) (a : Uuid) :
    (owed registry m flow).filter (fun e => e.aggregateId == a) = due registry m flow a := by
  have hsorted := filter_flatMap_of_nodup Event.aggregateId (k := a) m.log.nodup_aggregates
    (f := due registry m flow) fun b e he => (EventLog.mem_streamOf.1 (List.mem_filter.1 he).1).2
  rw [List.flatMap_map] at hsorted
  refine hsorted.trans ?_
  split
  · rfl
  · next hnot =>
    -- an aggregate that is not stored has no events
    symm
    rw [List.eq_nil_iff_forall_not_mem]
    intro e he
    obtain ⟨hmem, rfl⟩ := EventLog.mem_streamOf.1 (List.mem_filter.1 he).1
    obtain ⟨x, hx, hid⟩ := EventLog.exists_aggregate hmem
    exact hnot (List.mem_map.2 ⟨x, hx, hid⟩)

theorem nodup_owed (h : m.log.Numbered) (flow : String) : (owed registry m flow).Nodup := by
  refine List.nodup_flatMap.2 ⟨fun x _ => nodup_due registry h flow x.id, ?_⟩
  refine (List.pairwise_map.1 m.log.nodup_aggregates).imp fun hne e he he' => hne ?_
  obtain ⟨-, hagg⟩ := EventLog.mem_streamOf.1 (List.mem_filter.1 he).1
  obtain ⟨-, hagg'⟩ := EventLog.mem_streamOf.1 (List.mem_filter.1 he').1
  exact hagg.symm.trans hagg'

/-- What is `due` and has no id of the lane is what is missing. -/
theorem Lacks.filter_due (h : Lacks registry m flow a missing)
    (hlane : ∀ e ∈ missing, ∀ x ∈ m.queue.items flow, x.id ≠ e.id) :
    (due registry m flow a).filter (fun e => decide (e.id ∉ (m.queue.laneAt flow).ids)) =
      missing := by
  have hids : ∀ {id}, id ∈ (m.queue.laneAt flow).ids ↔ ∃ x ∈ m.queue.items flow, x.id = id := by
    intro id
    simp [Lane.ids, Queue.items]
  have hwaiting : (waiting registry m flow a).filter
      (fun e => decide (e.id ∉ (m.queue.laneAt flow).ids)) = [] := by
    rw [List.filter_eq_nil_iff]
    intro e he
    rw [decide_eq_true_eq, not_not]
    exact hids.2 ⟨e, (List.mem_filter.1 he).1, rfl⟩
  have hmissing : missing.filter (fun e => decide (e.id ∉ (m.queue.laneAt flow).ids)) =
      missing := by
    rw [List.filter_eq_self]
    refine fun e he => decide_eq_true fun hmem => ?_
    obtain ⟨x, hx, hid⟩ := hids.1 hmem
    exact hlane e he x hx hid
  rw [← h, List.filter_append, hwaiting, hmissing, List.nil_append]

/-- Behind what is `waiting` there comes what is owed and not there yet. -/
theorem waiting_effect (hreg : registry.Built) (now : Instant) (w : World registry)
    (flow : String) (a : Uuid) :
    waiting registry (Recovery.effect registry now w.memory).1 flow a =
      waiting registry w.memory flow a ++
        (fresh (w.memory.queue.laneAt flow).ids (owed registry w.memory flow)).filter
          fun e => e.aggregateId == a := by
  have hn := w.lawful.numbered
  have hstands := Recovery.standing_effect registry now hn
  have hitems : (Recovery.effect registry now w.memory).1.queue.items flow =
      w.memory.queue.items flow ++
        fresh (w.memory.queue.laneAt flow).ids (owed registry w.memory flow) := by
    have hgrown := Recovery.grown_effect registry now hn w.lawful.stocked.wf hreg flow
    unfold Queue.items
    rw [hgrown.gains.items, Queue.sweepLane_entries]
  have hfresh : ∀ e ∈ fresh (w.memory.queue.laneAt flow).ids (owed registry w.memory flow),
      e ∈ w.memory.log.events ∧ isOwed registry w.memory flow e = true :=
    fun e he => Recovery.mem_owed.1 ((fresh_sublist _ _).subset he)
  unfold waiting
  rw [hitems, List.filter_append]
  congr 1
  · apply List.filter_congr
    intro e he
    rw [hstands.isOwed flow e (w.lawful.stocked.stored flow e he)]
  · apply List.filter_congr
    intro e he
    obtain ⟨hstored, howed⟩ := hfresh e he
    rw [hstands.isOwed flow e hstored, howed, Bool.and_true]

/-- A recovery goes on where the lane stops, so it is `Lined` again, if nothing else has the id of
an event that is missing. -/
theorem Lacks.lined_effect (hreg : registry.Built) (now : Instant)
    (h : Lacks registry w.memory flow a missing)
    (hlane : ∀ e ∈ missing, ∀ x ∈ w.memory.queue.items flow, x.id ≠ e.id)
    (howed : ∀ e ∈ missing, ∀ x ∈ w.memory.log.events, isOwed registry w.memory flow x = true →
      x ≠ e → x.id ≠ e.id) :
    Lined registry (Recovery.effect registry now w.memory).1 flow a := by
  have hn := w.lawful.numbered
  have hgap := h.filter_due hlane
  have hpairs : (owed registry w.memory flow).Pairwise fun x y => (y.aggregateId == a) = true →
      y.id ∉ (w.memory.queue.laneAt flow).ids → x.id ≠ y.id := by
    refine (nodup_owed hn flow).pairwise_of_forall_ne fun x hx y hy hne hagg hout => ?_
    have hmissing : y ∈ missing := by
      rw [← hgap, ← filter_owed]
      exact List.mem_filter.2 ⟨List.mem_filter.2 ⟨hy, hagg⟩, decide_eq_true hout⟩
    obtain ⟨hstored, hopen⟩ := Recovery.mem_owed.1 hx
    exact howed y hmissing x hstored hopen hne
  have hnew : (fresh (w.memory.queue.laneAt flow).ids (owed registry w.memory flow)).filter
      (fun e => e.aggregateId == a) = missing := by
    rw [filter_fresh hpairs, ← hgap, ← filter_owed, List.filter_filter]
    simp only [Bool.and_comm]
  unfold Lined due
  rw [(Recovery.standing_effect registry now hn).filter_streamOf, waiting_effect hreg, hnew]
  exact h

/-! ## From the failure to the recovery -/

section

variable {batch : List Event} {faults : Faults}

theorem exists_offered (hreg : registry.Built) {l : EventLog}
    (happend : w.memory.log.append batch = .ok l) (hids : (batch.map (·.id)).Nodup)
    (hnew : ∀ flow, ∀ x ∈ w.memory.queue.items flow, ∀ e ∈ batch, x.id ≠ e.id)
    (faults : Faults) (clock : Clock) :
    ∃ w₁ : World registry, Work.troubled faults clock (Publish.publish registry batch) w.memory =
        (.ok (), w₁.memory) ∧
      Publish.Offered registry faults batch w.memory w₁.memory := by
  have hpublish := Publish.bears_publish registry happend faults clock
  obtain ⟨w₁, -, hw₁, -⟩ := ((Task.publish batch).sound w).troubled faults clock
  replace hw₁ := hw₁.trans (congrArg Prod.snd hpublish)
  refine ⟨w₁, ?_, ?_⟩
  · rw [hw₁]
    exact hpublish
  · rw [hw₁]
    exact Publish.offered hreg w.lawful.stocked.wf happend hids hnew faults

/-- What a failure held back goes behind what consumers left of the lane, which is `Lined` then. -/
theorem lined_of_consumed {w₁ w₂ : World registry} (hreg : registry.Built)
    (hids : (batch.map (·.id)).Nodup)
    (hoffered : Publish.Offered registry faults batch w.memory w₁.memory)
    (hconsumed : Consumed registry w₁.memory w₂.memory)
    (hnew : ∀ x ∈ w.memory.queue.items flow, ∀ e ∈ batch, x.id ≠ e.id)
    (hlined : Lined registry w.memory flow a)
    (hother : ∀ x ∈ w.memory.log.events, isOwed registry w.memory flow x = true →
      ∀ e ∈ batch, e.aggregateId = a → x.id ≠ e.id) (now : Instant) :
    Lined registry (Recovery.effect registry now w₂.memory).1 flow a := by
  have hlacks := hconsumed.lacks (lacks_of_offered hoffered hlined)
  generalize hmissing : ((Publish.wanted registry batch flow a).dropWhile fun e =>
    (faults flow e).isNone).filter (isOwed registry w₂.memory flow) = missing at hlacks
  have hwanted : ∀ e ∈ missing, e ∈ batch ∧ e.aggregateId = a ∧
      isOwed registry w₂.memory flow e = true := by
    intro e he
    rw [← hmissing] at he
    obtain ⟨hmem, howed⟩ := List.mem_filter.1 he
    obtain ⟨hbatch, hagg⟩ := List.mem_filter.1 ((List.dropWhile_sublist _).subset hmem)
    exact ⟨hbatch, beq_iff_eq.1 (Bool.and_eq_true_iff.1 hagg).1, howed⟩
  have hsame : ∀ x ∈ batch, ∀ e ∈ batch, x.id = e.id → x = e := fun x hx e he =>
    List.inj_on_of_nodup_map hids hx he
  refine hlacks.lined_effect hreg now (fun e he x hx hid => ?_) (fun e he x hx howed hne hid => ?_)
  · obtain ⟨hbatch, hagg, hopen⟩ := hwanted e he
    obtain ⟨gone, hitems, -⟩ := hconsumed.items flow
    have hx₁ : x ∈ w₁.memory.queue.items flow := hitems ▸ List.mem_append_right _ hx
    rcases mem_items_of_offered hoffered hx₁ with hx₀ | hx₀
    · exact hnew x hx₀ e hbatch hid
    · -- then the event both waits and is missing
      obtain rfl := hsame x hx₀ e hbatch hid
      have hwaits : x ∈ waiting registry w₂.memory flow a :=
        List.mem_filter.2 ⟨hx, by rw [hagg, hopen, beq_self_eq_true, Bool.and_true]⟩
      have hnodup := nodup_due registry w₂.lawful.numbered flow a
      rw [← hlacks] at hnodup
      exact (List.nodup_append.1 hnodup).2.2 x hwaits x he rfl
  · obtain ⟨hbatch, hagg, -⟩ := hwanted e he
    rw [hconsumed.log] at hx
    rcases (mem_events_of_offered hoffered).1 hx with hx₀ | hx₀
    · have howed₀ := hconsumed.owed flow x howed
      rw [isOwed_of_offered hoffered] at howed₀
      exact hother x hx₀ howed₀ e hbatch hagg hid
    · exact hne (hsame x hx₀ e hbatch hid)

end

/-- **What a failure holds back comes in order with the next recovery.** From any state that can be
reached, an accepted batch of new ids is published whatever enqueueings fail, and of each aggregate
each lane gets what its flow wants up to the first failure there. If a lane held all that its flow
was owed of an aggregate, and nothing that the flow was owed has the id of an event of that
aggregate in the batch, then after whatever consumers do and a recovery without failures it does so
again. -/
theorem lined_after_recovery {s : System} {batch : List Event} {l : EventLog}
    (hreg : registry.Built) (hs : System.Reachable registry s)
    (happend : s.memory.log.append batch = .ok l) (hids : (batch.map (·.id)).Nodup)
    (hnew : ∀ flow, ∀ x ∈ s.memory.queue.items flow, ∀ e ∈ batch, x.id ≠ e.id)
    (faults : Faults) (clock : Clock) :
    ∃ m₁, Work.troubled faults clock (Publish.publish registry batch) s.memory = (.ok (), m₁) ∧
      Publish.Offered registry faults batch s.memory m₁ ∧
      ∀ flow a, Lined registry s.memory flow a →
        (∀ x ∈ s.memory.log.events, isOwed registry s.memory flow x = true →
          ∀ e ∈ batch, e.aggregateId = a → x.id ≠ e.id) →
        ∀ jobs : List (Task × Clock), (∀ job ∈ jobs, job.1.isConsuming = true) → ∀ later,
          ∃ report m₂, Work.alone later (Recovery.run registry)
              (jobs.foldl (System.carryOut registry) m₁) = (.ok report, m₂) ∧
            Lined registry m₂ flow a := by
  obtain ⟨w, hw⟩ := hs.exists_world
  rw [← hw.memory] at happend hnew ⊢
  obtain ⟨w₁, hpublish, hoffered⟩ := exists_offered hreg happend hids hnew faults clock
  refine ⟨w₁.memory, hpublish, hoffered, fun flow a hlined hother jobs hjobs later => ?_⟩
  obtain ⟨w₂, -, hw₂, hconsumed⟩ := exists_consumed w₁ hjobs
  rw [← hw₂]
  exact ⟨_, _, Recovery.alone_run registry later w₂.memory w₂.lawful.numbered,
    lined_of_consumed hreg hids hoffered hconsumed (hnew flow) hlined hother _⟩

/-- Second revisions cannot be enqueued. -/
def failing : Faults := fun _ e => if e.revision = 2 then some "disk full" else none

/-- Of three events the second fails, the first is acknowledged, and a recovery brings the
others. -/
theorem lined_after_recovery_of_failing :
    ∃ m₁ report m₂, Work.troubled failing (Sample.clockAt 1) (Publish.publish Sample.registry
        [Sample.placed 1, Sample.placed 2, Sample.placed 3]) {} = (.ok (), m₁) ∧
      m₁.queue.items "mail" = [Sample.placed 1] ∧
      Work.alone (Sample.clockAt 4) (Recovery.run Sample.registry)
        ([(.lease, Sample.clockAt 2), (.acknowledge ⟨"mail", .ofNat 2⟩, Sample.clockAt 3)].foldl
          (System.carryOut Sample.registry) m₁) = (.ok report, m₂) ∧
      waiting Sample.registry m₂ "mail" (.ofNat 7) = [Sample.placed 2, Sample.placed 3] := by
  have happend : ({} : System).memory.log.append
      [Sample.placed 1, Sample.placed 2, Sample.placed 3] =
        .ok ⟨[Sample.placed 1, Sample.placed 2, Sample.placed 3], []⟩ := rfl
  obtain ⟨m₁, hpublish, -, hrest⟩ := lined_after_recovery Sample.registry_built .refl happend
    (by decide) (fun _ _ hx => by cases hx) failing (Sample.clockAt 1)
  obtain rfl : _ = m₁ := congrArg Prod.snd hpublish
  obtain ⟨report, m₂, hrun, hlined⟩ := hrest "mail" (.ofNat 7) rfl (fun _ hx => by cases hx)
    [(.lease, Sample.clockAt 2), (.acknowledge ⟨"mail", .ofNat 2⟩, Sample.clockAt 3)]
    (by decide) (Sample.clockAt 4)
  obtain rfl : _ = m₂ := congrArg Prod.snd hrun
  exact ⟨_, report, _, hpublish, rfl, hrun, hlined⟩

/-- An event of another order that has the id of the second revision. -/
def namesake : Event :=
  Event.create (.ofNat 2) 5 ⟨"shop"⟩ ⟨"order", .ofNat 8⟩ "placed" .null 1

/-- A publisher stopped right after it stored the `namesake`. -/
def orphaned : System where
  memory := { log := { events := [namesake] } }
  parties := [⟨.publish [namesake],
    (do Publish.enqueueBatch Sample.registry [namesake] []; pure (.ok ())),
    [⟨.log (.append [namesake]), .ok ()⟩]⟩]

theorem reachable_orphaned : System.Reachable Sample.registry orphaned := by
  refine .tail (.single (.start {} (.publish [namesake]))) ?_
  exact .call [] _ [] [] (.given (Sample.readingAt 0) _)

/-- Without the last condition a recovery can put another event first that has the id of one that
was held back, and then it finds that one queued already. -/
theorem not_lined_behind_namesake :
    ∃ s, System.Reachable Sample.registry s ∧
      (∃ l, s.memory.log.append [Sample.placed 2] = .ok l) ∧
      (∀ flow, ∀ x ∈ s.memory.queue.items flow, x.id ≠ (Sample.placed 2).id) ∧
      Lined Sample.registry s.memory "mail" (.ofNat 7) ∧
      ∃ m₁, Work.troubled failing (Sample.clockAt 2)
          (Publish.publish Sample.registry [Sample.placed 2]) s.memory = (.ok (), m₁) ∧
        ∃ report m₂, Work.alone (Sample.clockAt 3) (Recovery.run Sample.registry) m₁ =
            (.ok report, m₂) ∧
          ¬ Lined Sample.registry m₂ "mail" (.ofNat 7) := by
  obtain ⟨s, hs, hm⟩ := System.exists_leads_carryOut Sample.registry
    [(.publish [Sample.placed 1], Sample.clockAt 1)] orphaned
  refine ⟨s, reachable_orphaned.trans hs, ?_⟩
  rw [hm]
  refine ⟨⟨_, rfl⟩, fun flow x hx => ?_, rfl, _, rfl, _, _, rfl, fun hlined => ?_⟩
  · have hx' : x ∈ (Publish.offerAll Sample.registry [Sample.placed 1] .empty).items flow := hx
    have hids : ((([] : List Event) ++ [Sample.placed 1]).map (·.id)).Nodup := by decide
    rw [(Publish.items_offerAll Queue.WF.empty (fun _ _ h => by cases h) hids).2] at hx'
    rcases List.mem_append.1 hx' with h | h
    · cases h
    · rw [List.mem_singleton.1 (List.mem_filter.1 h).1]
      decide
  · exact absurd (congrArg List.length hlined) (by decide)

end Delivery

end EventRelay
