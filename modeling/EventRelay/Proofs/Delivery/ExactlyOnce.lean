import EventRelay.Proofs.Broker.Settled
import EventRelay.Proofs.Delivery.HoldBack
import EventRelay.Proofs.Delivery.RevisionOrder
import EventRelay.Proofs.Recovery.Asking

/-!
# Delivery once and in order

Where nothing fails and batches are published without a call in between, every stored event is
delivered once and in storage order to each of its owners: what a flow acknowledged so far, followed
by what waits in its lane, is what was stored for it. The calls of all others may mix. Leases may
run out and recoveries may come at any time; only a deferral changes the order.

There is one thing that must be kept apart. An acknowledgement takes its event off the lane and
records the progress after that, so in between the event is neither queued nor settled. A recovery
that looks after the aggregate at that moment takes the event for lost and puts it into the lane a
second time.
-/

namespace EventRelay

/-- The party has come to the end of its `Task`. -/
def Party.isDone (p : Party) : Bool :=
  match p.rest with
  | .done _ => true
  | .call .. => false

/-- The calls of the task may come between those of others: it neither publishes nor replays. -/
def Task.takesTurns : Task → Bool
  | publish _ | replay _ => false
  | lease | renew _ | release _ | acknowledge _ | defer .. | sweep | recover => true

namespace Said

/-- What was acknowledged on a flow, if this was the answer to a `QueueCall.acknowledge` there. -/
def acknowledgedOn? (flow : String) : Said → Option Event
  | ⟨.queue (.acknowledge lock), .ok e⟩ => if lock.lane = flow then some e else none
  | _ => none

/-- An item was to be deferred, by a `QueueCall.defer`. -/
def isDeferral : Said → Bool
  | ⟨.queue (.defer ..), _⟩ => true
  | _ => false

/-- What is off its lane and not recorded, after this was said. A `QueueCall.acknowledge` adds its
event, a `ProgressCall.record` takes it out. -/
def pend (subjects : List Subject) : Said → List Subject
  | ⟨.queue (.acknowledge lock), .ok e⟩ => ⟨lock.lane, e.aggregateId, e.revision⟩ :: subjects
  | ⟨.progress (.record flow a n), .ok ()⟩ => subjects.filter fun x => decide (x ≠ ⟨flow, a, n⟩)
  | _ => subjects

end Said

/-- What was acknowledged on a flow by `Said.acknowledgedOn?`, in the order of the
acknowledgements. -/
def acknowledgedOn (flow : String) (told : List Said) : List Event :=
  told.filterMap (Said.acknowledgedOn? flow)

/-- What a party took off its lane and has not recorded yet: `Said.pend`, said after said. -/
def pending (said : List Said) : List Subject := said.foldl Said.pend []

/-- The stored events that `Registry.owners` gives to a flow, in storage order. -/
def EventLog.ownedBy (l : EventLog) (registry : Registry) (flow : String) : List Event :=
  l.events.filter fun e => decide (flow ∈ registry.owners e)

namespace Delivery

/-- Nobody looks after an aggregate for a flow, by `lookingAt?`, while an event of it is off the
lane of that flow and still `pending`. -/
def Apart (s : System) : Prop :=
  ∀ p ∈ s.parties, p.isDone = false → ∀ look ∈ lookingAt? p.said,
    ∀ q ∈ s.parties, ∀ x ∈ pending q.said, ¬ (x.flow = look.flow ∧ x.aggregate = look.aggregateId)

instance (s : System) : Decidable (Apart s) := by
  unfold Apart
  infer_instance

/-- The system got here from the empty broker while nothing failed and nobody replayed. A batch is
published without a call in between, and all others take turns, call by call. With it comes what
these were told, in order. `P` holds after each of their calls. -/
inductive Course (registry : Registry) (P : System → Prop) : List Said → System → Prop
  | start : Course registry P [] {}
  | publish {told : List Said} {s : System} (h : Course registry P told s) (batch : List Event)
      (clock : Clock) : Course registry P told (s.carriedOut registry (.publish batch) clock)
  | join {told : List Said} {s : System} (h : Course registry P told s) (t : Task) :
      t.takesTurns = true →
      Course registry P told ⟨s.memory, s.parties ++ [⟨t, t.work registry, []⟩]⟩
  | call {told : List Said} {m : Memory} {t : Task} {c : Call} (before : List Party)
      (next : c.Answer → Work t.Outcome) (said : List Said) (after : List Party)
      (r : Call.Reading) :
      Course registry P told ⟨m, before ++ ⟨t, .call c next, said⟩ :: after⟩ →
      P ⟨(m.answer r c).2, before ++
        ⟨t, next (m.answer r c).1, said ++ [⟨c, (m.answer r c).1⟩]⟩ :: after⟩ →
      Course registry P (told ++ [⟨c, (m.answer r c).1⟩]) ⟨(m.answer r c).2, before ++
        ⟨t, next (m.answer r c).1, said ++ [⟨c, (m.answer r c).1⟩]⟩ :: after⟩

/-- Every event that was stored for a flow was delivered to it once or waits for it once. -/
structure DeliveredOnce (registry : Registry) (told : List Said) (s : System) : Prop where
  perm : ∀ flow, (acknowledgedOn flow told ++ s.memory.queue.items flow).Perm
    (s.memory.log.ownedBy registry flow)
  distinct : ∀ flow, ((acknowledgedOn flow told ++ s.memory.queue.items flow).map (·.id)).Nodup
  /-- If nothing was deferred, then in storage order. -/
  ordered : (∀ x ∈ told, x.isDeferral = false) → ∀ flow,
    acknowledgedOn flow told ++ s.memory.queue.items flow = s.memory.log.ownedBy registry flow
  /-- No recovery put anything into a lane, and those that are done have reported so. -/
  idle : ∀ rest said, (⟨.recover, rest, said⟩ : Party) ∈ s.parties → ¬ Enqueued said ∧
    ∀ outcome, rest = .done outcome → ∃ report, outcome = .ok report ∧ report.reEnqueued = 0

variable {registry : Registry} {P : System → Prop} {told said : List Said} {s : System}
  {m m' : Memory} {x : Said} {p : Party}

/-- Such a course is one that the system can take by `System.Step`. -/
theorem Course.reachable (h : Course registry P told s) : System.Reachable registry s := by
  induction h with
  | start => exact .refl
  | publish _ batch clock ih => exact ih.trans (System.leads_carriedOut registry _ _ clock)
  | join _ t _ ih => exact ih.tail (.start _ t)
  | call before next said after r _ _ ih =>
    exact ih.tail (.call before next said after (.given r _))

/-! ## What was said -/

theorem acknowledgedOn_snoc (flow : String) (told : List Said) (x : Said) :
    acknowledgedOn flow (told ++ [x]) =
      acknowledgedOn flow told ++ (x.acknowledgedOn? flow).toList := by
  unfold acknowledgedOn
  rw [List.filterMap_append]
  cases hx : x.acknowledgedOn? flow <;> simp [hx]

theorem pending_snoc (said : List Said) (x : Said) :
    pending (said ++ [x]) = Said.pend (pending said) x := List.foldl_concat ..

/-- What is `pending` stays so until it is recorded. -/
theorem mem_pending_snoc {y : Subject} (h : y ∈ pending said) : y ∈ pending (said ++ [x]) ∨
    x = ⟨.progress (.record y.flow y.aggregate y.revision), .ok ()⟩ := by
  rw [pending_snoc]
  unfold Said.pend
  split
  · exact .inl (List.mem_cons_of_mem _ h)
  · next flow a n =>
    by_cases hy : y = ⟨flow, a, n⟩
    · rw [hy]
      exact .inr rfl
    · exact .inl (List.mem_filter.2 ⟨h, decide_eq_true hy⟩)
  · exact .inl h

/-- What was just acknowledged is `pending`. -/
theorem mem_pending_of_acknowledged {flow : String} {e : Event}
    (h : x.acknowledgedOn? flow = some e) :
    (⟨flow, e.aggregateId, e.revision⟩ : Subject) ∈ pending (said ++ [x]) := by
  unfold Said.acknowledgedOn? at h
  split at h
  · split at h
    · next hlane =>
      obtain rfl := Option.some.inj h
      subst hlane
      rw [pending_snoc]
      exact List.mem_cons_self
    · cases h
  · cases h

/-- What a party looks at it looked at before, or was told last. -/
theorem mem_lookingAt?_snoc {look : Look} (h : look ∈ lookingAt? (said ++ [x])) :
    look ∈ lookingAt? said ∨
      x = ⟨.progress (.get look.flow look.aggregateId), .ok look.progress⟩ := by
  rw [lookingAt?_snoc] at h
  unfold Said.look at h
  split at h
  · obtain rfl := Option.some.inj h
    exact .inr rfl
  · cases h
  · cases h
  · exact .inl h

/-! ## What a call does -/

/-- The call stores nothing, and what it offers to a lane waits there. -/
structure Harmless (m : Memory) (c : Call) : Prop where
  storesNot : ∀ batch, c ≠ .log (.append batch)
  offers : ∀ flow e priority, c = .queue (.enqueue flow e priority) → e ∈ m.queue.items flow

/-- What a `Harmless` call changes, and what its answer says of the memory. -/
structure Answered (m m' : Memory) (x : Said) : Prop where
  log : m'.log.events = m.log.events
  wf : m'.queue.WF
  /-- What was acknowledged came off the front of its lane, and only a deferral moves an item. -/
  lanes : ∀ flow, (x.acknowledgedOn? flow).toList ++ m'.queue.items flow = m.queue.items flow ∨
    x.isDeferral = true ∧ x.acknowledgedOn? flow = none ∧
      (m'.queue.items flow).Perm (m.queue.items flow)
  settled : ∀ flow a n, m.progress.Settled flow a n → m'.progress.Settled flow a n
  recorded : ∀ flow a n, x = ⟨.progress (.record flow a n), .ok ()⟩ →
    m'.progress.Settled flow a n
  looked : ∀ flow a p, x = ⟨.progress (.get flow a), .ok p⟩ → m'.progress.get flow a = p
  read : ∀ reader reader' e, x = ⟨.log (.next reader), (some (.ok e), reader')⟩ →
    e ∈ m.log.events
  refused : ∀ flow e priority a, x = ⟨.queue (.enqueue flow e priority), a⟩ →
    ∃ lane key, a = .error (.itemAlreadyQueued lane key)

/-- What waited in a lane was acknowledged, by `Said.acknowledgedOn?`, or still waits there. -/
theorem Answered.mem_items (hm : Answered m m' x) {flow : String} {e : Event}
    (he : e ∈ m.queue.items flow) :
    x.acknowledgedOn? flow = some e ∨ e ∈ m'.queue.items flow := by
  rcases hm.lanes flow with hlane | ⟨-, -, hperm⟩
  · rw [← hlane] at he
    exact (List.mem_append.1 he).imp_left Option.mem_toList.1
  · exact .inr (hperm.mem_iff.2 he)

/-- Whatever is in a lane was in it before. -/
theorem Answered.items_subset (hm : Answered m m' x) (flow : String) :
    m'.queue.items flow ⊆ m.queue.items flow := by
  rcases hm.lanes flow with hlane | ⟨-, -, hperm⟩
  · exact hlane ▸ List.subset_append_right _ _
  · exact hperm.subset

theorem answered_log {c : LogCall} (hq : m.queue.WF) (hc : ∀ batch, c ≠ .append batch)
    (r : Call.Reading) :
    Answered m (m.answer r (.log c)).2 ⟨.log c, (m.answer r (.log c)).1⟩ where
  log := answerLog_events m.log hc
  wf := hq
  lanes _ := .inl rfl
  settled _ _ _ h := h
  recorded _ _ _ h := nomatch congrArg Said.call h
  looked _ _ _ h := nomatch congrArg Said.call h
  read _ _ _ h := by
    obtain ⟨hcall, hanswer⟩ := Said.mk.inj h
    obtain rfl := Call.log.inj hcall
    obtain ⟨_, _, -, -, hnext⟩ := answerLog_next_ok (eq_of_heq hanswer)
    exact EventLog.mem_of_next? hnext
  refused _ _ _ _ h := nomatch congrArg Said.call h

/-- A call on the queue that only enqueues where the event waits, so that it is refused. -/
theorem answered_queue {c : QueueCall Event} {a : c.Answer} {q : Queue Event} (hq : q.WF)
    (hlanes : ∀ flow, (Said.acknowledgedOn? flow ⟨.queue c, a⟩).toList ++ q.items flow =
        m.queue.items flow ∨
      Said.isDeferral ⟨.queue c, a⟩ = true ∧ Said.acknowledgedOn? flow ⟨.queue c, a⟩ = none ∧
        (q.items flow).Perm (m.queue.items flow))
    (hrefused : ∀ flow e priority a', (⟨.queue c, a⟩ : Said) =
      ⟨.queue (.enqueue flow e priority), a'⟩ →
        ∃ lane key, a' = .error (.itemAlreadyQueued lane key)) :
    Answered m { m with queue := q } ⟨.queue c, a⟩ where
  log := rfl
  wf := hq
  lanes := hlanes
  settled _ _ _ h := h
  recorded _ _ _ h := nomatch congrArg Said.call h
  looked _ _ _ h := nomatch congrArg Said.call h
  read _ _ _ h := nomatch congrArg Said.call h
  refused := hrefused

/-- `answered_queue` for the calls that enqueue nothing. -/
theorem answered_settling {c : QueueCall Event} {a : c.Answer} {q : Queue Event}
    (hc : (Call.queue c).isGuarded = false) (hq : q.WF)
    (hlanes : ∀ flow, (Said.acknowledgedOn? flow ⟨.queue c, a⟩).toList ++ q.items flow =
        m.queue.items flow ∨
      Said.isDeferral ⟨.queue c, a⟩ = true ∧ Said.acknowledgedOn? flow ⟨.queue c, a⟩ = none ∧
        (q.items flow).Perm (m.queue.items flow)) :
    Answered m { m with queue := q } ⟨.queue c, a⟩ := by
  refine answered_queue hq hlanes fun flow e priority a' h => ?_
  obtain rfl := Call.queue.inj (congrArg Said.call h)
  cases hc

/-- An acknowledgement takes the head off its lane, or is refused and changes nothing. -/
theorem answered_acknowledge (hq : m.queue.WF) (lock : Lock) (r : Call.Reading) :
    Answered m (m.answer r (.queue (.acknowledge lock))).2
      ⟨.queue (.acknowledge lock), (m.answer r (.queue (.acknowledge lock))).1⟩ := by
  have hwf := hq.acknowledge lock r.now
  simp only [Memory.answer, Memory.answerQueue]
  rcases hq.acknowledge_cases lock r.now with ⟨e, hack⟩ | ⟨e, q, hack, hitems⟩
  · rw [hack]
    exact answered_settling rfl hq fun _ => .inl rfl
  · rw [hack] at hwf ⊢
    refine answered_settling rfl hwf fun flow => .inl ?_
    rw [hitems]
    by_cases hlane : lock.lane = flow
    · simp [Said.acknowledgedOn?, hlane]
    · simp [Said.acknowledgedOn?, hlane, Ne.symm hlane]

/-- A deferral moves the head within its lane, or is refused. -/
theorem answered_defer (hq : m.queue.WF) (lock : Lock) (priority : Int) (r : Call.Reading) :
    Answered m (m.answer r (.queue (.defer lock priority))).2
      ⟨.queue (.defer lock priority), (m.answer r (.queue (.defer lock priority))).1⟩ := by
  have hwf := hq.defer lock priority r.now
  simp only [Memory.answer, Memory.answerQueue]
  rcases hq.defer_cases lock priority r.now with
    ⟨e, q, hdefer, hitems⟩ | ⟨e, rest, q, hdefer, hhead, hitems⟩
  · rw [hdefer] at hwf ⊢
    exact answered_settling rfl hwf fun flow => .inl (hitems flow)
  · rw [hdefer] at hwf ⊢
    refine answered_settling rfl hwf fun flow => .inr ⟨rfl, rfl, ?_⟩
    rw [hitems]
    split
    · next hlane =>
      rw [hlane, hhead]
      exact List.perm_append_singleton e rest
    · exact .refl _

/-- What is offered to a lane in which it waits is refused, and nothing changes. -/
theorem answered_enqueue (hq : m.queue.WF) {flow : String} {e : Event}
    (he : e ∈ m.queue.items flow) (priority : Int) (r : Call.Reading) :
    Answered m (m.answer r (.queue (.enqueue flow e priority))).2
      ⟨.queue (.enqueue flow e priority), (m.answer r (.queue (.enqueue flow e priority))).1⟩ := by
  have hrefused := Queue.enqueue_of_hasKey priority (hq.hasKey_of_mem_items he)
  simp only [Memory.answer, Memory.answerQueue, hrefused]
  refine answered_queue hq (fun _ => .inl rfl) fun _ _ _ _ h => ?_
  obtain ⟨hcall, hanswer⟩ := Said.mk.inj h
  obtain ⟨rfl, rfl, rfl⟩ := QueueCall.enqueue.inj (Call.queue.inj hcall)
  exact ⟨_, _, (eq_of_heq hanswer).symm⟩

theorem answered_progress (hq : m.queue.WF) (c : ProgressCall) (r : Call.Reading) :
    Answered m (m.answer r (.progress c)).2
      ⟨.progress c, (m.answer r (.progress c)).1⟩ where
  log := rfl
  wf := hq
  lanes _ := .inl rfl
  settled flow a n h := by
    cases c with
    | get => exact h
    | record => exact ProgressTable.settled_record.2 (.inl h)
    | advance => exact ProgressTable.settled_advance.2 (.inl h)
  recorded flow a n h := by
    obtain rfl := Call.progress.inj (Said.mk.inj h).1
    exact ProgressTable.settled_record.2 (.inr ⟨rfl, rfl, rfl⟩)
  looked flow a p h := by
    obtain ⟨hcall, hanswer⟩ := Said.mk.inj h
    obtain rfl := Call.progress.inj hcall
    exact Except.ok.inj (eq_of_heq hanswer)
  read _ _ _ h := nomatch congrArg Said.call h
  refused _ _ _ _ h := nomatch congrArg Said.call h

/-- What a `Harmless` call does, whichever it is. -/
theorem answered {c : Call} (hq : m.queue.WF) (hc : c.isGuarded = true → Harmless m c)
    (r : Call.Reading) : Answered m (m.answer r c).2 ⟨c, (m.answer r c).1⟩ := by
  cases c with
  | log c => exact answered_log hq (fun batch h => (hc rfl).storesNot batch (h ▸ rfl)) r
  | progress c => exact answered_progress hq c r
  | wake | note =>
    exact
      { log := rfl
        wf := hq
        lanes := fun _ => .inl rfl
        settled := fun _ _ _ h => h
        recorded := fun _ _ _ h => nomatch congrArg Said.call h
        looked := fun _ _ _ h => nomatch congrArg Said.call h
        read := fun _ _ _ h => nomatch congrArg Said.call h
        refused := fun _ _ _ _ h => nomatch congrArg Said.call h }
  | queue c =>
    cases c with
    | enqueue flow e priority =>
      exact answered_enqueue hq ((hc rfl).offers flow e priority rfl) priority r
    | acknowledge lock => exact answered_acknowledge hq lock r
    | defer lock priority => exact answered_defer hq lock priority r
    | lease =>
      exact answered_settling rfl (hq.lease r.now r.expiration r.fresh)
        fun flow => .inl (hq.items_lease r.now r.expiration r.fresh flow)
    | renew lock =>
      exact answered_settling rfl (hq.renew lock r.now r.expiration)
        fun flow => .inl (hq.items_renew lock r.now r.expiration flow)
    | release lock =>
      exact answered_settling rfl (hq.release lock r.now)
        fun flow => .inl (hq.items_release lock r.now flow)
    | sweep =>
      exact answered_settling rfl (hq.sweep r.now) fun flow => .inl (hq.items_sweep r.now flow)
    | isQueued => exact answered_settling rfl hq fun _ => .inl rfl

/-! ## What always holds -/

/-- The party keeps to its task by `Asks`. Nothing it offered went into a lane, and the `Look` that
it takes shows all that is wanted there and does not wait in the lane. -/
structure Minds (registry : Registry) (m : Memory) (p : Party) : Prop where
  asks : Asks (p.task.Asking registry) p.task.Ending p.rest p.said
  told : ∀ e, Recovery.ToldEvent p.said e → e ∈ m.log.events
  refused : ∀ flow e priority a, (⟨.queue (.enqueue flow e priority), a⟩ : Said) ∈ p.said →
    ∃ lane key, a = .error (.itemAlreadyQueued lane key)
  looking : p.isDone = false → ∀ look ∈ lookingAt? p.said, ∀ e ∈ m.log.events,
    e.aggregateId = look.aggregateId → look.flow ∈ registry.owners e →
      look.progress.isSettled e.revision = true ∨ e ∈ m.queue.items look.flow

/-- Every stored event is `Recovery.Handled` for each of its owners, or is `pending` with
somebody. -/
structure Sane (registry : Registry) (s : System) : Prop where
  stocked : Stocked s.memory.log s.memory.queue
  handled : ∀ flow, ∀ e ∈ s.memory.log.events, flow ∈ registry.owners e →
    Recovery.Handled s.memory flow e ∨
      ∃ p ∈ s.parties, (⟨flow, e.aggregateId, e.revision⟩ : Subject) ∈ pending p.said
  turns : ∀ p ∈ s.parties, p.isDone = false → p.task.takesTurns = true
  minds : ∀ p ∈ s.parties, p.task.takesTurns = true → Minds registry s.memory p

/-- What is acknowledged and what waits is `EventLog.ownedBy`, for every flow. -/
structure Balanced (registry : Registry) (told : List Said) (m : Memory) : Prop where
  perm : ∀ flow, (acknowledgedOn flow told ++ m.queue.items flow).Perm
    (m.log.ownedBy registry flow)
  ordered : (∀ x ∈ told, x.isDeferral = false) → ∀ flow,
    acknowledgedOn flow told ++ m.queue.items flow = m.log.ownedBy registry flow

theorem mem_owners_of_routesTo {flow : String} {e : Event}
    (h : registry.routesTo e flow = true) : flow ∈ registry.owners e := by
  unfold Registry.routesTo at h
  split at h
  · next patterns hfind =>
    have hmem := ByName.mem_of_find? hfind
    exact List.mem_map.2 ⟨_, List.mem_filter.2 ⟨hmem, h⟩, rfl⟩
  · cases h

theorem sane_empty : Sane registry {} where
  stocked := ⟨Queue.WF.empty, fun _ _ he => by cases he⟩
  handled _ _ he := by cases he
  turns := List.forall_mem_nil _
  minds := List.forall_mem_nil _

theorem balanced_empty : Balanced registry [] {} where
  perm _ := .refl _
  ordered _ _ := rfl

/-! ## Publications -/

/-- What a publication that is not disturbed changes: a batch goes to the end of the log, and each
of its events to the ends of the lanes of its owners. -/
structure Published (registry : Registry) (batch : List Event) (m m' : Memory) : Prop where
  log : m'.log.events = m.log.events ++ batch
  wf : m'.queue.WF
  lanes : ∀ flow, m'.queue.items flow =
    m.queue.items flow ++ batch.filter fun e => decide (flow ∈ registry.owners e)
  progress : m'.progress = m.progress

/-- A batch that `append` refuses changes nothing. -/
theorem exists_published (hs : Stocked m.log m.queue) (batch : List Event) (clock : Clock)
    (hids : (Work.alone clock (Publish.publish registry batch) m).2.log.DistinctIds) :
    ∃ batch', Published registry batch' m
      (Work.alone clock (Publish.publish registry batch) m).2 := by
  cases happend : m.log.append batch with
  | error e =>
    rw [Publish.comes_publish_error happend clock rfl]
    exact ⟨[], by simp, hs.wf, by simp, rfl⟩
  | ok l =>
    rw [Publish.comes_publish_ok happend clock rfl] at hids ⊢
    obtain ⟨rfl, -⟩ := EventLog.append_eq_ok happend
    obtain ⟨hwf, hitems⟩ := Publish.items_offerAll hs.wf hs.stored hids
    exact ⟨batch, rfl, hwf, hitems, rfl⟩

/-- A publication between two calls of a party adds to the lanes what it adds to the log, so what
the party looks at goes on showing the rest. -/
theorem Minds.publish {batch : List Event} (h : Minds registry m p)
    (hm : Published registry batch m m') : Minds registry m' p where
  asks := h.asks
  told e he := hm.log ▸ List.mem_append_left _ (h.told e he)
  refused := h.refused
  looking hdone look hlook e he hagg howner := by
    rw [hm.log] at he
    rw [hm.lanes]
    rcases List.mem_append.1 he with he | he
    · exact (h.looking hdone look hlook e he hagg howner).imp_right (List.mem_append_left _)
    · right
      exact List.mem_append_right _ (List.mem_filter.2 ⟨he, by simpa using howner⟩)

/-- What is `Published` waits for each of its owners. -/
theorem Sane.publish {batch : List Event} (h : Sane registry s)
    (hm : Published registry batch s.memory m') {q : Party} (hdone : q.isDone = true)
    (htask : q.task.takesTurns = false) : Sane registry ⟨m', s.parties ++ [q]⟩ where
  stocked := by
    refine ⟨hm.wf, fun flow e he => ?_⟩
    rw [hm.log]
    rw [hm.lanes] at he
    rcases List.mem_append.1 he with he | he
    · exact List.mem_append_left _ (h.stocked.stored flow e he)
    · exact List.mem_append_right _ (List.mem_filter.1 he).1
  handled flow e he howner := by
    rw [hm.log] at he
    unfold Recovery.Handled
    rw [hm.lanes, hm.progress]
    rcases List.mem_append.1 he with he | he
    · rcases h.handled flow e he howner with hhandled | ⟨p, hp, hpending⟩
      · exact .inl (hhandled.imp_right (List.mem_append_left _))
      · exact .inr ⟨p, List.mem_append_left _ hp, hpending⟩
    · left; right
      exact List.mem_append_right _ (List.mem_filter.2 ⟨he, by simpa using howner⟩)
  turns := by
    refine List.forall_mem_append.2 ⟨h.turns, List.forall_mem_singleton.2 fun hopen => ?_⟩
    exact absurd (hopen.symm.trans hdone) nofun
  minds := by
    refine List.forall_mem_append.2 ⟨fun p hp ht => (h.minds p hp ht).publish hm, ?_⟩
    exact List.forall_mem_singleton.2 fun ht => absurd (htask.symm.trans ht) nofun

/-- What is `Published` adds the same events to what is owned and to what waits. -/
theorem Balanced.publish {batch : List Event} (h : Balanced registry told m)
    (hm : Published registry batch m m') : Balanced registry told m' := by
  have howned : ∀ flow, m'.log.ownedBy registry flow = m.log.ownedBy registry flow ++
      batch.filter fun e => decide (flow ∈ registry.owners e) := by
    intro flow
    simp [EventLog.ownedBy, hm.log]
  refine ⟨fun flow => ?_, fun hnone flow => ?_⟩
  · rw [howned, hm.lanes, ← List.append_assoc]
    exact (h.perm flow).append_right _
  · rw [howned, hm.lanes, ← List.append_assoc, h.ordered hnone flow]

/-! ## Turns -/

section

variable {before after : List Party} {t : Task} {c : Call} {next : c.Answer → Work t.Outcome}

/-- What a recovery offers to a lane waits there, so the call is `Harmless`: otherwise the event
would be settled in what the recovery looks at. Nobody else offers anything. -/
theorem Minds.harmless (h : Minds registry m ⟨t, .call c next, said⟩) (ht : t.takesTurns = true)
    (hc : c.isGuarded = true) : Harmless m c := by
  have hask := h.asks.1 hc
  cases t with
  | publish | replay => cases ht
  | lease | renew | release | acknowledge | defer | sweep => exact hask.elim
  | recover =>
    refine ⟨hask.storesNot, fun flow e priority heq => ?_⟩
    obtain ⟨hroute, htold, p, hlook, hopen⟩ := hask.offers flow e priority heq
    have howner := mem_owners_of_routesTo hroute
    rcases h.looking rfl _ hlook e (h.told e htold) rfl howner with hset | he
    · exact absurd (hopen.symm.trans hset) nofun
    · exact he

/-- Where the parties are `Apart`, nothing that was acknowledged is of an aggregate that a party
looks after. -/
theorem Apart.ne_of_acknowledged {q : Party} (h : Apart s) (hp : p ∈ s.parties)
    (hdone : p.isDone = false) {look : Look} (hlook : look ∈ lookingAt? p.said) (hq : q ∈ s.parties)
    (hsaid : q.said = said ++ [x]) {e : Event} (hx : x.acknowledgedOn? look.flow = some e) :
    e.aggregateId ≠ look.aggregateId := fun hagg =>
  h p hp hdone look hlook q hq _ (hsaid ▸ mem_pending_of_acknowledged hx) ⟨rfl, hagg⟩

/-- What a party looks at goes on showing what does not wait in the lane, as long as nothing of the
aggregate is acknowledged there. -/
theorem Minds.looking_answered (h : Minds registry m p) (hm : Answered m m' x)
    (hopen : p.isDone = false) {look : Look} (hlook : look ∈ lookingAt? p.said)
    (hne : ∀ e, x.acknowledgedOn? look.flow = some e → e.aggregateId ≠ look.aggregateId)
    {e : Event} (he : e ∈ m'.log.events) (hagg : e.aggregateId = look.aggregateId)
    (howner : look.flow ∈ registry.owners e) :
    look.progress.isSettled e.revision = true ∨ e ∈ m'.queue.items look.flow := by
  rw [hm.log] at he
  refine (h.looking hopen look hlook e he hagg howner).imp_right fun hmem => ?_
  exact (hm.mem_items hmem).resolve_left fun hx => hne e hx hagg

/-- What was settled or waited, or was off its lane, still is one of these. -/
theorem handled_turn (hm : Answered m m' x) {rest rest' : Work t.Outcome} {flow : String}
    {e : Event} (h : Recovery.Handled m flow e ∨ ∃ p ∈ before ++ (⟨t, rest, said⟩ : Party) :: after,
      (⟨flow, e.aggregateId, e.revision⟩ : Subject) ∈ pending p.said) :
    Recovery.Handled m' flow e ∨ ∃ p ∈ before ++ (⟨t, rest', said ++ [x]⟩ : Party) :: after,
      (⟨flow, e.aggregateId, e.revision⟩ : Subject) ∈ pending p.said := by
  have hcaller : (⟨t, rest', said ++ [x]⟩ : Party) ∈
      before ++ (⟨t, rest', said ++ [x]⟩ : Party) :: after :=
    List.mem_append_right _ List.mem_cons_self
  rcases h with (hset | hmem) | ⟨p, hp, hpending⟩
  · exact .inl (.inl (hm.settled _ _ _ hset))
  · rcases hm.mem_items hmem with hack | hmem
    · exact .inr ⟨_, hcaller, mem_pending_of_acknowledged hack⟩
    · exact .inl (.inr hmem)
  · rcases List.mem_cons.1 (List.perm_middle.mem_iff.1 hp) with rfl | hother
    · rcases mem_pending_snoc hpending with hpending | hrecord
      · exact .inr ⟨_, hcaller, hpending⟩
      · exact .inl (.inl (hm.recorded _ _ _ hrecord))
    · refine .inr ⟨p, List.perm_middle.mem_iff.2 (List.mem_cons_of_mem _ hother), hpending⟩

/-- The next call of a party is `Answered` as a harmless one is. -/
theorem Sane.answered (h : Sane registry s)
    (hp : (⟨t, .call c next, said⟩ : Party) ∈ s.parties) (r : Call.Reading) :
    Answered s.memory (s.memory.answer r c).2 ⟨c, (s.memory.answer r c).1⟩ := by
  have ht := h.turns _ hp rfl
  exact Delivery.answered h.stocked.wf ((h.minds _ hp ht).harmless ht) r

/-- A call of one party: `handled_turn` for the events, and `Minds.looking_answered` for each party
that looks after an aggregate. -/
theorem Sane.turn (h : Sane registry ⟨m, before ++ ⟨t, .call c next, said⟩ :: after⟩)
    (r : Call.Reading) (hapart : Apart ⟨(m.answer r c).2, before ++
      ⟨t, next (m.answer r c).1, said ++ [⟨c, (m.answer r c).1⟩]⟩ :: after⟩) :
    Sane registry ⟨(m.answer r c).2, before ++
      ⟨t, next (m.answer r c).1, said ++ [⟨c, (m.answer r c).1⟩]⟩ :: after⟩ := by
  obtain ⟨hturns, hothers⟩ := List.forall_mem_cons.1 fun p hp =>
    h.turns p (List.perm_middle.mem_iff.2 hp)
  obtain ⟨hminds, hminds'⟩ := List.forall_mem_cons.1 fun p hp =>
    h.minds p (List.perm_middle.mem_iff.2 hp)
  have ht : t.takesTurns = true := hturns rfl
  have hcaller := hminds ht
  have hm := h.answered (List.mem_append_right _ List.mem_cons_self) r
  have hmem : (⟨t, next (m.answer r c).1, said ++ [⟨c, (m.answer r c).1⟩]⟩ : Party) ∈
      before ++ ⟨t, next (m.answer r c).1, said ++ [⟨c, (m.answer r c).1⟩]⟩ :: after :=
    List.mem_append_right _ List.mem_cons_self
  have hhandled : ∀ flow, ∀ e ∈ (m.answer r c).2.log.events, flow ∈ registry.owners e →
      Recovery.Handled (m.answer r c).2 flow e ∨
        ∃ p ∈ before ++
          (⟨t, next (m.answer r c).1, said ++ [⟨c, (m.answer r c).1⟩]⟩ : Party) :: after,
          (⟨flow, e.aggregateId, e.revision⟩ : Subject) ∈ pending p.said :=
    fun flow e he howner => handled_turn hm (h.handled flow e (hm.log ▸ he) howner)
  refine ⟨⟨hm.wf, fun flow e he => ?_⟩, hhandled, fun p hp => ?_, fun p hp => ?_⟩
  · rw [hm.log]
    exact h.stocked.stored flow e (hm.items_subset flow he)
  · rcases List.mem_cons.1 (List.perm_middle.mem_iff.1 hp) with rfl | hother
    · exact fun _ => ht
    · exact hothers p hother
  · rcases List.mem_cons.1 (List.perm_middle.mem_iff.1 hp) with rfl | hother
    · intro _
      refine ⟨hcaller.asks.2 _ ⟨m, _, .given r c⟩, ?_, ?_, ?_⟩
      · rintro e ⟨reader, reader', he⟩
        rw [hm.log]
        rcases List.mem_append.1 he with he | he
        · exact hcaller.told e ⟨reader, reader', he⟩
        · exact hm.read reader reader' e (List.mem_singleton.1 he).symm
      · intro flow e priority a he
        rcases List.mem_append.1 he with he | he
        · exact hcaller.refused flow e priority a he
        · exact hm.refused flow e priority a (List.mem_singleton.1 he).symm
      · intro hopen look hlook e he hagg howner
        rcases mem_lookingAt?_snoc hlook with hold | hget
        · exact hcaller.looking_answered hm rfl hold
            (fun e hx => hapart.ne_of_acknowledged hp hopen hlook hmem rfl hx) he hagg howner
        · -- it was told the progress just now, and nothing of the aggregate is off the lane
          have hprogress := hm.looked _ _ _ hget
          rcases hhandled look.flow e he howner with (hset | hwaits) | ⟨q, hq, hpending⟩
          · left
            rw [← hprogress, ← hagg]
            exact hset
          · exact .inr hwaits
          · exact absurd ⟨rfl, hagg⟩ (hapart _ hp hopen look hlook q hq _ hpending)
    · intro htakes
      have hp' := hminds' p hother htakes
      refine ⟨hp'.asks, fun e he => hm.log.symm ▸ hp'.told e he, hp'.refused, ?_⟩
      intro hopen look hlook e he hagg howner
      exact hp'.looking_answered hm hopen hlook
        (fun e hx => hapart.ne_of_acknowledged hp hopen hlook hmem rfl hx) he hagg howner

/-- What a call acknowledges goes from the lane to what was told, and all else stays. -/
theorem Balanced.turn (h : Balanced registry told m) (hm : Answered m m' x) :
    Balanced registry (told ++ [x]) m' := by
  have howned : ∀ flow, m'.log.ownedBy registry flow = m.log.ownedBy registry flow := by
    intro flow
    simp only [EventLog.ownedBy, hm.log]
  refine ⟨fun flow => ?_, fun hnone flow => ?_⟩
  · rw [acknowledgedOn_snoc, howned]
    rcases hm.lanes flow with hlane | ⟨-, hack, hperm⟩
    · rw [List.append_assoc, hlane]
      exact h.perm flow
    · rw [hack, Option.toList_none, List.append_nil]
      exact (hperm.append_left _).trans (h.perm flow)
  · obtain ⟨hbefore, hx⟩ := List.forall_mem_append.1 hnone
    rw [acknowledgedOn_snoc, howned, ← h.ordered hbefore flow]
    rcases hm.lanes flow with hlane | ⟨hdefer, -⟩
    · rw [List.append_assoc, hlane]
    · exact absurd (hdefer.symm.trans (hx x (List.mem_singleton_self x))) nofun

end

/-! ## A whole course -/

theorem Sane.join (h : Sane registry s) {t : Task} (ht : t.takesTurns = true) :
    Sane registry ⟨s.memory, s.parties ++ [⟨t, t.work registry, []⟩]⟩ where
  stocked := h.stocked
  handled flow e he howner := by
    refine (h.handled flow e he howner).imp_right ?_
    rintro ⟨p, hp, hpending⟩
    exact ⟨p, List.mem_append_left _ hp, hpending⟩
  turns := List.forall_mem_append.2 ⟨h.turns, List.forall_mem_singleton.2 fun _ => ht⟩
  minds := by
    refine List.forall_mem_append.2 ⟨h.minds, List.forall_mem_singleton.2 fun _ => ?_⟩
    exact
      { asks := t.asks registry
        told := fun _ ⟨_, _, he⟩ => nomatch he
        refused := fun _ _ _ _ he => nomatch he
        looking := fun _ _ hlook => nomatch hlook }

/-- `Sane` and `Balanced` hold where a course begins and wherever it leads, as long as it keeps
`Apart` what has to be. By induction on the course. -/
theorem Course.sane_and_balanced (h : Course registry Apart told s)
    (hids : s.memory.log.DistinctIds) : Sane registry s ∧ Balanced registry told s.memory := by
  -- ids that differ after a step differed before it
  have hearlier : ∀ {told₀ : List Said} {s₀ s₁ : System}, Course registry Apart told₀ s₀ →
      System.Leads registry s₀ s₁ → s₁.memory.log.DistinctIds → s₀.memory.log.DistinctIds :=
    fun h₀ hleads hids => hids.sublist ((h₀.reachable.events_prefix hleads).sublist.map _)
  induction h with
  | start => exact ⟨sane_empty, balanced_empty⟩
  | publish h batch clock ih =>
    obtain ⟨hsane, hbalanced⟩ :=
      ih (hearlier h (System.leads_carriedOut registry _ (.publish batch) clock) hids)
    obtain ⟨batch', hm⟩ := exists_published hsane.stocked batch clock hids
    exact ⟨hsane.publish hm rfl rfl, hbalanced.publish hm⟩
  | join _ t ht ih =>
    obtain ⟨hsane, hbalanced⟩ := ih hids
    exact ⟨hsane.join ht, hbalanced⟩
  | @call told m t c before next said after r h hapart ih =>
    obtain ⟨hsane, hbalanced⟩ :=
      ih (hearlier h (.single (.call before next said after (.given r c))) hids)
    have hmem : (⟨t, .call c next, said⟩ : Party) ∈ before ++ ⟨t, .call c next, said⟩ :: after :=
      List.mem_append_right _ List.mem_cons_self
    exact ⟨hsane.turn r hapart, hbalanced.turn (hsane.answered hmem r)⟩

/-- Whoever has not `Enqueued` anything has reported so, and no failure. -/
theorem Minds.reports {rest : Work (Except RecoveryError RecoveryReport)}
    (h : Minds registry m ⟨.recover, rest, said⟩) : ¬ Enqueued said ∧ ∀ outcome,
      rest = .done outcome → ∃ report, outcome = .ok report ∧ report.reEnqueued = 0 := by
  have hnone : ¬ Enqueued said := by
    rintro ⟨flow, e, priority, hmem⟩
    obtain ⟨_, _, heq⟩ := h.refused flow e priority _ hmem
    cases heq
  refine ⟨hnone, ?_⟩
  rintro outcome rfl
  obtain ⟨htruthful, hstopped⟩ := h.asks
  cases outcome with
  | ok report =>
    exact ⟨report, rfl, Decidable.not_not.1 fun hne => hnone (htruthful report rfl hne)⟩
  | error err =>
    obtain ⟨reason, -, flow, e, priority, hmem⟩ := hstopped err rfl
    obtain ⟨_, _, heq⟩ := h.refused flow e priority _ hmem
    cases heq

/-- **Each event is delivered once and in order.** Nothing fails, nobody replays, ids of events
differ, batches are published without a call in between, and nobody looks after an aggregate for a
flow while an event of it is off that flow's lane and not recorded yet. Then, however the calls of
all others mix: what a flow acknowledged and what waits in its lane is what was stored for it, each
event once, and in storage order if nothing was deferred. No recovery put anything into a lane. -/
theorem delivered_once_in_order (h : Course registry Apart told s)
    (hids : s.memory.log.DistinctIds) : DeliveredOnce registry told s := by
  obtain ⟨hsane, hbalanced⟩ := h.sane_and_balanced hids
  refine ⟨hbalanced.perm, fun flow => ?_, hbalanced.ordered, fun rest said hp => ?_⟩
  · have howned : ((s.memory.log.ownedBy registry flow).map (·.id)).Nodup :=
      hids.sublist (List.filter_sublist.map _)
    exact ((hbalanced.perm flow).map _).nodup_iff.2 howned
  · exact (hsane.minds _ hp rfl).reports

/-! ## Turns one after the other -/

/-- What the party is told in its `turn`. -/
def heard (r : Call.Reading) (s : System) (i : Nat) : List Said :=
  match s.parties[i]? with
  | some ⟨_, .call c _, _⟩ => [⟨c, (s.memory.answer r c).1⟩]
  | _ => []

/-- What is `heard` in turns, one after the other. -/
def heardAlong (r : Call.Reading) (s : System) : List Nat → List Said
  | [] => []
  | i :: order => heard r s i ++ heardAlong r (turn r s i) order

/-- `P` holds after each of these turns. -/
def Along (P : System → Prop) (r : Call.Reading) (s : System) : List Nat → Prop
  | [] => True
  | i :: order => P (turn r s i) ∧ Along P r (turn r s i) order

instance decidableAlong [DecidablePred P] (r : Call.Reading) (s : System) :
    (order : List Nat) → Decidable (Along P r s order)
  | [] => inferInstanceAs (Decidable True)
  | i :: order =>
    have := decidableAlong r (turn r s i) order
    inferInstanceAs (Decidable (P (turn r s i) ∧ Along P r (turn r s i) order))

theorem Course.after_turn (h : Course registry P told s) (r : Call.Reading) (i : Nat)
    (hP : P (turn r s i)) : Course registry P (told ++ heard r s i) (turn r s i) := by
  obtain ⟨m, parties⟩ := s
  rcases hget : parties[i]? with _ | ⟨t, _ | ⟨c, next⟩, said⟩
  · simpa [turn, heard, hget] using h
  · simpa [turn, heard, hget] using h
  · obtain ⟨hsplit, hset⟩ := parties_of_getElem? hget
    simp only [turn, heard, hget, hset] at hP ⊢
    rw [hsplit] at h
    exact h.call _ next said _ r hP

/-- A course goes on by turns, if `P` holds `Along` them. -/
theorem Course.after_turns (h : Course registry P told s) (r : Call.Reading) (order : List Nat)
    (hP : Along P r s order) :
    Course registry P (told ++ heardAlong r s order) (order.foldl (turn r) s) := by
  induction order generalizing told s with
  | nil => exact (List.append_nil told).symm ▸ h
  | cons i order ih =>
    rw [heardAlong, ← List.append_assoc]
    exact ih (h.after_turn r i hP.1) hP.2

/-- The first lease runs out. A recovery takes it off and looks after the aggregate while another
lease is taken, and the item is acknowledged when the recovery is done. The parties are `Apart` all
the way. -/
theorem delivered_once_after_expiry :
    ∃ told s, Course Sample.registry Apart told s ∧ s.memory.log.DistinctIds ∧
      acknowledgedOn "mail" told = [Sample.placed 1] ∧
      (∀ p ∈ s.parties, p.isDone = true) ∧ DeliveredOnce Sample.registry told s := by
  have h := (Course.start : Course Sample.registry Apart _ _)
    |>.publish [Sample.placed 1, Sample.placed 2] (Sample.clockAt 0)
    |>.join .lease rfl |>.after_turns (Sample.readingAt 1) [1, 1] (by decide)
    |>.join .recover rfl |>.join .lease rfl
    |>.after_turns (Sample.readingAt 20) [2, 2, 2, 2, 2, 2, 2, 3, 2, 3, 2, 2, 2, 2, 2, 2, 2]
      (by decide)
    |>.join (.acknowledge ⟨"mail", .ofNat 20⟩) rfl
    |>.after_turns (Sample.readingAt 21) [4, 4, 4, 4] (by decide)
  exact ⟨_, _, h, by decide, rfl, by decide, delivered_once_in_order h (by decide)⟩

/-- An item is off its lane and `pending` when a recovery comes, which puts it there again. It is
recorded as acknowledged, and it waits. -/
theorem delivered_twice_with_overlap :
    ∃ told s, Course Sample.registry (fun _ => True) told s ∧ s.memory.log.DistinctIds ∧
      (∀ p ∈ s.parties, p.isDone = true) ∧ (∀ x ∈ told, x.isDeferral = false) ∧
      s.memory.log.ownedBy Sample.registry "mail" = [Sample.placed 1] ∧
      acknowledgedOn "mail" told = [Sample.placed 1] ∧
      s.memory.queue.items "mail" = [Sample.placed 1] ∧
      ∃ report said, (⟨.recover, .done (.ok report), said⟩ : Party) ∈ s.parties ∧
        report.reEnqueued = 1 := by
  have h := (Course.start : Course Sample.registry (fun _ => True) _ _)
    |>.publish [Sample.placed 1] (Sample.clockAt 0)
    |>.join .lease rfl |>.after_turns (Sample.readingAt 1) [1, 1] (by decide)
    |>.join (.acknowledge ⟨"mail", .ofNat 1⟩) rfl |>.join .recover rfl
    |>.after_turns (Sample.readingAt 2) [2, 3, 3, 3, 3, 3, 3, 3, 3, 3, 3, 3, 3, 3, 2, 2, 2]
      (by decide)
  refine ⟨_, _, h, by decide, by decide, by decide, rfl, rfl, rfl, ?_⟩
  exact ⟨_, _, List.mem_of_getElem? (i := 3) rfl, rfl⟩

end Delivery

end EventRelay
