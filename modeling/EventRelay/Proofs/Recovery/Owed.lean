import EventRelay.Proofs.Flow.Built
import EventRelay.Proofs.Log.Views
import EventRelay.Proofs.Queue.Filling
import EventRelay.Proofs.Recovery.Resumed
import Mathlib.Algebra.Ring.Nat
import Mathlib.Data.List.Dedup
import Mathlib.Data.List.TakeWhile

/-!
# What a recovery owes

A recovery reads the progress of a flow anew for each aggregate, and moves watermarks as it goes on.
But it moves them over settled and unwanted events only, so whether a flow is owed an event stays as
it was. What the recovery enqueues is therefore told from the memory that it starts with.
-/

namespace EventRelay

namespace Recovery

variable {registry : Registry} {flow : String} {a : Uuid} {p : Progress} {e : Event}
  {m m' m'' : Memory} {pair : Uuid × String}

/-- The flow wants the event, by `Registry.routesTo`, and has not settled it. -/
def isOwed (registry : Registry) (m : Memory) (flow : String) (e : Event) : Bool :=
  registry.routesTo e flow && !(m.progress.get flow e.aggregateId).isSettled e.revision

/-- The stored events that a flow is owed, by aggregates as they came first, and of each aggregate
in the order of revisions. -/
def owed (registry : Registry) (m : Memory) (flow : String) : List Event :=
  m.log.aggregates.flatMap fun x => (m.log.streamOf x.id).filter (isOwed registry m flow)

/-- What `tend` puts into the lane of the flow, for a flow on an aggregate. -/
def jobs (registry : Registry) (m : Memory) (pair : Uuid × String) : List (String × Event) :=
  ((m.log.streamOf pair.1).filter (isOwed registry m pair.2)).map fun e => (pair.2, e)

/-- What a flow is owed is what is not `isDone` in its progress. -/
theorem isOwed_eq (he : e.aggregateId = a) :
    isOwed registry m flow e = !isDone registry flow (m.progress.get flow a) e := by
  simp [isOwed, isDone, he]

/-! ## What stays -/

/-- The log is the same, and no flow is owed more or less of it. -/
structure Standing (registry : Registry) (m m' : Memory) : Prop where
  log : m'.log = m.log
  isOwed : ∀ flow, ∀ e ∈ m.log.events, isOwed registry m' flow e = isOwed registry m flow e

namespace Standing

theorem refl (registry : Registry) (m : Memory) : Standing registry m m := ⟨rfl, fun _ _ _ => rfl⟩

theorem trans (h : Standing registry m m') (h' : Standing registry m' m'') :
    Standing registry m m'' where
  log := h'.log.trans h.log
  isOwed flow e he := (h'.isOwed flow e (h.log ▸ he)).trans (h.isOwed flow e he)

theorem filter_streamOf (h : Standing registry m m') (flow : String) (a : Uuid) :
    (m'.log.streamOf a).filter (Recovery.isOwed registry m' flow) =
      (m.log.streamOf a).filter (Recovery.isOwed registry m flow) := by
  rw [h.log]
  apply List.filter_congr
  intro e he
  exact h.isOwed flow e (EventLog.mem_streamOf.1 he).1

/-- While all is `Standing` the same is to be put into lanes. -/
theorem jobs_eq (h : Standing registry m m') (pair : Uuid × String) :
    jobs registry m' pair = jobs registry m pair := by
  unfold jobs
  rw [h.filter_streamOf]

theorem settled_iff (h : Standing registry m m') (he : e ∈ m.log.events)
    (hroute : registry.routesTo e flow = true) :
    m'.progress.Settled flow e.aggregateId e.revision ↔
      m.progress.Settled flow e.aggregateId e.revision := by
  have howed := h.isOwed flow e he
  unfold Recovery.isOwed at howed
  rw [hroute, Bool.true_and, Bool.true_and, Bool.not_inj_iff] at howed
  unfold ProgressTable.Settled
  rw [howed]

end Standing

theorem get_tend_of_ne (hn : m.log.Numbered) (h : ¬ (flow = pair.2 ∧ a = pair.1)) :
    (tend registry m pair).progress.get flow a = m.progress.get flow a := by
  rw [tend_eq hn]
  simp only
  split
  · rw [ProgressTable.get_advance, if_neg h]
  · rfl

/-- The watermark goes up over events only of which nothing is left to do: whether one `isDone`
stays the same. -/
theorem isDone_get_tend (hn : m.log.Numbered) (he : e ∈ m.log.events) (flow : String) :
    isDone registry flow
        ((tend registry m (e.aggregateId, flow)).progress.get flow e.aggregateId) e =
      isDone registry flow (m.progress.get flow e.aggregateId) e := by
  rw [Bool.eq_iff_iff]
  constructor
  · intro hdone
    by_contra hopen
    simp only [isDone, Bool.or_eq_true, not_or] at hdone hopen
    have hset := hdone.resolve_left hopen.1
    have hle := ((isSettled_get_tend hn).1 hset).resolve_left hopen.2
    have hlt : (m.progress.get flow e.aggregateId).watermark < e.revision := by
      by_contra hnot
      exact hopen.2 (Progress.isSettled_iff.2 (.inl (Nat.le_of_not_lt hnot)))
    -- then the event is one of the leading ones, which are done
    have hget : (above m e.aggregateId flow)[e.revision - 1 -
        (m.progress.get flow e.aggregateId).watermark]? = some e := by
      rw [getElem?_above, Nat.add_sub_cancel' (by omega)]
      exact hn.getElem?_revision he
    have hlead : e.revision - 1 - (m.progress.get flow e.aggregateId).watermark <
        leading registry m e.aggregateId flow := by
      have hpos := hn.revision_pos he
      omega
    have hfirst := List.prefix_iff_getElem?.1 (List.takeWhile_prefix _) _ hlead
    rw [hget] at hfirst
    have hmem := List.getElem_mem hlead
    rw [← Option.some.inj hfirst] at hmem
    simpa [isDone, hopen] using List.mem_takeWhile_imp hmem
  · exact isDone_mono fun r hr => (isSettled_get_tend hn).2 (.inl hr)

/-- `tend` leaves everything `Standing`: it settles nothing that was owed. -/
theorem standing_tend (hn : m.log.Numbered) (pair : Uuid × String) :
    Standing registry m (tend registry m pair) where
  log := tend_log m pair
  isOwed flow e he := by
    obtain ⟨b, other⟩ := pair
    by_cases heq : flow = other ∧ e.aggregateId = b
    · obtain ⟨rfl, rfl⟩ := heq
      rw [isOwed_eq rfl, isOwed_eq rfl, isDone_get_tend hn he]
    · unfold isOwed
      rw [get_tend_of_ne hn heq]

/-- So do any number of pairs. -/
theorem standing_foldl_tend (hn : m.log.Numbered) (pairs : List (Uuid × String)) :
    Standing registry m (pairs.foldl (tend registry) m) := by
  induction pairs generalizing m with
  | nil => exact .refl registry m
  | cons pair rest ih =>
    have hn' : (tend registry m pair).log.Numbered := by rwa [tend_log]
    exact (standing_tend hn pair).trans (ih hn')

/-! ## What gets into lanes -/

/-- Filling in events is putting in those that are not `isDone`. -/
theorem foldl_fill_eq_putAll (registry : Registry) (flow : String) (p : Progress) (es : List Event)
    (q : Queue Event) : es.foldl (fill registry flow p) q =
      q.putAll ((es.filter fun e => !isDone registry flow p e).map fun e => (flow, e)) := by
  induction es generalizing q with
  | nil => rfl
  | cons e rest ih =>
    rw [List.foldl_cons, ih]
    cases hdone : isDone registry flow p e with
    | true => simp [fill, hdone]
    | false => simp [fill, hdone, Queue.putAll_cons]

/-- Below the watermark nothing `isOwed`. -/
theorem filter_above (hn : m.log.Numbered) (a : Uuid) (flow : String) :
    (above m a flow).filter (isOwed registry m flow) =
      (m.log.streamOf a).filter (isOwed registry m flow) := by
  have hbelow : ((m.log.streamOf a).take (m.progress.get flow a).watermark).filter
      (isOwed registry m flow) = [] := by
    rw [List.filter_eq_nil_iff]
    intro e he howed
    have hle := hn.revision_le_of_mem_take he
    have hagg := (EventLog.mem_streamOf.1 (List.mem_of_mem_take he)).2
    rw [isOwed_eq hagg] at howed
    simp [isDone, Progress.isSettled_iff.2 (.inl hle)] at howed
  conv_rhs => rw [← List.take_append_drop (m.progress.get flow a).watermark (m.log.streamOf a),
    List.filter_append, hbelow, List.nil_append]
  rfl

theorem filter_isOwed_above (m : Memory) (a : Uuid) (flow : String) :
    (above m a flow).filter (isOwed registry m flow) =
      (above m a flow).filter fun e => !isDone registry flow (m.progress.get flow a) e := by
  apply List.filter_congr
  intro e he
  exact isOwed_eq (EventLog.mem_streamOf.1 (List.mem_of_mem_drop he)).2

/-- `tend` puts in its `jobs`, and does nothing else to the queue. -/
theorem queue_tend (hn : m.log.Numbered) (pair : Uuid × String) :
    (tend registry m pair).queue = m.queue.putAll (jobs registry m pair) := by
  obtain ⟨a, flow⟩ := pair
  rw [tend_eq hn, foldl_fill_eq_putAll, ← filter_isOwed_above, filter_above hn]
  rfl

/-- The pairs put in all their `jobs`, one after the other: what is owed does not change meanwhile,
by `standing_tend`. -/
theorem queue_foldl_tend (hn : m.log.Numbered) (pairs : List (Uuid × String)) :
    (pairs.foldl (tend registry) m).queue =
      m.queue.putAll (pairs.flatMap (jobs registry m)) := by
  induction pairs generalizing m with
  | nil => rfl
  | cons pair rest ih =>
    have hn' : (tend registry m pair).log.Numbered := by rwa [tend_log]
    have hjobs : jobs registry (tend registry m pair) = jobs registry m :=
      funext (standing_tend hn pair).jobs_eq
    rw [List.foldl_cons, ih hn', hjobs, queue_tend hn, List.flatMap_cons, Queue.putAll_append]

/-- Of all `jobs` those are meant for a lane that its flow is owed. -/
theorem meantFor_jobs (hreg : registry.Built) (m : Memory) (flow : String) :
    Queue.meantFor flow ((pairs registry m.log.aggregates).flatMap (jobs registry m)) =
      owed registry m flow := by
  unfold pairs
  rw [List.flatMap_assoc, Queue.meantFor_flatMap]
  congr 1
  funext x
  rw [List.flatMap_map]
  have hlane := Queue.meantFor_of_nodup hreg.nodup_names flow fun name =>
    (m.log.streamOf x.id).filter (isOwed registry m name)
  refine hlane.trans ?_
  split
  · rfl
  · next hnot =>
    symm
    rw [List.filter_eq_nil_iff]
    intro e _ howed
    exact hnot (mem_names_of_routesTo (Bool.and_eq_true_iff.1 howed).1)

/-! ## What is counted -/

/-- This many more events and aggregates were counted, an event as enqueued or as queued already. -/
structure Tallied (report : RecoveryReport) (events aggregates : Nat) (report' : RecoveryReport) :
    Prop where
  seen : report'.reEnqueued + report'.alreadyQueued =
    report.reEnqueued + report.alreadyQueued + events
  checked : report'.aggregatesChecked = report.aggregatesChecked + aggregates

namespace Tallied

variable {report report' report'' : RecoveryReport} {n n' k k' : Nat}

theorem refl (report : RecoveryReport) : Tallied report 0 0 report := ⟨rfl, rfl⟩

theorem trans (h : Tallied report n k report') (h' : Tallied report' n' k' report'') :
    Tallied report (n + n') (k + k') report'' := by
  obtain ⟨hseen, hchecked⟩ := h
  obtain ⟨hseen', hchecked'⟩ := h'
  constructor <;> omega

end Tallied

/-- A `look` counts its event unless it `isDone`. -/
theorem tallied_look (s : Queue Event × Walk) (e : Event) :
    Tallied s.2.report (if isDone registry flow p e then 0 else 1) 0
      (look registry flow p s e).2.report := by
  unfold look
  split
  · split <;> exact .refl _
  · split
    · exact ⟨by simp only; omega, rfl⟩
    · exact ⟨by simp only; omega, rfl⟩

theorem tallied_foldl_look (registry : Registry) (flow : String) (p : Progress) (es : List Event)
    (s : Queue Event × Walk) :
    Tallied s.2.report (es.filter fun e => !isDone registry flow p e).length 0
      (es.foldl (look registry flow p) s).2.report := by
  induction es generalizing s with
  | nil => exact .refl _
  | cons e rest ih =>
    have hboth := (tallied_look s e).trans (ih (look registry flow p s e))
    rw [List.foldl_cons]
    cases hdone : isDone registry flow p e with
    | true => simpa [hdone] using hboth
    | false => simpa [hdone, Nat.add_comm] using hboth

/-- `onFlow` counts its `jobs`. -/
theorem tallied_onFlow (flow : String) (a : Uuid) {s : Memory × RecoveryReport}
    (hn : s.1.log.Numbered) :
    Tallied s.2 (jobs registry s.1 (a, flow)).length 0
      (onFlow registry a (s.1.log.latest a) s flow).2 := by
  have hjobs : (jobs registry s.1 (a, flow)).length =
      ((above s.1 a flow).filter fun e =>
        !isDone registry flow (s.1.progress.get flow a) e).length := by
    unfold jobs
    rw [List.length_map, ← filter_above hn, filter_isOwed_above]
  unfold onFlow
  simp only
  rw [hjobs]
  split
  · next hle =>
    have hnil : above s.1 a flow = [] := List.drop_eq_nil_iff.2 hle
    rw [hnil]
    exact .refl _
  · rw [between_latest]
    exact tallied_foldl_look registry flow _ _
      (s.1.queue, { settledUpTo := (s.1.progress.get flow a).watermark, report := s.2 })

theorem tallied_foldl_onFlow (registry : Registry) (flows : List String) (a : Uuid)
    {s : Memory × RecoveryReport}
    (hn : s.1.log.Numbered) :
    Tallied s.2 ((flows.map fun flow => (a, flow)).flatMap (jobs registry s.1)).length 0
      (flows.foldl (onFlow registry a (s.1.log.latest a)) s).2 := by
  induction flows generalizing s with
  | nil => exact .refl _
  | cons flow rest ih =>
    have hrest := ih (s := onFlow registry a (s.1.log.latest a) s flow) (by rwa [onFlow_log])
    have hjobs : jobs registry (onFlow registry a (s.1.log.latest a) s flow).1 =
        jobs registry s.1 := by
      rw [onFlow_fst]
      exact funext (standing_tend hn (a, flow)).jobs_eq
    rw [onFlow_log, hjobs] at hrest
    have hboth := (tallied_onFlow flow a hn).trans hrest
    rwa [← List.length_append, ← List.flatMap_cons, ← List.map_cons] at hboth

/-- `onAggregate` counts the `jobs` of all its pairs, and one aggregate. -/
theorem tallied_onAggregate (x : Aggregate) {s : Memory × RecoveryReport}
    (hn : s.1.log.Numbered) :
    Tallied s.2 ((pairs registry [x]).flatMap (jobs registry s.1)).length 1
      (onAggregate registry s x).2 := by
  obtain ⟨hseen, hchecked⟩ := tallied_foldl_onFlow registry registry.names x.id
    (s := (s.1, { s.2 with aggregatesChecked := s.2.aggregatesChecked + 1 })) hn
  rw [pairs_cons, pairs, List.flatMap_nil, List.append_nil]
  exact ⟨hseen, hchecked⟩

/-- Every pair of a flow and an event that it is `owed` is counted, and every aggregate. By
induction on the aggregates. -/
theorem tallied_foldl_onAggregate (registry : Registry) (xs : List Aggregate)
    {s : Memory × RecoveryReport}
    (hn : s.1.log.Numbered) :
    Tallied s.2 ((pairs registry xs).flatMap (jobs registry s.1)).length xs.length
      (xs.foldl (onAggregate registry) s).2 := by
  induction xs generalizing s with
  | nil => exact .refl _
  | cons x rest ih =>
    have hrest := ih (s := onAggregate registry s x) (by rwa [onAggregate_log])
    have hjobs : jobs registry (onAggregate registry s x).1 = jobs registry s.1 := by
      rw [onAggregate_fst]
      exact funext (standing_foldl_tend hn _).jobs_eq
    rw [hjobs] at hrest
    have hboth := (tallied_onAggregate x hn).trans hrest
    have hlength : ((pairs registry (x :: rest)).flatMap (jobs registry s.1)).length =
        ((pairs registry [x]).flatMap (jobs registry s.1)).length +
          ((pairs registry rest).flatMap (jobs registry s.1)).length := by
      simp [pairs]
    rw [hlength, List.length_cons, Nat.add_comm rest.length]
    exact hboth

/-- Sorted by keys that are all there, a list is the same but for the order. -/
theorem perm_flatMap_filter {α β : Type} [DecidableEq β] {key : α → β} {keys : List β}
    {xs : List α} (hkeys : keys.Nodup) (hall : ∀ x ∈ xs, key x ∈ keys) :
    (keys.flatMap fun k => xs.filter fun x => key x == k).Perm xs := by
  induction keys generalizing xs with
  | nil =>
    have hnil : xs = [] := List.eq_nil_iff_forall_not_mem.2 fun x hx => by simpa using hall x hx
    rw [hnil]
    exact .refl _
  | cons k rest ih =>
    obtain ⟨hnot, hrest⟩ := List.nodup_cons.1 hkeys
    -- what has another key is sorted by the other keys
    have hothers : (rest.flatMap fun k' => xs.filter fun x => key x == k') =
        rest.flatMap fun k' => (xs.filter fun x => !(key x == k)).filter fun x => key x == k' := by
      apply List.flatMap_congr
      intro k' hk'
      rw [List.filter_filter]
      apply List.filter_congr
      intro x _
      by_cases heq : key x = k'
      · have hne : k' ≠ k := fun h => hnot (h ▸ hk')
        simp [heq, hne]
      · simp [heq]
    rw [List.flatMap_cons, hothers]
    refine ((ih hrest fun x hx => ?_).append_left _).trans (List.filter_append_perm _ xs)
    obtain ⟨hmem, hne⟩ := List.mem_filter.1 hx
    exact (List.mem_cons.1 (hall x hmem)).resolve_left (by simpa using hne)

/-- What is `owed` to a flow are the stored events that it wants and has not settled. -/
theorem owed_perm (registry : Registry) (m : Memory) (flow : String) :
    (owed registry m flow).Perm (m.log.events.filter (isOwed registry m flow)) := by
  have hall : ∀ e ∈ m.log.events.filter (isOwed registry m flow),
      e.aggregateId ∈ m.log.aggregates.map (·.id) := by
    intro e he
    obtain ⟨x, hx, hid⟩ := EventLog.exists_aggregate (List.mem_filter.1 he).1
    exact List.mem_map.2 ⟨x, hx, hid⟩
  have hperm := perm_flatMap_filter m.log.nodup_aggregates hall
  rw [List.flatMap_map] at hperm
  refine .trans (.of_eq ?_) hperm
  unfold owed
  congr 1
  funext x
  simp only [EventLog.streamOf, List.filter_filter, Bool.and_comm]

theorem mem_owed : e ∈ owed registry m flow ↔
    e ∈ m.log.events ∧ isOwed registry m flow e = true :=
  (owed_perm registry m flow).mem_iff.trans List.mem_filter

/-- The `jobs` are as many as there are pairs of a flow and a stored event that it is owed. -/
theorem length_jobs (hreg : registry.Built) (m : Memory) :
    ((pairs registry m.log.aggregates).flatMap (jobs registry m)).length =
      (registry.names.map fun flow => m.log.events.countP (isOwed registry m flow)).sum := by
  have hall : ∀ job ∈ (pairs registry m.log.aggregates).flatMap (jobs registry m),
      job.1 ∈ registry.names := by
    intro job hjob
    obtain ⟨pair, hpair, hjob⟩ := List.mem_flatMap.1 hjob
    obtain ⟨x, -, hpair⟩ := List.mem_flatMap.1 hpair
    obtain ⟨flow, hflow, rfl⟩ := List.mem_map.1 hpair
    obtain ⟨e, -, rfl⟩ := List.mem_map.1 hjob
    exact hflow
  rw [← (perm_flatMap_filter hreg.nodup_names hall).length_eq, List.length_flatMap]
  congr 1
  apply List.map_congr_left
  intro flow _
  rw [List.countP_eq_length_filter, ← (owed_perm registry m flow).length_eq,
    ← meantFor_jobs hreg, Queue.meantFor, List.length_map]

/-- There are as many `aggregates` as ids among the events. -/
theorem length_aggregates (hn : m.log.Numbered) :
    m.log.aggregates.length = (m.log.events.map (·.aggregateId)).dedup.length := by
  rw [← List.length_map (·.id)]
  apply List.Perm.length_eq
  rw [List.perm_ext_iff_of_nodup m.log.nodup_aggregates (List.nodup_dedup _)]
  intro a
  rw [List.mem_dedup, List.mem_map, List.mem_map]
  constructor
  · rintro ⟨x, hx, rfl⟩
    rw [hn.aggregates_eq] at hx
    obtain ⟨e, he, rfl⟩ := List.mem_map.1 hx
    exact ⟨e, (List.mem_filter.1 he).1, rfl⟩
  · rintro ⟨e, he, rfl⟩
    exact EventLog.exists_aggregate he

end Recovery

end EventRelay
