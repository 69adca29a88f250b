import EventRelay.Proofs.Recovery.Effect
import EventRelay.Proofs.Uuid
import Mathlib.Data.List.Nodup

/-!
# After a recovery everything is handled

A recovery leaves no stored event that a flow wants and that it neither settled nor has in its lane.
It takes nothing out of lanes and unsettles nothing, so what it did for one flow on one aggregate is
not undone when it goes on. Where everything is settled it enqueues nothing and brings every
watermark to the latest revision.
-/

namespace EventRelay

/-- The ids of stored events differ. -/
abbrev EventLog.DistinctIds (l : EventLog) : Prop := (l.events.map (·.id)).Nodup

namespace Queue

variable {q q' q'' : Queue Event} {flow : String} {e : Event}

/-- Lanes of a `Queue` kept what they had, and their leases, and maybe got more. -/
structure Fuller (q q' : Queue Event) : Prop where
  items : ∀ name, q.items name <+: q'.items name
  lease : ∀ name, (q'.laneAt name).lease = (q.laneAt name).lease

theorem Fuller.refl (q : Queue Event) : Fuller q q := ⟨fun _ => List.prefix_refl _, fun _ => rfl⟩

theorem Fuller.trans (h : Fuller q q') (h' : Fuller q' q'') : Fuller q q'' :=
  ⟨fun name => (h.items name).trans (h'.items name),
    fun name => (h'.lease name).trans (h.lease name)⟩

theorem items_enqueue (priority : Int) (hk : (q.laneAt flow).hasKey (Keyed.key e) = false)
    (name : String) : (q.enqueue flow e priority).2.items name =
      if name = flow then q.items flow ++ [e] else q.items name := by
  rw [enqueue_of_not_hasKey priority hk, items, laneAt_nextSequence, laneAt_setLane]
  split
  · simp [items, appended, nextEntry]
  · rfl

/-- `enqueue` of an event with a new key makes lanes `Fuller`. -/
theorem fuller_enqueue (priority : Int) (hk : (q.laneAt flow).hasKey (Keyed.key e) = false) :
    Fuller q (q.enqueue flow e priority).2 where
  items name := by
    rw [items_enqueue priority hk]
    split
    · next heq => exact heq ▸ List.prefix_append _ _
    · exact List.prefix_refl _
  lease name := by
    rw [enqueue_of_not_hasKey priority hk, laneAt_nextSequence, laneAt_setLane]
    split
    · next heq => rw [heq, appended]
    · rfl

/-- What forestalls an event in a `Stocked` queue is the event itself, if ids differ: so it
waits. -/
theorem mem_items_of_hasKey {l : EventLog} (hs : Stocked l q) (hids : l.DistinctIds)
    (he : e ∈ l.events) (hk : (q.laneAt flow).hasKey (Keyed.key e) = true) :
    e ∈ q.items flow := by
  obtain ⟨x, hx, hkey⟩ := Lane.hasKey_iff.1 hk
  have hmem : x.item ∈ q.items flow := List.mem_map_of_mem hx
  rw [(hs.wf.lane flow).keyed x hx] at hkey
  have hid : x.item.id = e.id := Uuid.toString_inj hkey
  rw [List.inj_on_of_nodup_map hids (hs.stored flow _ hmem) he hid] at hmem
  exact hmem

end Queue

theorem Stocked.enqueue {l : EventLog} {q : Queue Event} {flow : String} {e : Event}
    (h : Stocked l q) (he : e ∈ l.events) (priority : Int)
    (hk : (q.laneAt flow).hasKey (Keyed.key e) = false) :
    Stocked l (q.enqueue flow e priority).2 where
  wf := h.wf.enqueue flow e priority
  stored name x hx := by
    rw [Queue.items_enqueue priority hk] at hx
    split at hx
    · rcases List.mem_append.1 hx with hx | hx
      · exact h.stored flow x hx
      · rw [List.mem_singleton.1 hx]
        exact he
    · exact h.stored name x hx

namespace Recovery

variable {registry : Registry} {flow : String} {a : Uuid} {p : Progress} {l : EventLog}
  {q : Queue Event} {e : Event} {es : List Event}

/-! ## Looking at events -/

/-- After a `look` at an event it `isDone` or waits, and lanes are `Fuller`. -/
theorem look_spec (registry : Registry) (flow : String) (p : Progress) (w : Walk)
    (hs : Stocked l q) (hids : l.DistinctIds) (he : e ∈ l.events) :
    Stocked l (look registry flow p (q, w) e).1 ∧
      Queue.Fuller q (look registry flow p (q, w) e).1 ∧
      (isDone registry flow p e = false → e ∈ (look registry flow p (q, w) e).1.items flow) := by
  unfold look
  cases hd : isDone registry flow p e with
  | true => exact ⟨hs, .refl q, fun h => by cases h⟩
  | false =>
    cases hk : (q.laneAt flow).hasKey (Keyed.key e) with
    | true => exact ⟨hs, .refl q, fun _ => Queue.mem_items_of_hasKey hs hids he hk⟩
    | false =>
      refine ⟨hs.enqueue he _ hk, Queue.fuller_enqueue _ hk, fun _ => ?_⟩
      simp [Queue.items_enqueue _ hk]

/-- After a `look` at each of some events, each `isDone` or waits. By induction on the events. -/
theorem foldl_look_spec (registry : Registry) (flow : String) (p : Progress) (w : Walk)
    (hs : Stocked l q) (hids : l.DistinctIds) (hes : ∀ e ∈ es, e ∈ l.events) :
    Stocked l (es.foldl (look registry flow p) (q, w)).1 ∧
      Queue.Fuller q (es.foldl (look registry flow p) (q, w)).1 ∧
      ∀ e ∈ es, isDone registry flow p e = false →
        e ∈ (es.foldl (look registry flow p) (q, w)).1.items flow := by
  induction es generalizing q w with
  | nil => exact ⟨hs, .refl q, fun _ he => by cases he⟩
  | cons e rest ih =>
    obtain ⟨hs₁, hfull₁, hmem₁⟩ :=
      look_spec registry flow p w hs hids (hes e List.mem_cons_self)
    obtain ⟨hs₂, hfull₂, hmem₂⟩ :=
      ih (look registry flow p (q, w) e).2 hs₁ fun e he => hes e (List.mem_cons_of_mem _ he)
    refine ⟨hs₂, hfull₁.trans hfull₂, fun e' he' hd => ?_⟩
    rcases List.mem_cons.1 he' with rfl | he'
    · exact (hfull₂.items flow).subset (hmem₁ hd)
    · exact hmem₂ e' he' hd

theorem mem_between {above upTo : Nat} (he : e ∈ between l a above upTo) :
    e ∈ l.events ∧ e.aggregateId = a :=
  EventLog.mem_streamOf.1 (List.mem_of_mem_take (List.mem_of_mem_drop he))

/-- An event above a revision is `between` it and the latest. -/
theorem mem_between_of_lt (hn : l.Numbered) (he : e ∈ l.events) {above : Nat}
    (hlt : above < e.revision) : e ∈ between l e.aggregateId above (l.latest e.aggregateId) := by
  have hpos := hn.revision_pos he
  have hle := hn.revision_le_latest he
  have hget : (between l e.aggregateId above (l.latest e.aggregateId))[e.revision - 1 - above]? =
      some e := by
    unfold between
    rw [List.getElem?_drop, List.getElem?_take_of_lt (by omega),
      show above + (e.revision - 1 - above) = e.revision - 1 by omega]
    exact hn.getElem?_revision he
  exact List.mem_of_getElem? hget

/-- The revisions `between` one and the latest are all that there are. -/
theorem map_revision_between (hn : l.Numbered) (a : Uuid) (above : Nat) :
    (between l a above (l.latest a)).map (·.revision) =
      List.range' (above + 1) (l.latest a - above) := by
  unfold between
  rw [List.map_drop, List.map_take, hn.map_revision_streamOf,
    List.take_range'_of_length_le (Nat.le_refl _), List.drop_range', Nat.mul_one, Nat.add_comm]

/-! ## Looking after flows and aggregates -/

/-- The memory of a recovery over a log: nothing waits in it that is not stored, as `Stocked` has
it. -/
structure Ready (l : EventLog) (m : Memory) : Prop where
  log : m.log = l
  stocked : Stocked l m.queue

/-- The memory later in a recovery: lanes are `Fuller` and what was settled is so. -/
structure Later (m m' : Memory) : Prop where
  log : m'.log = m.log
  stocked : Stocked m'.log m'.queue
  fuller : Queue.Fuller m.queue m'.queue
  watermark : ∀ flow a, (m.progress.get flow a).watermark ≤ (m'.progress.get flow a).watermark
  settled : ∀ flow a r, m.progress.Settled flow a r → m'.progress.Settled flow a r

namespace Later

variable {m m' m'' : Memory}

theorem refl (hs : Stocked m.log m.queue) : Later m m :=
  ⟨rfl, hs, .refl _, fun _ _ => Nat.le_refl _, fun _ _ _ h => h⟩

theorem trans (h : Later m m') (h' : Later m' m'') : Later m m'' where
  log := h'.log.trans h.log
  stocked := h'.stocked
  fuller := h.fuller.trans h'.fuller
  watermark f a := Nat.le_trans (h.watermark f a) (h'.watermark f a)
  settled f a r hr := h'.settled f a r (h.settled f a r hr)

end Later

theorem Ready.later {m m' : Memory} (h : Ready l m) (hle : Later m m') : Ready l m' where
  log := hle.log.trans h.log
  stocked := hle.log.trans h.log ▸ hle.stocked

/-- An event is settled for a flow or waits in its lane. -/
def Handled (m : Memory) (flow : String) (e : Event) : Prop :=
  m.progress.Settled flow e.aggregateId e.revision ∨ e ∈ m.queue.items flow

/-- What is `Handled` stays so for the rest of a recovery. -/
theorem Handled.later {m m' : Memory} (h : Handled m flow e) (hle : Later m m') :
    Handled m' flow e :=
  h.imp (hle.settled flow _ _) fun he => (hle.fuller.items flow).subset he

variable {m : Memory} {report : RecoveryReport}

/-- Lanes that are `Fuller`, and a watermark that went up or not, make a memory `Later`. -/
theorem later_of_fuller (hs : Stocked m.log q) (hf : Queue.Fuller m.queue q) (flow : String)
    (a : Uuid) (n : Nat) (c : Prop) [Decidable c] :
    Later m { m with
      queue := q
      progress := if c then m.progress.advance flow a n else m.progress } where
  log := rfl
  stocked := hs
  fuller := hf
  watermark f b := by
    split
    · rw [ProgressTable.get_advance]
      split
      · next heq =>
        obtain ⟨rfl, rfl⟩ := heq
        exact Progress.watermark_le_advanceTo _ n
      · exact Nat.le_refl _
    · exact Nat.le_refl _
  settled f b r hr := by
    split
    · exact ProgressTable.settled_advance.2 (.inl hr)
    · exact hr

/-- After `onFlow` the events of the aggregate are `Handled` for the flow. -/
theorem onFlow_spec (registry : Registry) (flow : String) (a : Uuid) (hids : l.DistinctIds)
    (hn : l.Numbered) {s : Memory × RecoveryReport} (hs : Ready l s.1) :
    Later s.1 (onFlow registry a (l.latest a) s flow).1 ∧
      ∀ e ∈ l.events, e.aggregateId = a → registry.routesTo e flow = true →
        Handled (onFlow registry a (l.latest a) s flow).1 flow e := by
  obtain ⟨m, report⟩ := s
  obtain ⟨rfl, hs⟩ := hs
  unfold onFlow
  simp only at hs ⊢
  split
  · next hle =>
    refine ⟨.refl hs, fun e he hagg _ => .inl (Progress.isSettled_iff.2 (.inl ?_))⟩
    subst hagg
    exact Nat.le_trans (hn.revision_le_latest he) hle
  · have hes : ∀ e ∈ between m.log a (m.progress.get flow a).watermark (m.log.latest a),
        e ∈ m.log.events := fun e he => (mem_between he).1
    obtain ⟨hs', hfull, hmem⟩ := foldl_look_spec registry flow (m.progress.get flow a)
      { settledUpTo := (m.progress.get flow a).watermark, report := report } hs hids hes
    have hlater := later_of_fuller hs' hfull flow a
    refine ⟨hlater _ _, fun e he hagg hroute => ?_⟩
    subst hagg
    by_cases hset : m.progress.Settled flow e.aggregateId e.revision
    · exact .inl ((hlater _ _).settled _ _ _ hset)
    · have hlt : (m.progress.get flow e.aggregateId).watermark < e.revision :=
        Nat.lt_of_not_le fun hle => hset (Progress.isSettled_iff.2 (.inl hle))
      refine .inr (hmem e (mem_between_of_lt hn he hlt) ?_)
      rw [isDone, hroute, Bool.eq_false_iff.2 hset]
      rfl

/-- A fold keeps what each of its steps keeps, and what a step does about its own element stays
done if no later step undoes it. -/
theorem foldl_steps {β : Type} {I : Memory × RecoveryReport → Prop}
    {R : Memory × RecoveryReport → Memory × RecoveryReport → Prop}
    {P : β → Memory × RecoveryReport → Prop}
    {f : Memory × RecoveryReport → β → Memory × RecoveryReport} (hrefl : ∀ s, I s → R s s)
    (htrans : ∀ {s s' s''}, R s s' → R s' s'' → R s s'') (hkeep : ∀ {s s'}, I s → R s s' → I s')
    (hstay : ∀ x s s', P x s → R s s' → P x s')
    (hstep : ∀ x s, I s → R s (f s x) ∧ P x (f s x)) (xs : List β)
    {s : Memory × RecoveryReport} (hs : I s) :
    R s (xs.foldl f s) ∧ ∀ x ∈ xs, P x (xs.foldl f s) := by
  induction xs generalizing s with
  | nil => exact ⟨hrefl s hs, fun _ hx => by cases hx⟩
  | cons x rest ih =>
    obtain ⟨hfirst, hdone⟩ := hstep x s hs
    obtain ⟨hrest, hdones⟩ := ih (hkeep hs hfirst)
    refine ⟨htrans hfirst hrest, fun y hy => ?_⟩
    rcases List.mem_cons.1 hy with rfl | hy
    · exact hstay y _ _ hdone hrest
    · exact hdones y hy

/-- After `onFlow` for some flows, the events of the aggregate are `Handled` for each. -/
theorem foldl_onFlow_spec (registry : Registry) (a : Uuid) (flows : List String)
    (hids : l.DistinctIds) (hn : l.Numbered) {s : Memory × RecoveryReport} (hs : Ready l s.1) :
    Later s.1 (flows.foldl (onFlow registry a (l.latest a)) s).1 ∧
      ∀ flow ∈ flows, ∀ e ∈ l.events, e.aggregateId = a → registry.routesTo e flow = true →
        Handled (flows.foldl (onFlow registry a (l.latest a)) s).1 flow e :=
  foldl_steps (I := fun s => Ready l s.1) (R := fun s s' => Later s.1 s'.1)
    (P := fun flow s => ∀ e ∈ l.events, e.aggregateId = a → registry.routesTo e flow = true →
      Handled s.1 flow e)
    (fun _ hs => .refl (hs.log ▸ hs.stocked)) Later.trans Ready.later
    (fun _ _ _ h hle e he hagg hroute => (h e he hagg hroute).later hle)
    (fun flow _ hs => onFlow_spec registry flow a hids hn hs) flows hs

/-- After `onAggregate` its events are `Handled` for all flows. -/
theorem onAggregate_spec (registry : Registry) (x : Aggregate) (hids : l.DistinctIds)
    (hn : l.Numbered) {s : Memory × RecoveryReport} (hs : Ready l s.1) :
    Later s.1 (onAggregate registry s x).1 ∧
      ∀ flow ∈ registry.names, ∀ e ∈ l.events, e.aggregateId = x.id →
        registry.routesTo e flow = true → Handled (onAggregate registry s x).1 flow e := by
  unfold onAggregate
  rw [hs.log]
  exact foldl_onFlow_spec registry x.id registry.names hids hn
    (s := (s.1, { s.2 with aggregatesChecked := s.2.aggregatesChecked + 1 })) hs

/-- After `onAggregate` for some aggregates, the events of each are `Handled` for all flows. -/
theorem foldl_onAggregate_spec (registry : Registry) (xs : List Aggregate)
    (hids : l.DistinctIds) (hn : l.Numbered) {s : Memory × RecoveryReport} (hs : Ready l s.1) :
    Later s.1 (xs.foldl (onAggregate registry) s).1 ∧
      ∀ x ∈ xs, ∀ flow ∈ registry.names, ∀ e ∈ l.events, e.aggregateId = x.id →
        registry.routesTo e flow = true →
          Handled (xs.foldl (onAggregate registry) s).1 flow e :=
  foldl_steps (I := fun s => Ready l s.1) (R := fun s s' => Later s.1 s'.1)
    (P := fun (x : Aggregate) s => ∀ flow ∈ registry.names, ∀ e ∈ l.events,
      e.aggregateId = x.id → registry.routesTo e flow = true → Handled s.1 flow e)
    (fun _ hs => .refl (hs.log ▸ hs.stocked)) Later.trans Ready.later
    (fun _ _ _ h hle flow hf e he hagg hroute => (h flow hf e he hagg hroute).later hle)
    (fun x _ hs => onAggregate_spec registry x hids hn hs) xs hs

/-! ## A whole recovery -/

/-- `onLeases` takes nothing from a lane. -/
theorem items_onLeases (now : Instant) (hq : m.queue.WF) (name : String) :
    (onLeases now m).1.queue.items name = m.queue.items name := by
  simp only [onLeases, Queue.items, hq.laneAt_sweep, Queue.sweepLane_entries]

theorem stocked_onLeases (hs : Stocked m.log m.queue) (now : Instant) :
    Stocked (onLeases now m).1.log (onLeases now m).1.queue where
  wf := hs.wf.sweep now
  stored name e he := by
    rw [items_onLeases now hs.wf] at he
    exact hs.stored name e he

/-- If all leases have run out there is none after `onLeases`. -/
theorem unleased_onLeases (now : Instant) (hq : m.queue.WF)
    (hexp : ∀ name lease, (m.queue.laneAt name).lease = some lease → lease.isExpiredAt now = true) :
    (onLeases now m).1.queue.Unleased := by
  intro name
  simp only [onLeases, hq.laneAt_sweep, Queue.sweepLane_lease]
  rw [Option.filter_eq_none_iff]
  intro lease hl
  simp [hexp name lease hl]

theorem mem_names_of_routesTo (h : registry.routesTo e flow = true) : flow ∈ registry.names := by
  unfold Registry.routesTo at h
  split at h
  · next hf => exact List.mem_map_of_mem (ByName.mem_of_find? hf)
  · cases h

theorem names_eq_nil_of_isEmpty (h : registry.isEmpty = true) : registry.names = [] := by
  rw [Registry.isEmpty, List.isEmpty_iff] at h
  rw [Registry.names, h]
  rfl

/-- **After a recovery every stored event is `Handled`** for every flow that wants it, and nothing
else happened than what happens later in a recovery. -/
theorem effect_spec (registry : Registry) (now : Instant) (hs : Stocked m.log m.queue)
    (hids : m.log.DistinctIds) (hn : m.log.Numbered) :
    Later (onLeases now m).1 (effect registry now m).1 ∧
      ∀ flow, ∀ e ∈ m.log.events, registry.routesTo e flow = true →
        Handled (effect registry now m).1 flow e := by
  obtain ⟨hlater, hdone⟩ := foldl_onAggregate_spec registry m.log.aggregates hids hn
    (s := onLeases now m) ⟨rfl, stocked_onLeases hs now⟩
  unfold effect
  split
  · next hempty =>
    refine ⟨.refl (stocked_onLeases hs now), fun flow e _ hroute => ?_⟩
    have hmem := mem_names_of_routesTo hroute
    rw [names_eq_nil_of_isEmpty hempty] at hmem
    cases hmem
  · refine ⟨hlater, fun flow e he hroute => ?_⟩
    obtain ⟨x, hx, hid⟩ := EventLog.exists_aggregate he
    exact hdone x hx flow (mem_names_of_routesTo hroute) e he hid.symm hroute

/-! ## Where everything is settled -/

/-- Nothing is left to do about any of the events, so `look` goes over them to the last. -/
theorem foldl_look_of_done (w : Walk) (hc : w.contiguous = true)
    (hd : ∀ e ∈ es, isDone registry flow p e = true)
    (hrev : es.map (·.revision) = List.range' (w.settledUpTo + 1) es.length) :
    es.foldl (look registry flow p) (q, w) =
      (q, { w with settledUpTo := w.settledUpTo + es.length }) := by
  induction es generalizing w with
  | nil => rfl
  | cons e rest ih =>
    rw [List.map_cons, List.length_cons, List.range'_succ] at hrev
    obtain ⟨hfirst, hrest⟩ := List.cons.inj hrev
    have hlook : look registry flow p (q, w) e =
        (q, { w with settledUpTo := w.settledUpTo + 1 }) := by
      unfold look
      rw [if_pos (hd e List.mem_cons_self), if_pos hc, hfirst]
    rw [List.foldl_cons, hlook, ih { w with settledUpTo := w.settledUpTo + 1 } hc
      (fun e he => hd e (List.mem_cons_of_mem _ he)) hrest, List.length_cons]
    simp only [Prod.mk.injEq, Walk.mk.injEq, true_and, and_true]
    omega

/-- Every stored event is settled for every flow that `routesTo` gives it to. -/
def AllSettled (registry : Registry) (m : Memory) : Prop :=
  ∀ flow, ∀ e ∈ m.log.events, registry.routesTo e flow = true →
    m.progress.Settled flow e.aggregateId e.revision

theorem AllSettled.later {m m' : Memory} (h : AllSettled registry m) (hle : Later m m') :
    AllSettled registry m' := by
  intro flow e he hroute
  rw [hle.log] at he
  exact hle.settled flow _ _ (h flow e he hroute)

/-- Where it is `AllSettled`, `onFlow` counts nothing and brings the watermark to the latest
revision. -/
theorem onFlow_of_allSettled (flow : String) (a : Uuid) (hn : l.Numbered)
    {s : Memory × RecoveryReport} (hlog : s.1.log = l) (hall : AllSettled registry s.1) :
    (onFlow registry a (l.latest a) s flow).2 = s.2 ∧
      l.latest a ≤ ((onFlow registry a (l.latest a) s flow).1.progress.get flow a).watermark := by
  obtain ⟨m, report⟩ := s
  subst hlog
  unfold onFlow
  simp only at hall ⊢
  split
  · next hle => exact ⟨rfl, hle⟩
  · next hlt =>
    have hd : ∀ e ∈ between m.log a (m.progress.get flow a).watermark (m.log.latest a),
        isDone registry flow (m.progress.get flow a) e = true := by
      intro e he
      obtain ⟨hmem, rfl⟩ := mem_between he
      unfold isDone
      cases hroute : registry.routesTo e flow with
      | false => rfl
      | true => exact hall flow e hmem hroute
    have hlen : (between m.log a (m.progress.get flow a).watermark (m.log.latest a)).length =
        m.log.latest a - (m.progress.get flow a).watermark := by
      rw [← List.length_map (·.revision), map_revision_between hn, List.length_range']
    have hrev := map_revision_between hn a (m.progress.get flow a).watermark
    rw [← hlen] at hrev
    have hlook := foldl_look_of_done (q := m.queue)
      { settledUpTo := (m.progress.get flow a).watermark, report := report } rfl hd hrev
    rw [hlook, hlen]
    refine ⟨rfl, ?_⟩
    rw [if_pos (by simp only; omega), ProgressTable.get_advance, if_pos ⟨rfl, rfl⟩]
    exact Nat.le_trans (by simp only; omega) (Progress.le_watermark_advanceTo _ _)

/-- The state `Later` in a recovery that enqueued nothing since. -/
def Idle (s s' : Memory × RecoveryReport) : Prop :=
  Later s.1 s'.1 ∧ s'.2.reEnqueued = s.2.reEnqueued

theorem Idle.trans {s s' s'' : Memory × RecoveryReport} (h : Idle s s') (h' : Idle s' s'') :
    Idle s s'' := ⟨h.1.trans h'.1, h'.2.trans h.2⟩

theorem foldl_onFlow_of_allSettled (a : Uuid) (flows : List String) (hids : l.DistinctIds)
    (hn : l.Numbered) {s : Memory × RecoveryReport}
    (hs : Ready l s.1 ∧ AllSettled registry s.1) :
    Idle s (flows.foldl (onFlow registry a (l.latest a)) s) ∧ ∀ flow ∈ flows, l.latest a ≤
      ((flows.foldl (onFlow registry a (l.latest a)) s).1.progress.get flow a).watermark := by
  refine foldl_steps (I := fun s => Ready l s.1 ∧ AllSettled registry s.1) (R := Idle)
    (P := fun flow s => l.latest a ≤ (s.1.progress.get flow a).watermark)
    (fun _ hs => ⟨.refl (hs.1.log ▸ hs.1.stocked), rfl⟩) Idle.trans
    (fun hs h => ⟨hs.1.later h.1, hs.2.later h.1⟩)
    (fun _ _ _ hle h => Nat.le_trans hle (h.1.watermark _ _)) (fun flow s hs => ?_) flows hs
  obtain ⟨hreport, hwm⟩ := onFlow_of_allSettled flow a hn hs.1.log hs.2
  exact ⟨⟨(onFlow_spec registry flow a hids hn hs.1).1, congrArg (·.reEnqueued) hreport⟩, hwm⟩

theorem foldl_onAggregate_of_allSettled (xs : List Aggregate) (hids : l.DistinctIds)
    (hn : l.Numbered) {s : Memory × RecoveryReport}
    (hs : Ready l s.1 ∧ AllSettled registry s.1) :
    Idle s (xs.foldl (onAggregate registry) s) ∧
      ∀ x ∈ xs, ∀ flow ∈ registry.names, l.latest x.id ≤
        ((xs.foldl (onAggregate registry) s).1.progress.get flow x.id).watermark := by
  refine foldl_steps (I := fun s => Ready l s.1 ∧ AllSettled registry s.1) (R := Idle)
    (P := fun x s => ∀ flow ∈ registry.names,
      l.latest x.id ≤ (s.1.progress.get flow x.id).watermark)
    (fun _ hs => ⟨.refl (hs.1.log ▸ hs.1.stocked), rfl⟩) Idle.trans
    (fun hs h => ⟨hs.1.later h.1, hs.2.later h.1⟩)
    (fun _ _ _ hle h flow hf => Nat.le_trans (hle flow hf) (h.1.watermark _ _))
    (fun x s hs => ?_) xs hs
  have hlooked := foldl_onFlow_of_allSettled x.id registry.names hids hn
    (s := (s.1, { s.2 with aggregatesChecked := s.2.aggregatesChecked + 1 })) hs
  unfold onAggregate
  rw [hs.1.log]
  exact hlooked

/-- **Where it is `AllSettled`** a recovery enqueues nothing and brings every watermark to the
latest revision. -/
theorem effect_of_allSettled (now : Instant) (hall : AllSettled registry m)
    (hs : Stocked m.log m.queue) (hids : m.log.DistinctIds) (hn : m.log.Numbered) :
    (effect registry now m).2.reEnqueued = 0 ∧
      ∀ flow ∈ registry.names, ∀ a, m.log.latest a ≤
        ((effect registry now m).1.progress.get flow a).watermark := by
  obtain ⟨hidle, hwm⟩ := foldl_onAggregate_of_allSettled m.log.aggregates hids hn
    (s := onLeases now m) ⟨⟨rfl, stocked_onLeases hs now⟩, hall⟩
  unfold effect
  split
  · next hempty =>
    refine ⟨rfl, fun flow hf => ?_⟩
    rw [names_eq_nil_of_isEmpty hempty] at hf
    cases hf
  · refine ⟨hidle.2, fun flow hf a => ?_⟩
    by_cases hex : ∃ e ∈ m.log.events, e.aggregateId = a
    · obtain ⟨e, he, rfl⟩ := hex
      obtain ⟨x, hx, hid⟩ := EventLog.exists_aggregate he
      rw [← hid]
      exact hwm x hx flow hf
    · rw [EventLog.latest_eq_zero_iff.2 fun e he hagg => hex ⟨e, he, hagg⟩]
      exact Nat.zero_le _

end Recovery

end EventRelay
