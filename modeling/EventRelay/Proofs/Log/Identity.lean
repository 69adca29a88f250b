import EventRelay.Proofs.Log.Views

/-!
# What tells aggregates apart

The log tells aggregates apart by their ids alone. Events that name the same id are one stream,
whatever name of the aggregate stands beside it. Where nobody uses an id with two names this is the
same as telling aggregates apart by name and id, and every aggregate is listed.
-/

namespace EventRelay

namespace EventLog

variable {κ : Type} [DecidableEq κ] {s : MemoryStores}

/-- An event is of an `Aggregate` by a feature of it, such as its id. -/
def agreesIn (trait : Aggregate → κ) (x : Aggregate) (e : Event) : Bool :=
  decide (trait e.aggregate = trait x)

/-- An aggregate has a stream of its own, where a feature, `trait`, tells aggregates apart. -/
structure Apart (trait : Aggregate → κ) (s : MemoryStores) (x : Aggregate) : Prop where
  /-- The revisions of the stream are 1, 2 and so on, in storage order. -/
  numbered : (s.log.events.filter (agreesIn trait x)).map (·.revision) =
    List.range' 1 (s.log.events.countP (agreesIn trait x))
  /-- The last event is that of the last revision, and of no other stream; a stream without events
  has none. -/
  last : ∀ clock, ∃ answer, s.alone clock (Work.log (.last x)) = (answer, s) ∧
    (∀ e, answer = .ok e ↔ e ∈ s.log.events ∧ agreesIn trait x e = true ∧
      e.revision = s.log.events.countP (agreesIn trait x)) ∧
    (answer = .error (.noEventsOf x.id) ↔ s.log.events.countP (agreesIn trait x) = 0)

/-- `readAggregates` gives those of first events, each once and in the order of those events, where
a feature tells aggregates apart. -/
structure Listed (trait : Aggregate → κ) (s : MemoryStores) (xs : List Aggregate) : Prop where
  answered : ∀ clock, s.alone clock readAggregates = (.ok (xs, none), s)
  first : ∀ x ∈ xs, ∃ e ∈ s.log.events, e.aggregate = x ∧ e.revision = 1
  complete : ∀ e ∈ s.log.events, trait e.aggregate ∈ xs.map trait
  ordered : (xs.map trait).Pairwise fun k k' =>
    (s.log.events.map fun e => trait e.aggregate).idxOf k <
      (s.log.events.map fun e => trait e.aggregate).idxOf k'

/-! ## Features that tell what ids tell -/

variable {l : EventLog} {trait : Aggregate → κ} {x : Aggregate} {events : List Event} {e : Event}

/-- Among the events the feature of an `Aggregate` tells apart what ids tell apart. -/
def TellsAsIds (trait : Aggregate → κ) (events : List Event) : Prop :=
  ∀ e ∈ events, ∀ e' ∈ events, trait e.aggregate = trait e'.aggregate ↔
    e.aggregateId = e'.aggregateId

/-- By a feature that picks the same events as the id, an aggregate is `Apart`. -/
theorem Views.apart (hv : Views MemoryStores.alone s.log.events s)
    (h : ∀ e ∈ s.log.events, trait e.aggregate = trait x ↔ e.aggregateId = x.id) :
    Apart trait s x := by
  have hagrees : ∀ e ∈ s.log.events, agreesIn trait x e = (e.aggregateId == x.id) := by
    intro e he
    rw [agreesIn, decide_eq_decide.2 (h e he)]
    rfl
  have hcount : s.log.events.countP (agreesIn trait x) =
      s.log.events.countP fun e => e.aggregateId == x.id :=
    List.countP_congr fun e he => by rw [hagrees e he]
  refine ⟨?_, fun clock => ?_⟩
  · rw [hcount, List.filter_congr hagrees]
    exact hv.numbered x.id
  · obtain ⟨answer, halone, hok, herror⟩ := hv.last clock x
    refine ⟨answer, halone, fun e => ?_, by rw [hcount]; exact herror⟩
    rw [hok, hcount]
    refine and_congr_right fun he => and_congr_left fun _ => ?_
    rw [hagrees e he, beq_iff_eq]

/-- The `aggregates` of a log stand in the order of their first events. -/
theorem Numbered.ordered (hn : l.Numbered) (h : TellsAsIds trait l.events) :
    (l.aggregates.map trait).Pairwise fun k k' =>
      (l.events.map fun e => trait e.aggregate).idxOf k <
        (l.events.map fun e => trait e.aggregate).idxOf k' := by
  rw [hn.aggregates_eq]
  obtain ⟨events, snapshots⟩ := l
  induction events using List.reverseRecOn with
  | nil => exact .nil
  | append_singleton events x ih =>
    obtain ⟨hbefore, hrev⟩ := hn.of_snoc (l := ⟨events, snapshots⟩)
    have hfront : TellsAsIds trait events := fun e he e' he' =>
      h e (List.mem_append_left _ he) e' (List.mem_append_left _ he')
    -- what was listed before is found where it was
    have hold : ∀ k ∈ ((events.filter fun e => e.revision == 1).map (·.aggregate)).map trait,
        k ∈ events.map fun e => trait e.aggregate := by
      intro k hk
      obtain ⟨y, hy, rfl⟩ := List.mem_map.1 hk
      obtain ⟨e, he, rfl⟩ := List.mem_map.1 hy
      exact List.mem_map.2 ⟨e, (List.mem_filter.1 he).1, rfl⟩
    simp only [List.filter_append, List.map_append, List.pairwise_append]
    refine ⟨(ih hbefore hfront).imp_of_mem fun hk hk' hlt => ?_, ?_, ?_⟩
    · rwa [List.idxOf_append, List.idxOf_append, if_pos (hold _ hk), if_pos (hold _ hk')]
    · by_cases hfirst : x.revision = 1 <;> simp [hfirst]
    · intro k hk k' hk'
      by_cases hfirst : x.revision = 1
      · simp only [hfirst, beq_self_eq_true, List.filter_cons_of_pos, List.filter_nil,
          List.map_cons, List.map_nil, List.mem_singleton] at hk'
        subst hk'
        -- a first event has a feature that no event before it has
        have hnew : trait x.aggregate ∉ events.map fun e => trait e.aggregate := by
          intro hmem
          obtain ⟨e, he, heq⟩ := List.mem_map.1 hmem
          have hid := (h e (List.mem_append_left _ he) x (by simp)).1 heq
          have hzero : (⟨events, snapshots⟩ : EventLog).latest x.aggregateId = 0 := by omega
          exact latest_eq_zero_iff.1 hzero e he hid
        rw [List.idxOf_append, List.idxOf_append, if_pos (hold k hk), if_neg hnew]
        exact Nat.lt_add_left _ (List.idxOf_lt_length_iff.2 (hold k hk))
      · simp [hfirst] at hk'

/-- What is `Listed` are the aggregates of the log that is represented. -/
theorem Views.listed (hv : Views MemoryStores.alone l.events s) (hn : l.Numbered)
    (hevents : s.log.events = l.events) (h : TellsAsIds trait l.events) :
    Listed trait s l.aggregates := by
  have hfirst : ∀ x ∈ l.aggregates, ∃ e ∈ l.events, e.aggregate = x ∧ e.revision = 1 := by
    intro x hx
    rw [hn.aggregates_eq] at hx
    obtain ⟨e, he, rfl⟩ := List.mem_map.1 hx
    obtain ⟨hmem, hrev⟩ := List.mem_filter.1 he
    exact ⟨e, hmem, rfl, beq_iff_eq.1 hrev⟩
  refine ⟨fun clock => ?_, hevents ▸ hfirst, hevents ▸ fun e he => ?_, hevents ▸ hn.ordered h⟩
  · rw [hn.aggregates_eq]
    exact hv.aggregates clock
  · obtain ⟨x, hx, hid⟩ := exists_aggregate he
    obtain ⟨e', he', rfl, -⟩ := hfirst x hx
    rw [(h e he e' he').2 hid.symm]
    exact List.mem_map_of_mem hx

/-! ## Aggregates that share an id -/

/-- The `MemoryStores` after batches that were brought to empty ones. -/
def afterBatches (clock : Clock) (batches : List (List Event)) : MemoryStores :=
  (({} : MemoryStores).alone clock (storeAll batches)).2

/-- The events are those that a `Memory` holds after the same batches, by `storeAll`. -/
theorem events_afterBatches (clock : Clock) (batches : List (List Event)) :
    (afterBatches clock batches).log.events =
      (Work.alone clock (storeAll batches) {}).2.log.events :=
  (MemoryStores.Represents.empty.alone (storeAll batches) clock).2.log.events

theorem exists_views_afterBatches (clock : Clock) (batches : List (List Event)) :
    ∃ l : EventLog, (afterBatches clock batches).log.events = l.events ∧ l.Numbered ∧
      Views MemoryStores.alone l.events (afterBatches clock batches) := by
  obtain ⟨m, hrepresents, -, hn, hd⟩ := exists_represents_storeAll clock batches
  exact ⟨m.log, hrepresents.log.events, hn, (views_of_numbered hn hd).of_represents hrepresents⟩

/-- **Ids tell aggregates apart.** After any batches the events of an id carry the revisions 1, 2
and so on, and the last event is that of the id's last revision. The name of an aggregate is not
looked at: where an id never stands beside two names, both hold of name and id together, and if that
is so of every id, the aggregates that events name are listed, each once. -/
theorem apart_by_id (clock : Clock) (batches : List (List Event)) :
    (∀ x, Apart (·.id) (afterBatches clock batches) x) ∧
    (∀ x, (∀ e ∈ (afterBatches clock batches).log.events, e.aggregateId = x.id → e.aggregate = x) →
      Apart (fun a => a) (afterBatches clock batches) x) ∧
    ((∀ e ∈ (afterBatches clock batches).log.events,
        ∀ e' ∈ (afterBatches clock batches).log.events,
          e.aggregateId = e'.aggregateId → e.aggregate = e'.aggregate) →
      ∃ xs, Listed (fun a => a) (afterBatches clock batches) xs) := by
  obtain ⟨l, hevents, hn, hv⟩ := exists_views_afterBatches clock batches
  rw [hevents]
  refine ⟨fun x => (hevents ▸ hv).apart fun e _ => Iff.rfl, fun x hnames => ?_, fun hnames => ?_⟩
  · exact (hevents ▸ hv).apart fun e he => ⟨congrArg Aggregate.id, hnames e (hevents ▸ he)⟩
  · exact ⟨_, hv.listed hn hevents fun e he e' he' => ⟨congrArg Aggregate.id, hnames e he e' he'⟩⟩

/-- Two batches of one aggregate: it has a stream of its own by its name and id, and is listed. -/
theorem apart_by_id_of_two :
    (∀ e ∈ (afterBatches (Sample.clockAt 0) [[Sample.placed 1], [Sample.placed 2]]).log.events,
      e.aggregate = ⟨"order", .ofNat 7⟩) ∧
    Apart (fun a => a) (afterBatches (Sample.clockAt 0) [[Sample.placed 1], [Sample.placed 2]])
      ⟨"order", .ofNat 7⟩ ∧
    ∃ xs, Listed (fun a => a)
      (afterBatches (Sample.clockAt 0) [[Sample.placed 1], [Sample.placed 2]]) xs := by
  have hall : ∀ e ∈ (afterBatches (Sample.clockAt 0)
      [[Sample.placed 1], [Sample.placed 2]]).log.events, e.aggregate = ⟨"order", .ofNat 7⟩ := by
    rw [events_afterBatches]
    decide
  obtain ⟨-, hapart, hlisted⟩ :=
    apart_by_id (Sample.clockAt 0) [[Sample.placed 1], [Sample.placed 2]]
  refine ⟨hall, hapart _ fun e he _ => hall e he, hlisted fun e he e' he' _ => ?_⟩
  rw [hall e he, hall e' he']

/-- The event of a revision of an invoice that has the id of the order of `Sample.placed`. -/
def invoiced (revision : Nat) : Event :=
  { Sample.placed revision with aggregate := ⟨"invoice", .ofNat 7⟩ }

/-- An order and an invoice with one id share a stream: the first event of the invoice is taken with
revision 2. -/
theorem not_apart_by_name :
    ¬ ∀ clock batches, (∀ x, Apart (fun a => a) (afterBatches clock batches) x) ∧
      ∃ xs, Listed (fun a => a) (afterBatches clock batches) xs := by
  intro hall
  have hapart := (hall (Sample.clockAt 0) [[Sample.placed 1], [invoiced 2]]).1
    ⟨"invoice", .ofNat 7⟩
  have hnumbered := hapart.numbered
  rw [events_afterBatches] at hnumbered
  revert hnumbered
  decide

end EventLog

end EventRelay
