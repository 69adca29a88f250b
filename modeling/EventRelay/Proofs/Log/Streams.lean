import EventRelay.Log.Basic

/-!
# Streams of the log

In a log that was written by accepted batches the event at the place of a revision carries this
revision. So an event is known by its aggregate and revision, and the latest revision is the number
of events.
-/

namespace EventRelay.EventLog

variable {l l' : EventLog} {e e' : Event} {a : Uuid} {batch : List Event}

/-- The revisions of every aggregate are 1, 2, 3 and so on, in storage order. -/
def Numbered (l : EventLog) : Prop :=
  ∀ a i e, (l.streamOf a)[i]? = some e → e.revision = i + 1

theorem mem_streamOf : e ∈ l.streamOf a ↔ e ∈ l.events ∧ e.aggregateId = a := by
  simp [streamOf]

theorem streamOf_append (l : EventLog) (batch : List Event) (a : Uuid) :
    ({ l with events := l.events ++ batch } : EventLog).streamOf a =
      l.streamOf a ++ batch.filter fun e => e.aggregateId == a :=
  List.filter_append ..

theorem latest_eq_zero_iff : l.latest a = 0 ↔ ∀ e ∈ l.events, e.aggregateId ≠ a := by
  simp [latest, streamOf]

theorem latest_congr (h : l'.events = l.events) (a : Uuid) : l'.latest a = l.latest a := by
  unfold latest streamOf
  rw [h]

/-- `latest` never goes down as the log grows. -/
theorem latest_mono (h : l.events <+: l'.events) (a : Uuid) : l.latest a ≤ l'.latest a :=
  (h.filter _).length_le

theorem Numbered.congr (h : l.Numbered) (heq : l'.events = l.events) : l'.Numbered := by
  intro a i e he
  apply h a i e
  unfold streamOf at he ⊢
  rwa [← heq]

/-! ## Reading -/

namespace Numbered

/-- In a log that is `Numbered` an event stands in its stream where its revision says. -/
theorem exists_index (h : l.Numbered) (he : e ∈ l.events) :
    ∃ i, (l.streamOf e.aggregateId)[i]? = some e ∧ e.revision = i + 1 := by
  obtain ⟨i, hi⟩ := List.mem_iff_getElem?.1 (mem_streamOf.2 ⟨he, rfl⟩)
  exact ⟨i, hi, h _ i e hi⟩

theorem revision_pos (h : l.Numbered) (he : e ∈ l.events) : 0 < e.revision := by
  obtain ⟨i, -, hi⟩ := h.exists_index he
  omega

theorem getElem?_revision (h : l.Numbered) (he : e ∈ l.events) :
    (l.streamOf e.aggregateId)[e.revision - 1]? = some e := by
  obtain ⟨i, hi, hrev⟩ := h.exists_index he
  rw [hrev]
  exact hi

/-- Aggregate and revision tell which event it is, in a log that is `Numbered`. -/
theorem eq_of_revision_eq (h : l.Numbered) (he : e ∈ l.events) (he' : e' ∈ l.events)
    (ha : e.aggregateId = e'.aggregateId) (hr : e.revision = e'.revision) : e = e' := by
  have h1 := h.getElem?_revision he
  rw [ha, hr, h.getElem?_revision he'] at h1
  exact (Option.some.inj h1).symm

theorem revision_le_latest (h : l.Numbered) (he : e ∈ l.events) :
    e.revision ≤ l.latest e.aggregateId := by
  obtain ⟨i, hi, hrev⟩ := h.exists_index he
  have hlt : i < (l.streamOf e.aggregateId).length := (List.getElem?_eq_some_iff.1 hi).1
  unfold latest
  omega

/-- The revisions of a stream are those from 1 to `latest`. -/
theorem map_revision_streamOf (h : l.Numbered) (a : Uuid) :
    (l.streamOf a).map (·.revision) = List.range' 1 (l.latest a) := by
  refine List.ext_getElem (by simp [latest]) fun i hi _ => ?_
  rw [List.length_map] at hi
  rw [List.getElem_map, List.getElem_range', h a i _ (List.getElem?_eq_getElem hi)]
  omega

end Numbered

theorem findFrom_mem {wants : Event → Bool} {position next : Nat} {events : List Event}
    (h : findFrom wants position events = some (e, next)) : e ∈ events := by
  induction events generalizing position with
  | nil => cases h
  | cons first rest ih =>
    unfold findFrom at h
    split at h
    · obtain ⟨rfl, -⟩ := Prod.mk.inj (Option.some.inj h)
      exact List.mem_cons_self
    · exact List.mem_cons_of_mem _ (ih h)

/-- A read of a stream goes along the positions of `streamOf`. -/
theorem next?_stream_eq_some {range : RevisionRange} {n : Nat} {c : Cursor}
    (h : l.next? (.stream a range n) = some (e, c)) :
    (l.streamOf a)[n - 1]? = some e ∧ c = .stream a range (n + 1) := by
  simp only [next?] at h
  split at h
  · obtain ⟨_, hget, heq⟩ := Option.map_eq_some_iff.1 h
    obtain ⟨rfl, rfl⟩ := Prod.mk.inj heq
    exact ⟨hget, rfl⟩
  · cases h

/-- `next?` gives stored events only. -/
theorem mem_of_next? {c c' : Cursor} (h : l.next? c = some (e, c')) : e ∈ l.events := by
  cases c with
  | scan selection position =>
    obtain ⟨⟨_, _⟩, hf, heq⟩ := Option.map_eq_some_iff.1 h
    obtain ⟨rfl, -⟩ := Prod.mk.inj heq
    exact List.mem_of_mem_drop (findFrom_mem hf)
  | stream a range revision =>
    exact (mem_streamOf.1 (List.mem_of_getElem? (next?_stream_eq_some h).1)).1

/-- In a log that is `Numbered` a read of a stream gives the event of the revision that comes
next. -/
theorem Numbered.next?_stream (h : l.Numbered) {range : RevisionRange} {n : Nat} {c : Cursor}
    (hpos : 0 < n) (hnext : l.next? (.stream a range n) = some (e, c)) :
    e ∈ l.events ∧ e.aggregateId = a ∧ e.revision = n ∧ c = .stream a range (n + 1) := by
  obtain ⟨hget, rfl⟩ := next?_stream_eq_some hnext
  obtain ⟨hmem, hagg⟩ := mem_streamOf.1 (List.mem_of_getElem? hget)
  have hrev := h a _ _ hget
  exact ⟨hmem, hagg, by omega, rfl⟩

/-! ## Appending -/

/-- The next event of its aggregate keeps the log `Numbered`. -/
theorem Numbered.snoc (h : l.Numbered) (he : e.revision = l.latest e.aggregateId + 1) :
    ({ l with events := l.events ++ [e] } : EventLog).Numbered := by
  intro a i x hx
  rw [streamOf_append] at hx
  by_cases ha : e.aggregateId = a
  · rw [List.filter_cons_of_pos (by simp [ha]), List.filter_nil] at hx
    -- the event is the last of its stream, so its index there is the length before
    rcases Nat.lt_trichotomy i (l.streamOf a).length with hlt | heq | hgt
    · rw [List.getElem?_append_left hlt] at hx
      exact h a i x hx
    · rw [List.getElem?_append_right (Nat.le_of_eq heq.symm), heq, Nat.sub_self] at hx
      obtain rfl := Option.some.inj hx
      rw [he, ha, heq]
      rfl
    · rw [List.getElem?_eq_none (by simp; omega)] at hx
      cases hx
  · rw [List.filter_cons_of_neg (by simp [ha]), List.filter_nil, List.append_nil] at hx
    exact h a i x hx

/-- A batch that passes the check keeps the log `Numbered`. By induction on the batch, behind what
was checked of it. -/
theorem Numbered.checkFrom {before rest : List Event}
    (h : ({ l with events := l.events ++ before } : EventLog).Numbered)
    (hok : Batch.checkFrom l.latest before rest = .ok ()) :
    ({ l with events := l.events ++ (before ++ rest) } : EventLog).Numbered := by
  induction rest generalizing before with
  | nil => simpa using h
  | cons e rest ih =>
    unfold Batch.checkFrom at hok
    split at hok
    · cases hok
    · simp only at hok
      split at hok
      · cases hok
      · split at hok
        · cases hok
        · next hnlt hngt =>
          have hlatest : ({ l with events := l.events ++ before } : EventLog).latest e.aggregateId =
              Batch.reached l.latest before e.aggregateId := by
            simp [latest, streamOf_append, Batch.reached]
          have hsnoc := h.snoc (e := e) (by omega)
          simp only [List.append_assoc] at hsnoc
          have := ih hsnoc hok
          simpa using this

theorem append_eq_ok (h : l.append batch = .ok l') :
    l' = { l with events := l.events ++ batch } ∧ Batch.checkFrom l.latest [] batch = .ok () := by
  unfold append check Batch.check at h
  split at h
  · next hok =>
    split at hok
    · cases hok
    · exact ⟨(Except.ok.inj h).symm, hok⟩
  · cases h

/-- An accepted batch keeps the log `Numbered`. -/
theorem Numbered.append (hl : l.Numbered) (h : l.append batch = .ok l') : l'.Numbered := by
  obtain ⟨rfl, hok⟩ := append_eq_ok h
  have hbefore : ({ l with events := l.events ++ [] } : EventLog).Numbered := by simpa using hl
  exact hbefore.checkFrom hok

/-- The events of an accepted batch come after all that there were of their aggregates. -/
theorem Numbered.latest_lt_revision (hl : l.Numbered) (h : l.append batch = .ok l')
    (he : e ∈ batch) : l.latest e.aggregateId < e.revision := by
  have hn := hl.append h
  obtain ⟨rfl, -⟩ := append_eq_ok h
  have hmem : e ∈ batch.filter fun x => x.aggregateId == e.aggregateId :=
    List.mem_filter.2 ⟨he, beq_self_eq_true _⟩
  obtain ⟨i, hi⟩ := List.mem_iff_getElem?.1 hmem
  have hrev : e.revision = (l.streamOf e.aggregateId).length + i + 1 := by
    apply hn e.aggregateId
    rw [streamOf_append, List.getElem?_append_right (Nat.le_add_right _ _), Nat.add_sub_cancel_left]
    exact hi
  unfold latest
  omega

theorem numbered_empty : (empty : EventLog).Numbered := by
  intro a i e he
  simp [empty, streamOf] at he

/-! ## The latest event and the aggregates -/

/-- The `last` event of an aggregate is that of its latest revision. -/
theorem Numbered.last_eq_ok (h : l.Numbered) {x : Aggregate} (hlast : l.last x = .ok e) :
    e ∈ l.events ∧ e.aggregateId = x.id ∧ e.revision = l.latest x.id := by
  unfold last at hlast
  split at hlast
  · next hget =>
    obtain rfl := Except.ok.inj hlast
    obtain ⟨hmem, hagg⟩ := mem_streamOf.1 (List.mem_of_getLast? hget)
    refine ⟨hmem, hagg, ?_⟩
    rw [List.getLast?_eq_getElem?] at hget
    have hrev := h _ _ _ hget
    have hpos := List.length_pos_of_mem (mem_streamOf.2 ⟨hmem, hagg⟩)
    unfold latest
    omega
  · cases hlast

/-- `last` is refused only where there is no event. -/
theorem last_eq_error {x : Aggregate} {err : LogError} (h : l.last x = .error err) :
    err = .noEventsOf x.id ∧ l.latest x.id = 0 := by
  unfold last at h
  split at h
  · cases h
  · next hnone =>
    rw [List.getLast?_eq_none_iff] at hnone
    refine ⟨(Except.error.inj h).symm, ?_⟩
    rw [latest, hnone, List.length_nil]

theorem mem_addAggregate {known : List Aggregate} {x : Aggregate} (h : x ∈ known) :
    x ∈ addAggregate known e := by
  unfold addAggregate
  split
  · exact h
  · exact List.mem_append_left _ h

/-- An id that is known, or is that of an event, is found among the aggregates that were
gathered. -/
theorem exists_mem_foldl_addAggregate {known : List Aggregate} {events : List Event}
    (h : (∃ x ∈ known, x.id = a) ∨ ∃ e ∈ events, e.aggregateId = a) :
    ∃ x ∈ events.foldl addAggregate known, x.id = a := by
  induction events generalizing known with
  | nil => exact h.resolve_right fun ⟨_, he, _⟩ => by cases he
  | cons e rest ih =>
    refine ih ?_
    rcases h with ⟨x, hx, hid⟩ | ⟨e', he', hid⟩
    · exact .inl ⟨x, mem_addAggregate hx, hid⟩
    · rcases List.mem_cons.1 he' with rfl | he'
      · left
        unfold addAggregate
        split
        · next hany =>
          obtain ⟨x, hx, hxe⟩ := List.any_eq_true.1 hany
          exact ⟨x, hx, (beq_iff_eq.1 hxe).trans hid⟩
        · exact ⟨e'.aggregate, List.mem_append_right _ (List.mem_singleton_self _), hid⟩
      · exact .inr ⟨e', he', hid⟩

/-- Every aggregate that has an event is among the `aggregates`. -/
theorem exists_aggregate (he : e ∈ l.events) : ∃ x ∈ l.aggregates, x.id = e.aggregateId :=
  exists_mem_foldl_addAggregate (.inr ⟨e, he, rfl⟩)

/-- `addAggregate` adds an id only if it is not known, so none stands twice. -/
theorem nodup_foldl_addAggregate {known : List Aggregate} (h : (known.map (·.id)).Nodup)
    (events : List Event) : ((events.foldl addAggregate known).map (·.id)).Nodup := by
  induction events generalizing known with
  | nil => exact h
  | cons e rest ih =>
    apply ih
    unfold addAggregate
    split
    · exact h
    · next hnew =>
      rw [List.any_eq_true, not_exists] at hnew
      rw [List.map_append, List.nodup_append]
      refine ⟨h, List.pairwise_singleton .., fun id hid other hother heq => ?_⟩
      obtain ⟨x, hx, rfl⟩ := List.mem_map.1 hid
      obtain rfl := List.mem_singleton.1 hother
      exact hnew x ⟨hx, beq_iff_eq.2 heq⟩

/-- No id is listed twice in `aggregates`. -/
theorem nodup_aggregates (l : EventLog) : (l.aggregates.map (·.id)).Nodup := by
  have hnil : (([] : List Aggregate).map (·.id)).Nodup := List.nodup_nil
  exact nodup_foldl_addAggregate hnil l.events

end EventRelay.EventLog
