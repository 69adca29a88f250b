import EventRelay.MemoryStores
import EventRelay.Proofs.Log.Streams
import Mathlib.Data.List.Induction

/-!
# What is held beside the list of events

A `Storage` holds more than it needs: positions that tell where the events of an aggregate are, the
aggregates that have events, and snapshots by revision. All of it follows from two lists, that of
the events and that of the snapshots, which make an `EventLog`. A storage that starts empty
represents such a log for good (`Represents.answer`), so whatever is proved of the answers of a log
holds of the answers of a storage.
-/

namespace EventRelay

variable {s : Storage} {l : EventLog} {e : Event} {a : Uuid} {batch : List Event}

/-! ## The aggregates of a list of events -/

namespace EventLog

theorem addAggregate_subset {known : List Aggregate} {x : Aggregate}
    (h : x ∈ addAggregate known e) :
    x ∈ known ∨ x = e.aggregate := by
  unfold addAggregate at h
  split at h
  · exact .inl h
  · simpa using h

/-- Whatever is among the `aggregates` is named by an event. -/
theorem exists_event_of_mem_aggregates {x : Aggregate} (h : x ∈ l.aggregates) :
    ∃ e ∈ l.events, e.aggregate = x := by
  obtain ⟨events, snapshots⟩ := l
  induction events using List.reverseRecOn with
  | nil => cases h
  | append_singleton events e ih =>
    simp only [aggregates, List.foldl_append, List.foldl_cons, List.foldl_nil] at h
    rcases addAggregate_subset h with h | rfl
    · obtain ⟨e', he', hx⟩ := ih h
      exact ⟨e', List.mem_append_left _ he', hx⟩
    · exact ⟨e, by simp, rfl⟩

/-- An aggregate is listed under an id exactly if the id has events, so `Storage.push` adds one just
where the log does. -/
theorem any_aggregates_iff : (l.aggregates.any fun x => x.id == a) = true ↔ l.latest a ≠ 0 := by
  rw [List.any_eq_true, ne_eq, latest_eq_zero_iff]
  constructor
  · rintro ⟨x, hx, hid⟩ hnone
    obtain ⟨e, he, rfl⟩ := exists_event_of_mem_aggregates hx
    exact hnone e he (beq_iff_eq.1 hid)
  · intro h
    obtain ⟨e, hmem, hid⟩ : ∃ e ∈ l.events, e.aggregateId = a := by
      by_contra hnone
      exact h fun e he hid => hnone ⟨e, he, hid⟩
    obtain ⟨x, hx, hx'⟩ := exists_aggregate hmem
    exact ⟨x, hx, beq_iff_eq.2 (hx'.trans hid)⟩

theorem latest_snoc (l : EventLog) (e : Event) (a : Uuid) :
    ({ l with events := l.events ++ [e] } : EventLog).latest a =
      l.latest a + if e.aggregateId = a then 1 else 0 := by
  simp only [latest, streamOf_append, List.length_append]
  by_cases h : e.aggregateId = a <;> simp [h]

/-! ## The greatest of several snapshots -/

variable {x : Snapshot} {taken : List Snapshot}

theorem greatest_eq_none_iff : greatest taken = none ↔ taken = [] := by
  cases taken with
  | nil => simp [greatest]
  | cons x rest =>
    simp only [greatest, reduceCtorEq, iff_false]
    split
    · simp
    · split <;> simp

/-- Which of a list and one in front of it is the `greatest`. -/
theorem greatest_cons_eq_some_iff {first : Snapshot} : greatest (first :: taken) = some x ↔
    (greatest taken = some x ∧ first.revision < x.revision) ∨
      (x = first ∧ ∀ t, greatest taken = some t → t.revision ≤ first.revision) := by
  rw [greatest]
  cases h : greatest taken with
  | none => simp [eq_comm]
  | some t =>
    by_cases hlt : first.revision < t.revision
    · simp only [hlt, if_true, Option.some.injEq, forall_eq', Nat.not_le.2 hlt, and_false,
        or_false]
      exact (and_iff_left_of_imp fun heq => heq ▸ hlt).symm
    · simp only [hlt, if_false, Option.some.injEq, forall_eq', Nat.le_of_not_lt hlt, and_true]
      refine ⟨fun heq => .inr heq.symm, ?_⟩
      rintro (⟨rfl, hgt⟩ | rfl)
      · exact absurd hgt hlt
      · rfl

theorem le_greatest (h : greatest taken = some x) : ∀ t ∈ taken, t.revision ≤ x.revision := by
  induction taken generalizing x with
  | nil => cases h
  | cons first rest ih =>
    rcases greatest_cons_eq_some_iff.1 h with ⟨hrest, hlt⟩ | ⟨rfl, hle⟩
    · exact List.forall_mem_cons.2 ⟨Nat.le_of_lt hlt, ih hrest⟩
    · refine List.forall_mem_cons.2 ⟨Nat.le_refl _, fun u hu => ?_⟩
      cases ht : greatest rest with
      | none => exact absurd hu (greatest_eq_none_iff.1 ht ▸ List.not_mem_nil)
      | some t => exact Nat.le_trans (ih ht u hu) (hle t ht)

/-- Of a list with the latest in front, `greatest` is the newest. -/
theorem greatest_eq_some_iff : greatest taken = some x ↔
    ∃ after before, taken = after ++ x :: before ∧ (∀ t ∈ after, t.revision < x.revision) ∧
      ∀ t ∈ before, t.revision ≤ x.revision := by
  induction taken generalizing x with
  | nil => simp [greatest]
  | cons first rest ih =>
    constructor
    · intro h
      rcases greatest_cons_eq_some_iff.1 h with ⟨hrest, hlt⟩ | ⟨rfl, -⟩
      · obtain ⟨after, before, rfl, hafter, hbefore⟩ := ih.1 hrest
        exact ⟨first :: after, before, rfl, List.forall_mem_cons.2 ⟨hlt, hafter⟩, hbefore⟩
      · -- the first was stored last, so it need not be greater than those behind it
        exact ⟨[], rest, rfl, List.forall_mem_nil _, (List.forall_mem_cons.1 (le_greatest h)).2⟩
    · rintro ⟨after, before, heq, hafter, hbefore⟩
      rw [greatest_cons_eq_some_iff]
      rcases after with _ | ⟨_, after⟩
      · obtain ⟨rfl, rfl⟩ := List.cons.inj heq
        refine .inr ⟨rfl, fun t ht => ?_⟩
        obtain ⟨_, _, rfl, -, -⟩ := ih.1 ht
        exact hbefore t List.mem_append_cons_self
      · obtain ⟨rfl, rfl⟩ := List.cons.inj heq
        obtain ⟨hlt, hafter⟩ := List.forall_mem_cons.1 hafter
        exact .inl ⟨ih.2 ⟨after, before, rfl, hafter, hbefore⟩, hlt⟩

/-- In a map that holds of each revision the snapshot stored last, the last one is the
`greatest`. -/
theorem getLast?_toList_eq_greatest {byRevision : Std.TreeMap Nat Snapshot}
    (h : ∀ r, byRevision[r]? = taken.find? fun t => t.revision == r) :
    byRevision.toList.getLast?.map (·.2) = greatest taken := by
  have hmem : ∀ r t, (r, t) ∈ byRevision.toList ↔
      (taken.find? fun t => t.revision == r) = some t := by
    intro r t
    rw [Std.TreeMap.mem_toList_iff_getElem?_eq_some, h]
  cases hlast : byRevision.toList.getLast? with
  | none =>
    refine (greatest_eq_none_iff.2 (List.eq_nil_iff_forall_not_mem.2 fun t ht => ?_)).symm
    obtain ⟨t', ht'⟩ : ∃ t', (taken.find? fun x => x.revision == t.revision) = some t' :=
      Option.isSome_iff_exists.1 (List.find?_isSome.2 ⟨t, ht, by simp⟩)
    have hin := (hmem _ _).2 ht'
    rw [List.getLast?_eq_none_iff.1 hlast] at hin
    cases hin
  | some last =>
    obtain ⟨r, x⟩ := last
    obtain ⟨front, hfront⟩ := List.getLast?_eq_some_iff.1 hlast
    obtain ⟨hrev, after, before, heq, hafter⟩ := List.find?_eq_some_iff_append.1
      ((hmem r x).1 (by rw [hfront]; simp))
    obtain rfl : x.revision = r := beq_iff_eq.1 hrev
    -- the keys ascend, so no revision is beyond that of the last entry
    have hle : ∀ t ∈ taken, t.revision ≤ x.revision := by
      intro t ht
      obtain ⟨t', ht'⟩ : ∃ t', (taken.find? fun x => x.revision == t.revision) = some t' :=
        Option.isSome_iff_exists.1 (List.find?_isSome.2 ⟨t, ht, by simp⟩)
      have hin := (hmem _ _).2 ht'
      have hasc : byRevision.toList.Pairwise fun p p' => p.1 < p'.1 :=
        Std.TreeMap.ordered_keys_toList.imp Nat.compare_eq_lt.1
      rw [hfront] at hin hasc
      rcases List.mem_append.1 hin with hin | hin
      · exact Nat.le_of_lt ((List.pairwise_append.1 hasc).2.2 _ hin _ (List.mem_singleton_self _))
      · obtain ⟨hr, -⟩ := Prod.mk.inj (List.mem_singleton.1 hin)
        exact Nat.le_of_eq hr
    refine (greatest_eq_some_iff.2 ⟨after, before, heq, fun t ht => ?_, fun t ht => ?_⟩).symm
    · have hne : t.revision ≠ x.revision := by simpa using hafter t ht
      have := hle t (by rw [heq]; exact List.mem_append_left _ ht)
      omega
    · exact hle t (by rw [heq]; simp [ht])

end EventLog

open EventLog

/-! ## Representing a log -/

/-- What a `Storage` holds is what the lists of an `EventLog` tell. -/
structure Storage.Represents (s : Storage) (l : EventLog) : Prop where
  events : s.events = l.events
  /-- At the positions of an aggregate stand its events, in their order. -/
  located : ∀ a, (s.positionsOf a).map (fun position => s.events[position]?) =
    (l.streamOf a).map some
  /-- An aggregate has positions as soon as it has events. -/
  known : ∀ a, s.streams.contains a = true ↔ l.latest a ≠ 0
  aggregates : s.aggregates = l.aggregates
  /-- Of each revision the snapshot that was stored last. -/
  snapshots : ∀ a r, (s.snapshotsOf a)[r]? =
    (l.snapshots.filter fun x => x.aggregate.id == a).find? fun x => x.revision == r

namespace Storage

namespace Represents

theorem empty : Represents {} {} where
  events := rfl
  located a := by simp [positionsOf, streamOf]
  known a := by simp [EventLog.latest, streamOf]
  aggregates := rfl
  snapshots a r := by simp [snapshotsOf]

/-- An id has as many positions as its stream has events. -/
theorem latest_eq (h : s.Represents l) (a : Uuid) : s.latest a = l.latest a := by
  have hlength := congrArg List.length (h.located a)
  rwa [List.length_map, List.length_map] at hlength

/-- No position is beyond the events, so every look-up by position finds one. -/
theorem lt_length (h : s.Represents l) {position : Nat} (hp : position ∈ s.positionsOf a) :
    position < s.events.length := by
  have hmem := List.mem_map_of_mem (f := fun position => s.events[position]?) hp
  rw [h.located] at hmem
  obtain ⟨e, -, he⟩ := List.mem_map.1 hmem
  exact (List.getElem?_eq_some_iff.1 he.symm).1

/-! ### Appending -/

theorem positionsOf_push (s : Storage) (e : Event) (a : Uuid) :
    (s.push e).positionsOf a =
      if e.aggregateId = a then s.positionsOf a ++ [s.events.length] else s.positionsOf a := by
  simp only [push, positionsOf, Std.HashMap.getD_insert, beq_iff_eq]
  split
  · next heq => rw [heq]
  · rfl

/-- `Storage.push` puts one more event at the end of what both hold. -/
theorem push (h : s.Represents l) (e : Event) :
    (s.push e).Represents { l with events := l.events ++ [e] } where
  events := by rw [Storage.push, h.events]
  located a := by
    -- where the older events are, they stay
    have hold : (s.positionsOf a).map (fun position => (s.push e).events[position]?) =
        (l.streamOf a).map some := by
      rw [← h.located]
      exact List.map_congr_left fun position hp => List.getElem?_append_left (h.lt_length hp)
    rw [positionsOf_push, streamOf_append]
    by_cases heq : e.aggregateId = a
    · rw [if_pos heq, List.map_append, hold]
      simp [Storage.push, heq]
    · rw [if_neg heq, hold]
      simp [heq]
  known a := by
    simp only [Storage.push, Std.HashMap.contains_insert, Bool.or_eq_true, beq_iff_eq, h.known,
      latest_snoc]
    by_cases heq : e.aggregateId = a <;> simp [heq]
  aggregates := by
    have hstep : ({ l with events := l.events ++ [e] } : EventLog).aggregates =
        addAggregate l.aggregates e := by
      simp [EventLog.aggregates, List.foldl_append]
    have hknown : s.streams.contains e.aggregateId =
        l.aggregates.any fun x => x.id == e.aggregateId :=
      Bool.eq_iff_iff.2 ((h.known _).trans any_aggregates_iff.symm)
    rw [hstep, Storage.push, addAggregate, h.aggregates, hknown]
  snapshots := h.snapshots

theorem foldl_push (h : s.Represents l) (batch : List Event) :
    (batch.foldl Storage.push s).Represents { l with events := l.events ++ batch } := by
  induction batch generalizing s l with
  | nil => simpa using h
  | cons e rest ih => simpa using ih (h.push e)

/-- `append` refuses a batch in both for the same reason, or stores it in both. -/
theorem append (h : s.Represents l) (batch : List Event) :
    (∃ reason, s.append batch = .error reason ∧ l.append batch = .error reason) ∨
      ∃ s' l', s.append batch = .ok s' ∧ l.append batch = .ok l' ∧ s'.Represents l' := by
  have hlatest : s.latest = l.latest := funext h.latest_eq
  unfold Storage.append EventLog.append EventLog.check
  rw [hlatest]
  cases Batch.check l.latest batch with
  | error reason => exact .inl ⟨reason, rfl, rfl⟩
  | ok => exact .inr ⟨_, _, rfl, rfl, h.foldl_push batch⟩

/-! ### Reading -/

/-- What stands at the positions of an id is its `streamOf`, in order. -/
theorem getElem?_positionsOf (h : s.Represents l) (a : Uuid) (i : Nat) :
    ((s.positionsOf a)[i]?.bind fun position => s.events[position]?) = (l.streamOf a)[i]? := by
  have hget := congrArg (fun found => found[i]?.join) (h.located a)
  simpa [← Option.bind_id_eq_join, Option.bind_map, Function.comp_def] using hget

theorem getLast?_positionsOf (h : s.Represents l) (a : Uuid) :
    ((s.positionsOf a).getLast?.bind fun position => s.events[position]?) =
      (l.streamOf a).getLast? := by
  have hget := congrArg (fun found => found.getLast?.join) (h.located a)
  simpa [← Option.bind_id_eq_join, Option.bind_map, Function.comp_def] using hget

/-- `next?` gives the same by positions as by going through the list. -/
theorem next?_eq (h : s.Represents l) (c : Cursor) : s.next? c = l.next? c := by
  cases c with
  | scan selection position => rw [Storage.next?, EventLog.next?, h.events]
  | stream a range revision =>
    rw [Storage.next?, EventLog.next?, h.getElem?_positionsOf]

theorem last_eq (h : s.Represents l) (x : Aggregate) : s.last x = l.last x := by
  have hlast := h.getLast?_positionsOf x.id
  cases hget : (l.streamOf x.id).getLast? with
  | none => simp only [Storage.last, EventLog.last, hlast, hget]
  | some e => simp only [Storage.last, EventLog.last, hlast, hget]

/-! ### Snapshots -/

/-- The last snapshot of the map of an id is the greatest one that the log keeps of it. -/
theorem snapshot?_eq (h : s.Represents l) (x : Aggregate) : s.snapshot? x = l.snapshot? x :=
  getLast?_toList_eq_greatest (h.snapshots x.id)

/-- `storeSnapshot` refuses a snapshot in both for the same reason, or stores it in both. -/
theorem storeSnapshot (h : s.Represents l) (x : Snapshot) :
    (∃ reason, s.storeSnapshot x = .error reason ∧ l.storeSnapshot x = .error reason) ∨
      ∃ s' l', s.storeSnapshot x = .ok s' ∧ l.storeSnapshot x = .ok l' ∧ s'.Represents l' := by
  unfold Storage.storeSnapshot EventLog.storeSnapshot
  cases x.validate with
  | error reason => exact .inl ⟨_, rfl, rfl⟩
  | ok =>
    refine .inr ⟨_, _, rfl, rfl,
      { events := h.events
        located := h.located
        known := h.known
        aggregates := h.aggregates
        snapshots := fun a r => ?_ }⟩
    have hold := h.snapshots a r
    simp only [snapshotsOf] at hold ⊢
    rw [Std.HashMap.getD_insert, List.filter_cons]
    by_cases hid : x.aggregate.id = a
    · subst hid
      simp only [beq_self_eq_true, if_true, Std.TreeMap.getElem?_insert, List.find?_cons,
        Nat.compare_eq_eq]
      by_cases hrev : x.revision = r
      · simp [hrev]
      · have hne : (x.revision == r) = false := beq_false_of_ne hrev
        simp only [hrev, hne, if_false, hold]
    · simp [hid, hold]

/-- `Storage.answer` and `Memory.answerLog` give the same to a call, and what is held goes on to
represent the log. -/
theorem answer (h : s.Represents l) (c : LogCall) :
    (s.answer c).1 = (Memory.answerLog l c).1 ∧
      (s.answer c).2.Represents (Memory.answerLog l c).2 := by
  cases c with
  | append batch =>
    rcases h.append batch with ⟨reason, hs, hl⟩ | ⟨s', l', hs, hl, h'⟩
    · simp only [Storage.answer, Memory.answerLog, hs, hl]
      exact ⟨trivial, h⟩
    · simp only [Storage.answer, Memory.answerLog, hs, hl]
      exact ⟨trivial, h'⟩
  | storeSnapshot x =>
    rcases h.storeSnapshot x with ⟨reason, hs, hl⟩ | ⟨s', l', hs, hl, h'⟩
    · simp only [Storage.answer, Memory.answerLog, hs, hl]
      exact ⟨trivial, h⟩
    · simp only [Storage.answer, Memory.answerLog, hs, hl]
      exact ⟨trivial, h'⟩
  | next reader =>
    cases reader with
    | memory cursor =>
      simp only [Storage.answer, Memory.answerLog, h.next?_eq]
      cases l.next? cursor <;> exact ⟨rfl, h⟩
    | table | ended => exact ⟨rfl, h⟩
  | last x => exact ⟨h.last_eq x, h⟩
  | hasCausedBy id => exact ⟨by simp only [Storage.answer, Memory.answerLog, Storage.hasCausedBy,
      EventLog.hasCausedBy, h.events], h⟩
  | snapshot x => exact ⟨congrArg Except.ok (h.snapshot?_eq x), h⟩
  | aggregates => exact ⟨by simp only [Storage.answer, Memory.answerLog, h.aggregates], h⟩
  | read | nextAggregate => exact ⟨rfl, h⟩

end Represents

end Storage

end EventRelay
