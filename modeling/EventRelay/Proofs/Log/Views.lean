import EventRelay.Proofs.Broker.Stores

/-!
# Reads of the log

Whatever is read of a log that only batches were brought to is a view of one list: the events of the
batches that it took, one batch after the other. A cursor that is followed to its end yields the
wanted part of that list in its order. That is so of a `Memory`, whose log is such a list, and of
the `MemoryStores` that represent it, which go by the positions that they hold.
-/

namespace EventRelay

/-- Ranges begin at revision 1 or later. -/
theorem RevisionRange.exists_first (range : RevisionRange) : ∃ n, range.first = n + 1 := by
  have hpos : 1 ≤ range.first := by
    unfold RevisionRange.first
    cases hfirst : range.first? with
    | none => exact Nat.le_refl 1
    | some n => exact range.first_pos n hfirst
  exact ⟨range.first - 1, by omega⟩

namespace EventLog

variable {l l' : EventLog} {c c' : Cursor} {e x : Event} {es batch : List Event}

/-! ## What a cursor comes by -/

/-- The events that a cursor yields up to its end, while nothing is stored: `next?` after
`next?`. -/
inductive Yields (l : EventLog) : Cursor → List Event → Prop
  | nil {c : Cursor} : l.next? c = none → Yields l c []
  | cons {c c' : Cursor} {e : Event} {es : List Event} :
      l.next? c = some (e, c') → Yields l c' es → Yields l c (e :: es)

/-- Cursors that go on alike yield the same. -/
theorem Yields.of_next?_eq (h : Yields l c' es) (heq : l.next? c = l.next? c') :
    Yields l c es := by
  cases h with
  | nil hnone => exact .nil (heq.trans hnone)
  | cons hsome hrest => exact .cons (heq.trans hsome) hrest

/-- A scan yields what is wanted from its place on. By induction on what is left of the log. -/
theorem yields_scan_of_drop {selection : Selection} {position : Nat} {suffix : List Event}
    (h : l.events.drop position = suffix) :
    Yields l (.scan selection position) (suffix.filter (wants selection)) := by
  induction suffix generalizing position with
  | nil =>
    apply Yields.nil
    simp [next?, h, findFrom]
  | cons e rest ih =>
    have hrest : l.events.drop (position + 1) = rest := by
      rw [← List.tail_drop, h, List.tail_cons]
    by_cases hwants : wants selection e = true
    · rw [List.filter_cons_of_pos hwants]
      apply Yields.cons _ (ih hrest)
      simp [next?, h, findFrom, hwants]
    · rw [List.filter_cons_of_neg hwants]
      apply (ih hrest).of_next?_eq
      simp [next?, h, hrest, findFrom, hwants]

/-- A scan from the start yields all that the selection `wants`. -/
theorem yields_scan (l : EventLog) (selection : Selection) :
    Yields l (.scan selection 0) (l.events.filter (wants selection)) :=
  yields_scan_of_drop List.drop_zero

theorem reaches_of_le {range : RevisionRange} {m n : Nat} (h : range.reaches n = true)
    (hle : m ≤ n) : range.reaches m = true := by
  unfold RevisionRange.reaches at h ⊢
  split
  · rfl
  · next last hlast =>
    simp only [hlast, decide_eq_true_eq] at h ⊢
    omega

namespace Numbered

theorem le_revision_of_mem_drop (h : l.Numbered) {a : Uuid} {n : Nat}
    (he : e ∈ (l.streamOf a).drop n) : n + 1 ≤ e.revision := by
  obtain ⟨i, hi⟩ := List.mem_iff_getElem?.1 he
  rw [List.getElem?_drop] at hi
  have hrev := h a _ e hi
  omega

theorem revision_le_of_mem_take (h : l.Numbered) {a : Uuid} {n : Nat}
    (he : e ∈ (l.streamOf a).take n) : e.revision ≤ n := by
  obtain ⟨i, hi⟩ := List.mem_iff_getElem?.1 he
  rw [List.getElem?_take] at hi
  split at hi
  · have hrev := h a i e hi
    omega
  · cases hi

/-- A read of a stream yields what is left of the stream as far as its range reaches. -/
theorem yields_stream_of_drop (h : l.Numbered) {a : Uuid} {range : RevisionRange} {n : Nat}
    {suffix : List Event} (hdrop : (l.streamOf a).drop n = suffix) :
    Yields l (.stream a range (n + 1)) (suffix.filter fun e => range.reaches e.revision) := by
  induction suffix generalizing n with
  | nil =>
    have hnone : (l.streamOf a)[n]? = none := by
      rw [List.getElem?_eq_none_iff]
      exact List.drop_eq_nil_iff.1 hdrop
    apply Yields.nil
    simp [next?, hnone]
  | cons e rest ih =>
    have hrest : (l.streamOf a).drop (n + 1) = rest := by
      rw [← List.tail_drop, hdrop, List.tail_cons]
    have hget : (l.streamOf a)[n]? = some e := by
      rw [← List.head?_drop, hdrop, List.head?_cons]
    have hrev : e.revision = n + 1 := h a n e hget
    by_cases hreaches : range.reaches (n + 1) = true
    · rw [List.filter_cons_of_pos (by rw [hrev]; exact hreaches)]
      apply Yields.cons _ (ih hrest)
      simp [next?, hreaches, hget]
    · -- no later revision is within the range either
      have hempty : (e :: rest).filter (fun e => range.reaches e.revision) = [] := by
        rw [List.filter_eq_nil_iff]
        intro x hx hxreaches
        rw [← hdrop] at hx
        exact hreaches (reaches_of_le hxreaches (h.le_revision_of_mem_drop hx))
      rw [hempty]
      apply Yields.nil
      simp [next?, hreaches]

/-- Below the first revision of a range a stream has nothing in it: so `RevisionRange.reaches` is
enough from there on. -/
theorem filter_contains_streamOf (h : l.Numbered) (a : Uuid) (range : RevisionRange) {n : Nat}
    (hn : range.first = n + 1) : (l.streamOf a).filter (fun e => range.contains e.revision) =
      ((l.streamOf a).drop n).filter fun e => range.reaches e.revision := by
  have htake : ((l.streamOf a).take n).filter (fun e => range.contains e.revision) = [] := by
    rw [List.filter_eq_nil_iff]
    intro e he
    have hle := h.revision_le_of_mem_take he
    simp only [RevisionRange.contains, Bool.and_eq_true, decide_eq_true_eq]
    omega
  have hdrop : ((l.streamOf a).drop n).filter (fun e => range.contains e.revision) =
      ((l.streamOf a).drop n).filter fun e => range.reaches e.revision := by
    apply List.filter_congr
    intro e he
    have hle := h.le_revision_of_mem_drop he
    have hfirst : range.first ≤ e.revision := by omega
    simp [RevisionRange.contains, hfirst]
  rw [← hdrop, ← List.nil_append (List.filter _ (List.drop _ _)), ← htake, ← List.filter_append,
    List.take_append_drop]

/-- A read of a stream `Yields` the events in the range. -/
theorem yields_stream (h : l.Numbered) (a : Uuid) (range : RevisionRange) :
    Yields l (.stream a range range.first)
      ((l.streamOf a).filter fun e => range.contains e.revision) := by
  obtain ⟨n, hn⟩ := range.exists_first
  rw [h.filter_contains_streamOf a range hn, hn]
  exact h.yields_stream_of_drop rfl

/-! ## What else is asked of a log -/

/-- The revisions of a `streamOf` ascend. -/
theorem ascending_streamOf (h : l.Numbered) (a : Uuid) :
    (l.streamOf a).Pairwise fun e e' => e.revision < e'.revision := by
  have hrange : ((l.streamOf a).map (·.revision)).Pairwise (· < ·) := by
    rw [h.map_revision_streamOf a]
    exact List.pairwise_lt_range'
  exact List.pairwise_map.1 hrange

theorem of_snoc (h : ({ l with events := l.events ++ [x] } : EventLog).Numbered) :
    l.Numbered ∧ x.revision = l.latest x.aggregateId + 1 := by
  constructor
  · intro a i e he
    have hlt : i < (l.streamOf a).length := (List.getElem?_eq_some_iff.1 he).1
    apply h a i e
    rw [streamOf_append, List.getElem?_append_left hlt]
    exact he
  · apply h x.aggregateId
    rw [streamOf_append, latest, List.getElem?_append_right (Nat.le_refl _), Nat.sub_self]
    simp

end Numbered

/-- The `aggregates` are those of the events with revision 1. -/
theorem Numbered.aggregates_eq (h : l.Numbered) :
    l.aggregates = (l.events.filter fun e => e.revision == 1).map (·.aggregate) := by
  obtain ⟨events, snapshots⟩ := l
  induction events using List.reverseRecOn with
  | nil => rfl
  | append_singleton events x ih =>
    obtain ⟨hbefore, hrev⟩ := h.of_snoc (l := ⟨events, snapshots⟩)
    have hstep : (⟨events ++ [x], snapshots⟩ : EventLog).aggregates =
        addAggregate (⟨events, snapshots⟩ : EventLog).aggregates x := by
      simp [aggregates, List.foldl_append]
    rw [hstep, List.filter_append, List.map_append, ← ih hbefore]
    by_cases hknown : ∀ e ∈ events, e.aggregateId ≠ x.aggregateId
    · -- the first event of its aggregate
      have hfirst : x.revision = 1 := by
        rw [hrev, latest_eq_zero_iff.2 hknown]
      have hnew : ((⟨events, snapshots⟩ : EventLog).aggregates.any
          fun a => a.id == x.aggregateId) = false := by
        rw [List.any_eq_false, ih hbefore]
        intro a ha heq
        obtain ⟨e, he, rfl⟩ := List.mem_map.1 ha
        exact hknown e (List.mem_filter.1 he).1 (beq_iff_eq.1 heq)
      simp [addAggregate, hnew, hfirst]
    · have hlater : x.revision ≠ 1 := by
        intro hone
        have hzero : (⟨events, snapshots⟩ : EventLog).latest x.aggregateId = 0 := by omega
        exact hknown (latest_eq_zero_iff.1 hzero)
      have hold : ((⟨events, snapshots⟩ : EventLog).aggregates.any
          fun a => a.id == x.aggregateId) = true := by
        obtain ⟨e, he⟩ := not_forall.1 hknown
        obtain ⟨hmem, heq⟩ := Classical.not_imp.1 he
        obtain ⟨a, ha, hid⟩ := exists_aggregate (l := ⟨events, snapshots⟩) hmem
        rw [List.any_eq_true]
        exact ⟨a, ha, by simp [hid, not_not.1 heq]⟩
      simp [addAggregate, hold, hlater]

theorem last_of_latest_eq_zero {a : Aggregate} (h : l.latest a.id = 0) :
    l.last a = .error (.noEventsOf a.id) := by
  have hnil : l.streamOf a.id = [] := List.length_eq_zero_iff.1 h
  simp [last, hnil]

theorem exists_last {a : Aggregate} (h : l.latest a.id ≠ 0) : ∃ e, l.last a = .ok e := by
  cases hlast : l.last a with
  | ok e => exact ⟨e, rfl⟩
  | error err => exact absurd (last_eq_error hlast).2 h

/-! ## Accepted batches -/

theorem timestamp_of_validate {e : Event} (h : e.validate = .ok ()) : 0 ≤ e.timestamp := by
  by_contra hneg
  have hlt : e.timestamp < 0 := by omega
  unfold Event.validate at h
  simp only [hlt, if_true, bind, Except.bind, pure, Except.pure, throw, throwThe,
    MonadExceptOf.throw] at h
  repeat' split at h
  all_goals cases h

/-- Every event of a batch that passes `Batch.checkFrom` was validated, and so is not from before
1970. -/
theorem timestamp_of_checkFrom {latest : Uuid → Nat} {before rest : List Event}
    (h : Batch.checkFrom latest before rest = .ok ()) : ∀ e ∈ rest, 0 ≤ e.timestamp := by
  induction rest generalizing before with
  | nil =>
    intro e he
    cases he
  | cons first rest ih =>
    unfold Batch.checkFrom at h
    split at h
    · cases h
    · next hvalid =>
      simp only at h
      split at h
      · cases h
      · split at h
        · cases h
        · intro e he
          rcases List.mem_cons.1 he with rfl | he
          · exact timestamp_of_validate hvalid
          · exact ih h e he

/-- Timestamps of stored events are not before 1970. -/
def Dated (l : EventLog) : Prop := ∀ e ∈ l.events, 0 ≤ e.timestamp

/-- An accepted batch keeps the log `Dated`. -/
theorem Dated.append (hl : l.Dated) (h : l.append batch = .ok l') : l'.Dated := by
  obtain ⟨rfl, hok⟩ := append_eq_ok h
  intro e he
  rcases List.mem_append.1 he with he | he
  · exact hl e he
  · exact timestamp_of_checkFrom hok e he

end EventLog

open EventLog

/-- All that a selection wants, asked for event by event: a read that is drained. -/
def Selection.readAll (selection : Selection) (count : Nat) :
    Work (Except LogError (List Event × Option LogError)) := do
  match ← Work.log (.read selection) with
  | .ok reader => return .ok (← reader.drain count)
  | .error e => return .error e

/-- All aggregates, delivered one by one by `Reader.drainAggregates`. -/
def EventLog.readAggregates : Work (Except LogError (List Aggregate × Option LogError)) := do
  match ← Work.log .aggregates with
  | .ok delivered => return .ok (← Reader.drainAggregates delivered)
  | .error e => return .error e

theorem ReadsOnly.readAll (selection : Selection) (count : Nat) :
    ReadsOnly (selection.readAll count) := by
  refine (log rfl).bind fun out => ?_
  split
  · exact (drain count _).bind fun _ => trivial
  · trivial

theorem ReadsOnly.readAggregates : ReadsOnly readAggregates := by
  refine (log rfl).bind fun out => ?_
  split
  · exact (drainAggregates _).bind fun _ => trivial
  · trivial

/-- Brings batches to the log one after the other by `LogCall.append`, and answers the events of
those it took. -/
def EventLog.storeAll : List (List Event) → Work (List Event)
  | [] => return []
  | batch :: rest => do
    match ← Work.log (.append batch) with
    | .ok () => return batch ++ (← storeAll rest)
    | .error _ => storeAll rest

section

variable {r : Call.Reading} {m : Memory} {c : Cursor} {es : List Event}

/-- `Reader.drain` gives what the cursor `Yields`, if it may ask often enough. -/
theorem comes_drain (h : Yields m.log c es) {count : Nat} (hcount : es.length < count)
    (r : Call.Reading) : Comes r (Reader.drain count (.memory c)) m (es, none) m := by
  induction h generalizing count r with
  | @nil c hnone =>
    obtain ⟨count, rfl⟩ := Nat.exists_eq_succ_of_ne_zero (Nat.ne_of_gt hcount)
    have hnext := Comes.log (r := r) (m := m) (.next (.memory c))
    simp only [Memory.answerLog, hnone] at hnext
    exact hnext.bind fun r => .pure _
  | @cons c _ _ _ hsome _ ih =>
    obtain ⟨count, rfl⟩ := Nat.exists_eq_succ_of_ne_zero (Nat.ne_of_gt (Nat.zero_lt_of_lt hcount))
    have hnext := Comes.log (r := r) (m := m) (.next (.memory c))
    simp only [Memory.answerLog, hsome] at hnext
    refine hnext.bind fun r => ?_
    refine (ih (Nat.lt_of_succ_lt_succ hcount) r).bind fun r => ?_
    exact .pure _

/-- `Selection.readAll` gives what the cursor at its start yields. -/
theorem comes_readAll {selection : Selection} (h : Yields m.log (openCursor selection) es)
    {count : Nat} (hcount : es.length < count) :
    Comes r (selection.readAll count) m (.ok (es, none)) m := by
  refine (Comes.log (.read selection)).bind fun r => ?_
  refine (comes_drain h hcount r).bind fun r => ?_
  exact .pure _

theorem comes_drainAggregates (xs : List Aggregate) (r : Call.Reading) :
    Comes r (Reader.drainAggregates (xs.map .ok)) m (xs, none) m := by
  induction xs generalizing r with
  | nil => exact .pure _
  | cons x rest ih =>
    refine (Comes.log (.nextAggregate (.ok x))).bind fun r => ?_
    refine (ih r).bind fun r => ?_
    exact .pure _

/-- The batches that `storeAll` takes come to be in the log, and nothing else does. -/
theorem exists_comes_storeAll (batches : List (List Event)) (hn : m.log.Numbered)
    (hd : m.log.Dated) : ∃ taken m', (∀ r, Comes r (storeAll batches) m taken m') ∧
      m'.log.events = m.log.events ++ taken ∧ m'.log.Numbered ∧ m'.log.Dated := by
  induction batches generalizing m with
  | nil => exact ⟨[], m, fun r => .pure _, by simp, hn, hd⟩
  | cons batch rest ih =>
    cases happend : m.log.append batch with
    | error e =>
      obtain ⟨taken, m', hcomes, hrest⟩ := ih hn hd
      refine ⟨taken, m', fun r => ?_, hrest⟩
      have hcall := Comes.log (r := r) (m := m) (.append batch)
      simp only [Memory.answerLog, happend] at hcall
      exact hcall.bind hcomes
    | ok l =>
      obtain ⟨taken, m', hcomes, hevents, hrest⟩ :=
        ih (m := { m with log := l }) (hn.append happend) (hd.append happend)
      refine ⟨batch ++ taken, m', fun r => ?_, ?_, hrest⟩
      · have hcall := Comes.log (r := r) (m := m) (.append batch)
        simp only [Memory.answerLog, happend] at hcall
        refine hcall.bind fun r => ?_
        refine (hcomes r).bind fun r => ?_
        exact .pure _
      · obtain ⟨rfl, -⟩ := append_eq_ok happend
        rw [hevents, List.append_assoc]

end

/-! ## One list -/

/-- What is answered to reads, told from the list of all events, where `alone` does work without a
break on what holds them. -/
structure EventLog.Views {σ : Type} (alone : ∀ {α : Type}, Clock → Work α → σ → α × σ)
    (events : List Event) (s : σ) : Prop where
  /-- A replay gives all events, or those from a time on. -/
  replay : ∀ clock count, events.length < count → ∀ timestamp? : Option Int,
    alone clock ((Selection.since (timestamp?.getD 0)).readAll count) s =
      (.ok (events.filter fun e => timestamp?.all (· ≤ e.timestamp), none), s)
  causedBy : ∀ clock count, events.length < count → ∀ id,
    alone clock ((Selection.causedBy id).readAll count) s =
      (.ok (events.filter fun e => e.metadata.causationId == id, none), s)
  correlatedBy : ∀ clock count, events.length < count → ∀ id,
    alone clock ((Selection.correlatedBy id).readAll count) s =
      (.ok (events.filter fun e => e.metadata.correlationId == id, none), s)
  /-- The revisions of each aggregate are 1, 2 and so on in the order of the list. -/
  numbered : ∀ a, (events.filter fun e => e.aggregateId == a).map (·.revision) =
    List.range' 1 (events.countP fun e => e.aggregateId == a)
  /-- A read of a stream gives the revisions in the range, which ascend. -/
  stream : ∀ clock count, events.length < count → ∀ a first? last? range,
    RevisionRange.between first? last? = .ok range →
    ∃ found, alone clock ((Selection.stream a range).readAll count) s =
        (.ok (found, none), s) ∧
      found = events.filter (fun e => e.aggregateId == a && range.contains e.revision) ∧
      found.Pairwise fun e e' => e.revision < e'.revision
  /-- The last event is that of the last revision; an aggregate without events has none. -/
  last : ∀ clock a, ∃ answer, alone clock (Work.log (.last a)) s = (answer, s) ∧
    (∀ e, answer = .ok e ↔ e ∈ events ∧ e.aggregateId = a.id ∧
      e.revision = events.countP fun e => e.aggregateId == a.id) ∧
    (answer = .error (.noEventsOf a.id) ↔ events.countP (fun e => e.aggregateId == a.id) = 0)
  hasCausedBy : ∀ clock id, ∃ b, alone clock (Work.log (.hasCausedBy id)) s = (.ok b, s) ∧
    (b = true ↔ events.filter (fun e => e.metadata.causationId == id) ≠ [])
  /-- The aggregates are those of the first events. -/
  aggregates : ∀ clock, alone clock readAggregates s =
    (.ok ((events.filter fun e => e.revision == 1).map (·.aggregate), none), s)

/-- Of a memory whose log is `Numbered` and `Dated`, the list is that of its log. -/
theorem EventLog.views_of_numbered {m : Memory} (hn : m.log.Numbered) (hd : m.log.Dated) :
    Views Work.alone m.log.events m where
  replay clock count hcount timestamp? := by
    have hwants : m.log.events.filter (wants (.since (timestamp?.getD 0))) =
        m.log.events.filter fun e => timestamp?.all (· ≤ e.timestamp) := by
      apply List.filter_congr
      intro e he
      cases timestamp? with
      -- without a time the scan starts at 0, and nothing stored is older
      | none => simpa [wants] using hd e he
      | some t => rfl
    have hyields := yields_scan m.log (.since (timestamp?.getD 0))
    rw [hwants] at hyields
    exact comes_readAll hyields (Nat.lt_of_le_of_lt (List.length_filter_le _ _) hcount) clock rfl
  causedBy clock count hcount id := by
    have hyields := yields_scan m.log (.causedBy id)
    exact comes_readAll hyields (Nat.lt_of_le_of_lt (List.length_filter_le _ _) hcount) clock rfl
  correlatedBy clock count hcount id := by
    have hyields := yields_scan m.log (.correlatedBy id)
    exact comes_readAll hyields (Nat.lt_of_le_of_lt (List.length_filter_le _ _) hcount) clock rfl
  numbered a := by
    rw [List.countP_eq_length_filter]
    exact hn.map_revision_streamOf a
  stream clock count hcount a first? last? range _ := by
    have hyields := hn.yields_stream a range
    have hfound : (m.log.streamOf a).filter (fun e => range.contains e.revision) =
        m.log.events.filter fun e => e.aggregateId == a && range.contains e.revision := by
      simp [streamOf, List.filter_filter, Bool.and_comm]
    refine ⟨_, ?_, hfound, (hn.ascending_streamOf a).filter _⟩
    apply comes_readAll hyields _ clock rfl
    rw [hfound]
    exact Nat.lt_of_le_of_lt (List.length_filter_le _ _) hcount
  last clock a := by
    have hcount : m.log.events.countP (fun e => e.aggregateId == a.id) = m.log.latest a.id :=
      List.countP_eq_length_filter
    rw [hcount]
    refine ⟨m.log.last a, rfl, ?_, ?_⟩
    · intro e
      constructor
      · exact hn.last_eq_ok
      · rintro ⟨hmem, hid, hrev⟩
        have hpos := hn.revision_pos hmem
        obtain ⟨e', he'⟩ := exists_last (l := m.log) (a := a) (by omega)
        obtain ⟨hmem', hid', hrev'⟩ := hn.last_eq_ok he'
        rw [he', hn.eq_of_revision_eq hmem hmem' (hid.trans hid'.symm) (hrev.trans hrev'.symm)]
    · constructor
      · intro h
        exact (last_eq_error h).2
      · exact last_of_latest_eq_zero
  hasCausedBy clock id := by
    refine ⟨_, rfl, ?_⟩
    simp [EventLog.hasCausedBy]
  aggregates clock := by
    rw [← hn.aggregates_eq]
    have hcomes : Comes (clock 0) readAggregates m (.ok (m.log.aggregates, none)) m := by
      refine (Comes.log .aggregates).bind fun r => ?_
      refine (comes_drainAggregates _ r).bind fun r => ?_
      exact .pure _
    exact hcomes clock rfl

/-! ## The same of what is held -/

/-- What is so of reads of a memory is so of those of the `MemoryStores` that represent it. -/
theorem EventLog.Views.of_represents {s : MemoryStores} {m : Memory} {events : List Event}
    (hv : Views Work.alone events m) (h : s.Represents m) : Views MemoryStores.alone events s where
  replay clock count hcount timestamp? := h.reads (.readAll ..) (hv.replay clock count hcount _)
  causedBy clock count hcount id := h.reads (.readAll ..) (hv.causedBy clock count hcount id)
  correlatedBy clock count hcount id :=
    h.reads (.readAll ..) (hv.correlatedBy clock count hcount id)
  numbered := hv.numbered
  stream clock count hcount a first? last? range hrange := by
    obtain ⟨found, halone, hfound⟩ := hv.stream clock count hcount a first? last? range hrange
    exact ⟨found, h.reads (.readAll ..) halone, hfound⟩
  last clock a := by
    obtain ⟨answer, halone, hanswer⟩ := hv.last clock a
    exact ⟨answer, h.reads (.log rfl) halone, hanswer⟩
  hasCausedBy clock id := by
    obtain ⟨b, halone, hb⟩ := hv.hasCausedBy clock id
    exact ⟨b, h.reads (.log rfl) halone, hb⟩
  aggregates clock := h.reads .readAggregates (hv.aggregates clock)

/-- Stores to which `storeAll` brought batches represent a log that is `Numbered` and `Dated`. -/
theorem EventLog.exists_represents_storeAll (clock : Clock) (batches : List (List Event)) :
    ∃ m : Memory, (({} : MemoryStores).alone clock (storeAll batches)).2.Represents m ∧
      m.log.events = (({} : MemoryStores).alone clock (storeAll batches)).1 ∧
      m.log.Numbered ∧ m.log.Dated := by
  have hd : ({} : Memory).log.Dated := by
    intro e he
    cases he
  obtain ⟨taken, m, hcomes, hevents, hn, hdated⟩ :=
    exists_comes_storeAll batches numbered_empty hd
  obtain ⟨hresult, hrepresents⟩ := MemoryStores.Represents.empty.alone (storeAll batches) clock
  rw [hcomes (clock 0) clock rfl] at hresult hrepresents
  exact ⟨m, hrepresents, by simpa [hresult] using hevents, hn, hdated⟩

/-- **Reads are views of one list.** After any batches every read is told from the list of the
events of those batches that were taken, whatever is held beside that list to find them. -/
theorem EventLog.reads_are_views (clock : Clock) (batches : List (List Event)) :
    Views MemoryStores.alone (({} : MemoryStores).alone clock (storeAll batches)).1
        (({} : MemoryStores).alone clock (storeAll batches)).2 ∧
      (({} : MemoryStores).alone clock (storeAll batches)).2.log.length =
        (({} : MemoryStores).alone clock (storeAll batches)).1.length := by
  obtain ⟨m, hrepresents, hevents, hn, hd⟩ := exists_represents_storeAll clock batches
  rw [← hevents]
  exact ⟨(views_of_numbered hn hd).of_represents hrepresents,
    congrArg List.length hrepresents.log.events⟩

/-- The second batch repeats a revision and is refused. -/
example : (Work.alone (Sample.clockAt 0)
    (storeAll [[Sample.placed 1, Sample.placed 2], [Sample.placed 2], [Sample.placed 3]])
      {}).1.map (·.revision) = [1, 2, 3] := by
  decide

end EventRelay
