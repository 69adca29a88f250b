import EventRelay.Proofs.Log.Views

/-!
# Open cursors

Any number of reads are open at a time, and batches are stored between their steps. A cursor keeps
its place only and looks at the log anew each time it is asked, so it meets what was stored since.
Its place splits what it wants of the log into what it has given and what is still to come, and
storing adds to the latter alone.
-/

namespace EventRelay.EventLog

variable {l l' : EventLog} {e : Event}

/-- The events that a read `wants`, as many as are stored. -/
def wanted (l : EventLog) (selection : Selection) : List Event := l.events.filter (wants selection)

/-- A read that was opened, with its `Reader`, and what it has given so far. -/
structure OpenRead where
  selection : Selection
  reader : Reader
  given : List Event := []

/-- Asks a read for its next event, as `Memory.answerLog` gives it. -/
def OpenRead.next (l : EventLog) (r : OpenRead) : OpenRead :=
  match (Memory.answerLog l (.next r.reader)).1 with
  | (some (.ok e), reader) => { r with reader := reader, given := r.given ++ [e] }
  | (_, reader) => { r with reader := reader }

/-- An `EventLog` and the reads that were opened on it. -/
structure ReadingRoom where
  log : EventLog := {}
  reads : List OpenRead := []

namespace ReadingRoom

/-- What happens in a `ReadingRoom`. -/
inductive Order where
  /-- Anyone makes a `LogCall`, to store a batch or for anything else. -/
  | call (c : LogCall)
  | start (selection : Selection)
  | next (index : Nat)

def step (s : ReadingRoom) : Order → ReadingRoom
  | .call c => { s with log := (Memory.answerLog s.log c).2 }
  | .start selection =>
    match (Memory.answerLog s.log (.read selection)).1 with
    | .ok reader => { s with reads := s.reads ++ [⟨selection, reader, []⟩] }
    | .error _ => s
  | .next index => { s with reads := s.reads.modify index (OpenRead.next s.log) }

/-- The `ReadingRoom` after orders that were carried out one after the other, from an empty one. -/
def after (orders : List Order) : ReadingRoom := orders.foldl step {}

end ReadingRoom

/-! ## Places of cursors -/

/-- The place of a scan is in the log or right behind it. A stream stands at the first revision of
its range or right behind one that is stored. -/
def Cursor.Within (l : EventLog) : Cursor → Prop
  | .scan _ position => position ≤ l.events.length
  | .stream a range revision =>
    1 ≤ revision ∧ (revision = range.first ∨ revision ≤ l.latest a + 1)

/-- The place of a read splits what is `wanted` into what it has given and the rest. -/
inductive OpenRead.Placed (l : EventLog) : OpenRead → Prop
  | scan {selection : Selection} {position : Nat} :
      (∀ a range, selection ≠ .stream a range) → position ≤ l.events.length →
      Placed l ⟨selection, .memory (.scan selection position),
        (l.events.take position).filter (wants selection)⟩
  | stream {a : Uuid} {range : RevisionRange} {given : List Event} :
      given <+: l.wanted (.stream a range) →
      Placed l ⟨.stream a range, .memory (.stream a range (range.first + given.length)), given⟩
  | ended {selection : Selection} {given : List Event} : given <+: l.wanted selection →
      Placed l ⟨selection, .ended, given⟩

/-! ## Scans -/

/-- What `findFrom` finds is the only wanted event before the place that it comes to. -/
theorem findFrom_cases (wants : Event → Bool) (position : Nat) (events : List Event) :
    (findFrom wants position events = none ∧ events.filter wants = []) ∨
      ∃ e n, findFrom wants position events = some (e, position + n) ∧ n ≤ events.length ∧
        (events.take n).filter wants = [e] := by
  induction events generalizing position with
  | nil => exact .inl ⟨rfl, rfl⟩
  | cons first rest ih =>
    by_cases hw : wants first = true
    · right
      refine ⟨first, 1, ?_, by simp, by simp [hw]⟩
      simp [findFrom, hw]
    · have hfind : findFrom wants position (first :: rest) =
          findFrom wants (position + 1) rest := by simp [findFrom, hw]
      rcases ih (position + 1) with ⟨hnone, hnil⟩ | ⟨e, n, hsome, hn, htake⟩
      · left
        exact ⟨hfind.trans hnone, by simp [hw, hnil]⟩
      · right
        refine ⟨e, n + 1, ?_, by simpa using hn, ?_⟩
        · rw [hfind, hsome, Nat.add_assoc, Nat.add_comm 1 n]
        · rw [List.take_succ_cons, List.filter_cons_of_neg hw, htake]

theorem wanted_eq_append (l : EventLog) (selection : Selection) (position : Nat) :
    l.wanted selection = (l.events.take position).filter (wants selection) ++
      (l.events.drop position).filter (wants selection) := by
  rw [← List.filter_append, List.take_append_drop, wanted]

/-- A scan goes to the next event that is `wanted`, or there is none. -/
theorem next?_scan_cases (l : EventLog) (selection : Selection) (position : Nat) :
    (l.next? (.scan selection position) = none ∧
      l.wanted selection = (l.events.take position).filter (wants selection)) ∨
    ∃ e n, l.next? (.scan selection position) = some (e, .scan selection (position + n)) ∧
      n ≤ l.events.length - position ∧
      (l.events.take (position + n)).filter (wants selection) =
        (l.events.take position).filter (wants selection) ++ [e] := by
  rcases findFrom_cases (wants selection) position (l.events.drop position) with
    ⟨hnone, hnil⟩ | ⟨e, n, hsome, hn, htake⟩
  · left
    refine ⟨by simp [next?, hnone], ?_⟩
    rw [wanted_eq_append l selection position, hnil, List.append_nil]
  · right
    refine ⟨e, n, by simp [next?, hsome], ?_, ?_⟩
    · rwa [List.length_drop] at hn
    · rw [List.take_add, List.filter_append, htake]

/-! ## Streams -/

theorem getElem?_filter_reaches {es : List Event} {n : Nat} (range : RevisionRange)
    (hrev : ∀ i e, es[i]? = some e → e.revision = n + i) (i : Nat) :
    (es.filter fun e => range.reaches e.revision)[i]? =
      if range.reaches (n + i) then es[i]? else none := by
  induction es generalizing n i with
  | nil => simp
  | cons e rest ih =>
    have hfirst : e.revision = n := hrev 0 e rfl
    have hrest : ∀ i e, rest[i]? = some e → e.revision = n + 1 + i := by
      intro i e he
      have hlater := hrev (i + 1) e he
      omega
    by_cases hreaches : range.reaches n = true
    · rw [List.filter_cons_of_pos (by rw [hfirst]; exact hreaches)]
      cases i with
      | zero => simp [hreaches]
      | succ i =>
        have hplace : n + 1 + i = n + (i + 1) := by omega
        rw [List.getElem?_cons_succ, List.getElem?_cons_succ, ih hrest i, hplace]
    · -- the range has ended, so nothing of what follows is in it
      have hover : ∀ m, range.reaches (n + m) = false := by
        intro m
        rw [Bool.eq_false_iff]
        intro hm
        exact hreaches (reaches_of_le hm (Nat.le_add_right n m))
      have hnil : (e :: rest).filter (fun e => range.reaches e.revision) = [] := by
        rw [List.filter_eq_nil_iff]
        intro x hx
        obtain ⟨j, hj⟩ := List.mem_iff_getElem?.1 hx
        rw [hrev j x hj, hover]
        exact Bool.false_ne_true
      rw [hnil, hover]
      simp

/-- In a log that is `Numbered`, what a stream read wants is found by counting on from the first
revision of its range. -/
theorem Numbered.getElem?_wanted (h : l.Numbered) (a : Uuid) (range : RevisionRange) (i : Nat) :
    (l.wanted (.stream a range))[i]? =
      if range.reaches (range.first + i) then (l.streamOf a)[range.first + i - 1]? else none := by
  obtain ⟨n, hn⟩ := range.exists_first
  have hwanted : l.wanted (.stream a range) =
      ((l.streamOf a).drop n).filter fun e => range.reaches e.revision := by
    rw [← h.filter_contains_streamOf a range hn]
    simp only [streamOf, List.filter_filter, Bool.and_comm]
    rfl
  have hrev : ∀ i e, ((l.streamOf a).drop n)[i]? = some e → e.revision = range.first + i := by
    intro i e he
    rw [List.getElem?_drop] at he
    have hplace := h a _ e he
    omega
  have hplace : range.first + i - 1 = n + i := by omega
  rw [hwanted, getElem?_filter_reaches range hrev, List.getElem?_drop, hplace]

theorem Numbered.next?_stream_eq (h : l.Numbered) (a : Uuid) (range : RevisionRange) (i : Nat) :
    l.next? (.stream a range (range.first + i)) =
      ((l.wanted (.stream a range))[i]?).map fun e =>
        (e, .stream a range (range.first + (i + 1))) := by
  rw [h.getElem?_wanted a range i]
  simp only [next?]
  split
  · rfl
  · rfl

theorem Numbered.revision_wanted (h : l.Numbered) {a : Uuid} {range : RevisionRange} {i : Nat}
    (he : (l.wanted (.stream a range))[i]? = some e) : e.revision = range.first + i := by
  rw [h.getElem?_wanted] at he
  split at he
  · have hrev := h a _ e he
    obtain ⟨n, hn⟩ := range.exists_first
    omega
  · cases he

/-! ## Asking and storing -/

theorem wanted_mono (h : l.events <+: l'.events) (selection : Selection) :
    l.wanted selection <+: l'.wanted selection := h.filter _

namespace OpenRead

variable {r : OpenRead}

theorem Placed.given_prefix (h : r.Placed l) : r.given <+: l.wanted r.selection := by
  cases h with
  | @scan selection position hne hle =>
    rw [wanted_eq_append l selection position]
    exact List.prefix_append _ _
  | stream hgiven => exact hgiven
  | ended hgiven => exact hgiven

/-- Whatever is stored, a read stays `Placed`. -/
theorem Placed.grow (h : r.Placed l) (hl : l.events <+: l'.events) : r.Placed l' := by
  cases h with
  | @scan selection position hne hle =>
    have htake : l'.events.take position = l.events.take position := by
      obtain ⟨later, hlater⟩ := hl
      rw [← hlater, List.take_append_of_le_length hle]
    rw [← htake]
    exact .scan hne (Nat.le_trans hle hl.length_le)
  | stream hgiven => exact .stream (hgiven.trans (wanted_mono hl _))
  | ended hgiven => exact .ended (hgiven.trans (wanted_mono hl _))

theorem prefix_of_getElem? {given events : List Event} (h : given <+: events)
    (he : events[given.length]? = some e) : given ++ [e] <+: events := by
  obtain ⟨rest, rfl⟩ := h
  rw [List.getElem?_append_right (Nat.le_refl _), Nat.sub_self] at he
  obtain ⟨later, rfl⟩ := List.head?_eq_some_iff.1 (List.head?_eq_getElem?.trans he)
  exact ⟨later, by simp⟩

theorem getElem?_of_given {given events : List Event} (h : given <+: events) {i : Nat}
    (hi : i < given.length) : events[i]? = some given[i] := by
  obtain ⟨rest, rfl⟩ := h
  rw [List.getElem?_append_left hi, List.getElem?_eq_getElem hi]

/-- An open read gives the event of `wanted` that comes next. -/
theorem Placed.answer_next (h : r.Placed l) (hn : l.Numbered) {c : Cursor}
    (hc : r.reader = .memory c) :
    (Memory.answerLog l (.next r.reader)).1.1 =
      ((l.wanted r.selection)[r.given.length]?).map .ok := by
  cases h with
  | @scan selection position hne hle =>
    rcases next?_scan_cases l selection position with ⟨hnone, hall⟩ | ⟨e, n, hsome, -, htake⟩
    · have hend :
          (l.wanted selection)[((l.events.take position).filter (wants selection)).length]? =
          none := by
        rw [hall]
        exact List.getElem?_eq_none (Nat.le_refl _)
      simp [Memory.answerLog, hnone, hend]
    · have hnext :
          (l.wanted selection)[((l.events.take position).filter (wants selection)).length]? =
          some e := by
        rw [wanted_eq_append l selection (position + n), htake, List.append_assoc,
          List.getElem?_append_right (Nat.le_refl _), Nat.sub_self]
        rfl
      simp [Memory.answerLog, hsome, hnext]
  | @stream a range given hgiven =>
    cases hnext : (l.wanted (.stream a range))[given.length]? with
    | none => simp [Memory.answerLog, hn.next?_stream_eq, hnext]
    | some e => simp [Memory.answerLog, hn.next?_stream_eq, hnext]
  | ended => cases hc

/-- Asking moves a read to its next place, where it is `Placed` again. -/
theorem Placed.next (h : r.Placed l) (hn : l.Numbered) : (r.next l).Placed l := by
  have hgiven := h.given_prefix
  cases h with
  | @scan selection position hne hle =>
    rcases next?_scan_cases l selection position with ⟨hnone, -⟩ | ⟨e, n, hsome, hle', htake⟩
    · simp only [OpenRead.next, Memory.answerLog, hnone]
      exact .ended hgiven
    · simp only [OpenRead.next, Memory.answerLog, hsome]
      rw [← htake]
      exact .scan hne (by omega)
  | @stream a range given _ =>
    cases hnext : (l.wanted (.stream a range))[given.length]? with
    | none =>
      simp only [OpenRead.next, Memory.answerLog, hn.next?_stream_eq, hnext, Option.map_none]
      exact .ended hgiven
    | some e =>
      simp only [OpenRead.next, Memory.answerLog, hn.next?_stream_eq, hnext, Option.map_some]
      have hlength : given.length + 1 = (given ++ [e]).length := by simp
      rw [hlength]
      exact .stream (prefix_of_getElem? hgiven hnext)
  | ended => exact .ended hgiven

theorem placed_start (l : EventLog) (selection : Selection) :
    Placed l ⟨selection, .memory (openCursor selection), []⟩ := by
  cases selection with
  | stream a range => exact .stream List.nil_prefix
  | since | causedBy | correlatedBy =>
    exact .scan (fun _ _ h => by cases h) (Nat.zero_le l.events.length)

/-- What holds of an `OpenRead` at every moment. -/
structure Exact (l : EventLog) (r : OpenRead) : Prop where
  /-- It has given the first events that it wants, each once and in their order. -/
  given : r.given = (l.wanted r.selection).take r.given.length
  /-- A stream is given in the order of revisions, from the first of its range on. -/
  revisions : ∀ a range, r.selection = .stream a range →
    r.given.map (·.revision) = List.range' range.first r.given.length
  /-- As long as it is open it gives the wanted event that comes next when it is asked, and ends
  only where there is none. -/
  next : ∀ c, r.reader = .memory c → (Memory.answerLog l (.next r.reader)).1.1 =
    ((l.wanted r.selection)[r.given.length]?).map .ok
  /-- After the last revision of its range a read of a stream ends, whatever is stored. -/
  last : ∀ a range n, r.selection = .stream a range → range.last? = some n →
    (r.given.map (·.revision)).getLast? = some n →
    ∀ l', (Memory.answerLog l' (.next r.reader)).1.1 = none
  within : ∀ c, r.reader = .memory c → c.Within l

/-- A stream read that is `Placed` has given the revisions from the first of its range on, one after
the other. -/
theorem Placed.revisions (h : r.Placed l) (hn : l.Numbered) {a : Uuid} {range : RevisionRange}
    (hs : r.selection = .stream a range) :
    r.given.map (·.revision) = List.range' range.first r.given.length := by
  have hgiven := h.given_prefix
  rw [hs] at hgiven
  refine List.ext_getElem (by simp) fun i hi _ => ?_
  rw [List.length_map] at hi
  rw [List.getElem_map, List.getElem_range', Nat.one_mul]
  exact hn.revision_wanted (getElem?_of_given hgiven hi)

/-- A stream read that has given the last revision of its range gives nothing more, however the log
has grown. -/
theorem Placed.last (h : r.Placed l) (hn : l.Numbered) {a : Uuid} {range : RevisionRange} {n : Nat}
    (hs : r.selection = .stream a range) (hlast : range.last? = some n)
    (hend : (r.given.map (·.revision)).getLast? = some n) (l' : EventLog) :
    (Memory.answerLog l' (.next r.reader)).1.1 = none := by
  rw [h.revisions hn hs, List.getLast?_range'] at hend
  cases h with
  | scan hne => exact absurd hs (hne a range)
  | @stream b range' given =>
    obtain ⟨rfl, rfl⟩ := Selection.stream.inj hs
    dsimp only at hend
    have hover : range'.reaches (range'.first + given.length) = false := by
      simp only [RevisionRange.reaches, hlast, decide_eq_false_iff_not]
      split at hend
      · cases hend
      · have heq := Option.some.inj hend
        omega
    simp [Memory.answerLog, next?, hover]
  | ended => rfl

theorem Placed.within (h : r.Placed l) (hn : l.Numbered) {c : Cursor}
    (hc : r.reader = .memory c) : c.Within l := by
  cases h with
  | scan hne hle =>
    obtain rfl := Reader.memory.inj hc
    exact hle
  | @stream a range given hgiven =>
    obtain rfl := Reader.memory.inj hc
    obtain ⟨n, hfirst⟩ := range.exists_first
    refine ⟨by omega, ?_⟩
    by_cases hnil : given.length = 0
    · left
      omega
    · -- the last event given is stored at the place before
      right
      have hlt : given.length - 1 < given.length := by omega
      have hget := getElem?_of_given hgiven hlt
      rw [hn.getElem?_wanted] at hget
      split at hget
      · have hstored := (List.getElem?_eq_some_iff.1 hget).1
        unfold latest
        omega
      · cases hget
  | ended => cases hc

theorem Placed.exact (h : r.Placed l) (hn : l.Numbered) : r.Exact l where
  given := List.prefix_iff_eq_take.1 h.given_prefix
  revisions _ _ hs := h.revisions hn hs
  next _ hc := h.answer_next hn hc
  last _ _ _ hs hlast hend := h.last hn hs hlast hend
  within _ hc := h.within hn hc

end OpenRead

/-! ## Runs -/

/-- No `LogCall` takes an event out of the log or moves one. -/
theorem prefix_answerLog (l : EventLog) (c : LogCall) :
    l.events <+: (Memory.answerLog l c).2.events := by
  by_cases hc : ∃ batch, c = .append batch
  · obtain ⟨batch, rfl⟩ := hc
    simp only [Memory.answerLog]
    cases happend : l.append batch with
    | error err => exact List.prefix_refl _
    | ok l' =>
      obtain ⟨rfl, -⟩ := append_eq_ok happend
      exact List.prefix_append _ _
  · have hevents := answerLog_events l fun batch h => hc ⟨batch, h⟩
    exact ⟨[], by rw [hevents, List.append_nil]⟩

theorem Numbered.answerLog (h : l.Numbered) (c : LogCall) : (Memory.answerLog l c).2.Numbered := by
  by_cases hc : ∃ batch, c = .append batch
  · obtain ⟨batch, rfl⟩ := hc
    simp only [Memory.answerLog]
    cases happend : l.append batch with
    | error err => exact h
    | ok l' => exact h.append happend
  · exact h.congr (answerLog_events l fun batch hb => hc ⟨batch, hb⟩)

namespace ReadingRoom

/-- The log is `Numbered`, and every read `Placed`. -/
structure Orderly (s : ReadingRoom) : Prop where
  numbered : s.log.Numbered
  placed : ∀ r ∈ s.reads, r.Placed s.log

/-- An order keeps every read `Placed`: those that are open by `Placed.next` or as the log only
grew, a new one at its start. -/
theorem Orderly.step {s : ReadingRoom} (h : s.Orderly) (o : Order) : (s.step o).Orderly := by
  cases o with
  | call c =>
    refine ⟨h.numbered.answerLog c, ?_⟩
    intro r hr
    exact (h.placed r hr).grow (prefix_answerLog s.log c)
  | start selection =>
    refine ⟨h.numbered, ?_⟩
    intro r hr
    rcases List.mem_append.1 hr with hr | hr
    · exact h.placed r hr
    · rw [List.mem_singleton.1 hr]
      exact OpenRead.placed_start s.log selection
  | next index =>
    refine ⟨h.numbered, ?_⟩
    intro r hr
    obtain ⟨i, hi⟩ := List.mem_iff_getElem?.1 hr
    simp only [ReadingRoom.step, List.getElem?_modify] at hi
    obtain ⟨r', hr', rfl⟩ := Option.map_eq_some_iff.1 hi
    have hplaced := h.placed r' (List.mem_of_getElem? hr')
    split
    · exact hplaced.next h.numbered
    · exact hplaced

/-- In every room that orders lead to each read is `Placed`. -/
theorem orderly_after (orders : List Order) : (after orders).Orderly := by
  have hrun : ∀ s : ReadingRoom, s.Orderly → (orders.foldl ReadingRoom.step s).Orderly := by
    induction orders with
    | nil => exact fun _ h => h
    | cons o rest ih => exact fun s h => ih (s.step o) (h.step o)
  apply hrun
  refine ⟨numbered_empty, ?_⟩
  intro r hr
  cases hr

/-- **Open reads are exact.** Whatever is stored between the steps of any number of reads, each has
given the first of the events that it wants, gives the next one when it is asked, and ends only
where no other is stored or its range does; and its place is never outside of the log. -/
theorem open_reads_are_exact (orders : List Order) : ∀ r ∈ (after orders).reads,
    r.Exact (after orders).log := by
  intro r hr
  have horderly := orderly_after orders
  exact (horderly.placed r hr).exact horderly.numbered

/-- A read of revisions 2 and 3 that is opened before there are any, and a replay. -/
def twoReads : List Order :=
  [.start (.stream (.ofNat 7) { first? := some 2, last? := some 3 }), .start (.since 0),
    .call (.append [Sample.placed 1, Sample.placed 2]), .next 0, .next 1,
    .call (.append [Sample.placed 3, Sample.placed 4]), .next 0, .next 0, .next 1]

theorem open_reads_are_exact_of_two : ∃ r ∈ (after twoReads).reads,
    r.given.map (·.revision) = [2, 3] ∧ r.Exact (after twoReads).log := by
  have hfirst : 0 < (after twoReads).reads.length := by decide
  refine ⟨(after twoReads).reads[0], List.getElem_mem hfirst, rfl, ?_⟩
  exact open_reads_are_exact twoReads _ (List.getElem_mem hfirst)

end ReadingRoom

end EventRelay.EventLog
