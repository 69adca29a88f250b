import EventRelay.Proofs.Broker.Sound
import EventRelay.Proofs.Log.Storage

/-!
# Which snapshot is answered

Of the snapshots of an aggregate that were taken, the one of the greatest revision is answered, and
of several of that revision the one stored last. Whatever else is asked of the log makes no
difference to that, and snapshots make no difference to what is read of the events: a log is two
stores that do not know of each other, which is shown on two courses of calls that have one kind of
calls in common. An `EventLog` keeps all that was taken and looks for the greatest; the `Storage`
that represents it keeps one of each revision and looks at the last.
-/

namespace EventRelay

/-- A snapshot that is taken: its aggregate has a name of more than blanks, and its revision is not
0. -/
def Snapshot.Acceptable (s : Snapshot) : Prop :=
  Text.isBlank s.aggregate.name = false ∧ s.revision ≠ 0

instance : DecidablePred Snapshot.Acceptable := fun s =>
  inferInstanceAs (Decidable (Text.isBlank s.aggregate.name = false ∧ s.revision ≠ 0))

/-- The call stores or reads a snapshot. -/
def LogCall.isOnSnapshots : LogCall → Bool
  | .storeSnapshot _ | .snapshot _ => true
  | _ => false

/-- What is held after calls that were made one after the other on an empty `Storage`. -/
def Storage.afterCalls (calls : List LogCall) : Storage :=
  calls.foldl (fun s c => (s.answer c).2) {}

namespace EventLog

variable {l l' : EventLog} {s : Snapshot} {x : Aggregate} {c : LogCall} {calls : List LogCall}
  {taken : List Snapshot}

/-- The `EventLog` after calls that were made one after the other on an empty one. -/
def afterCalls (calls : List LogCall) : EventLog :=
  calls.foldl (fun l c => (Memory.answerLog l c).2) {}

/-- The snapshot that a call stores, if it is `Acceptable`. -/
def takenBy : LogCall → Option Snapshot
  | .storeSnapshot s => if s.Acceptable then some s else none
  | _ => none

/-- The snapshots of an aggregate that were `takenBy` calls, in the order of the calls. The id alone
tells aggregates apart. -/
def takenOf (x : Aggregate) (calls : List LogCall) : List Snapshot :=
  (calls.filterMap takenBy).filter fun s => s.aggregate.id == x.id

/-- No other snapshot has a greater revision, and none that was taken later the same. -/
def NewestOf (taken : List Snapshot) (s : Snapshot) : Prop :=
  ∃ before after, taken = before ++ s :: after ∧ (∀ t ∈ before, t.revision ≤ s.revision) ∧
    ∀ t ∈ after, t.revision < s.revision

/-- What the calls that are `isOnSnapshots` are answered after these calls, and what has an
influence on it. -/
structure KeepsSnapshots (calls : List LogCall) : Prop where
  accepted : ∀ x, ((Storage.afterCalls calls).answer (.storeSnapshot x)).1 = .ok () ↔ x.Acceptable
  refused : ∀ x, ¬ x.Acceptable → ∃ reason,
    (Storage.afterCalls calls).answer (.storeSnapshot x) =
      (.error (.validation reason), Storage.afterCalls calls)
  found : ∀ a x, ((Storage.afterCalls calls).answer (.snapshot a)).1 = .ok (some x) ↔
    NewestOf (takenOf a calls) x
  missing : ∀ a, ((Storage.afterCalls calls).answer (.snapshot a)).1 = .ok none ↔
    takenOf a calls = []
  /-- Calls on snapshots are answered alike whatever else is asked in between. -/
  apartFromEvents : ∀ calls',
    calls.filter LogCall.isOnSnapshots = calls'.filter LogCall.isOnSnapshots →
      ∀ c : LogCall, c.isOnSnapshots = true →
        ((Storage.afterCalls calls).answer c).1 = ((Storage.afterCalls calls').answer c).1
  /-- All other calls are answered alike whatever is done with snapshots in between. -/
  apartFromSnapshots : ∀ calls',
    calls.filter (!·.isOnSnapshots) = calls'.filter (!·.isOnSnapshots) →
      ∀ c : LogCall, c.isOnSnapshots = false →
        ((Storage.afterCalls calls).answer c).1 = ((Storage.afterCalls calls').answer c).1

/-! ## One call -/

theorem validate_of_acceptable (h : s.Acceptable) : s.validate = .ok () := by
  obtain ⟨hname, hrev⟩ := h
  simp [Snapshot.validate, Aggregate.validate, hname, hrev, bind, Except.bind, pure, Except.pure]

theorem validate_of_not_acceptable (h : ¬ s.Acceptable) : ∃ e, s.validate = .error e := by
  by_cases hname : Text.isBlank s.aggregate.name = true
  · exact ⟨_, by simp only [Snapshot.validate, Aggregate.validate, hname]; rfl⟩
  · rw [Bool.not_eq_true] at hname
    have hrev : s.revision = 0 := by
      by_contra hrev
      exact h ⟨hname, hrev⟩
    exact ⟨_, by simp only [Snapshot.validate, Aggregate.validate, hname, hrev]; rfl⟩

/-- A call adds the snapshot that was `takenBy` it, if any, in front of the others. -/
theorem answerLog_snapshots (l : EventLog) (c : LogCall) :
    (Memory.answerLog l c).2.snapshots = (takenBy c).toList ++ l.snapshots := by
  cases c with
  | append batch =>
    simp only [Memory.answerLog, append]
    cases l.check batch <;> rfl
  | storeSnapshot s =>
    by_cases hs : s.Acceptable
    · simp [Memory.answerLog, storeSnapshot, validate_of_acceptable hs, takenBy, hs]
    · obtain ⟨e, he⟩ := validate_of_not_acceptable hs
      simp [Memory.answerLog, storeSnapshot, he, takenBy, hs]
  | next reader =>
    rw [answerLog_next]
    rfl
  | read | last | hasCausedBy | snapshot | aggregates | nextAggregate => rfl

theorem answerLog_events_of_isOnSnapshots (l : EventLog) (hc : c.isOnSnapshots = true) :
    (Memory.answerLog l c).2.events = l.events := by
  apply answerLog_events
  rintro batch rfl
  cases hc

/-- Any other call than those of `LogCall.isOnSnapshots` is told by the events alone. -/
theorem answerLog_congr (h : l.events = l'.events) (hc : c.isOnSnapshots = false) :
    (Memory.answerLog l c).1 = (Memory.answerLog l' c).1 ∧
      (Memory.answerLog l c).2.events = (Memory.answerLog l' c).2.events := by
  obtain ⟨events, snapshots⟩ := l
  obtain ⟨_, snapshots'⟩ := l'
  obtain rfl := h
  cases c with
  | storeSnapshot | snapshot => cases hc
  | append batch =>
    have hcheck : (⟨events, snapshots⟩ : EventLog).check batch =
        (⟨events, snapshots'⟩ : EventLog).check batch := rfl
    simp only [Memory.answerLog, append, hcheck]
    cases (⟨events, snapshots'⟩ : EventLog).check batch <;> exact ⟨rfl, rfl⟩
  | next reader =>
    cases reader with
    | memory cursor =>
      have hnext : (⟨events, snapshots⟩ : EventLog).next? cursor =
          (⟨events, snapshots'⟩ : EventLog).next? cursor := by cases cursor <;> rfl
      simp only [Memory.answerLog, hnext]
      cases (⟨events, snapshots'⟩ : EventLog).next? cursor <;> exact ⟨rfl, rfl⟩
    | table | ended => exact ⟨rfl, rfl⟩
  | read | last | hasCausedBy | aggregates | nextAggregate => exact ⟨rfl, rfl⟩

/-! ## Courses of calls -/

theorem afterCalls_snoc (calls : List LogCall) (c : LogCall) :
    afterCalls (calls ++ [c]) = (Memory.answerLog (afterCalls calls) c).2 := by
  rw [afterCalls, List.foldl_append]
  rfl

/-- The log keeps what was `takenBy` the calls, the latest first. -/
theorem snapshots_afterCalls (calls : List LogCall) :
    (afterCalls calls).snapshots = (calls.filterMap takenBy).reverse := by
  induction calls using List.reverseRecOn with
  | nil => rfl
  | append_singleton calls c ih =>
    rw [afterCalls_snoc, answerLog_snapshots, ih, List.filterMap_append, List.reverse_append]
    cases hc : takenBy c <;> simp [hc]

theorem filterMap_takenBy_filter (calls : List LogCall) :
    (calls.filter LogCall.isOnSnapshots).filterMap takenBy = calls.filterMap takenBy := by
  rw [List.filterMap_filter]
  congr 1
  funext c
  cases c <;> rfl

/-- The events come to the same without the calls that are `isOnSnapshots`. -/
theorem events_afterCalls (calls : List LogCall) :
    (afterCalls calls).events = (afterCalls (calls.filter (!·.isOnSnapshots))).events := by
  induction calls using List.reverseRecOn with
  | nil => rfl
  | append_singleton calls c ih =>
    rw [afterCalls_snoc, List.filter_append]
    cases hc : c.isOnSnapshots with
    | true => simp [hc, answerLog_events_of_isOnSnapshots, ih]
    | false =>
      rw [List.filter_cons_of_pos (by simp [hc]), List.filter_nil, afterCalls_snoc]
      exact (answerLog_congr ih hc).2

/-! ## The newest snapshot -/

/-- In a list with the latest in front, `greatest` is the newest of those in the order of the
calls. -/
theorem greatest_reverse_eq_some_iff : greatest taken.reverse = some s ↔ NewestOf taken s := by
  rw [greatest_eq_some_iff, NewestOf]
  constructor
  · rintro ⟨after, before, heq, hafter, hbefore⟩
    refine ⟨before.reverse, after.reverse, ?_, by simpa using hbefore, by simpa using hafter⟩
    rw [List.reverse_eq_iff.1 heq]
    simp
  · rintro ⟨before, after, rfl, hbefore, hafter⟩
    exact ⟨after.reverse, before.reverse, by simp, by simpa using hafter, by simpa using hbefore⟩

theorem snapshot?_afterCalls (calls : List LogCall) (x : Aggregate) :
    (afterCalls calls).snapshot? x = greatest (takenOf x calls).reverse := by
  rw [snapshot?, snapshots_afterCalls, List.filter_reverse, takenOf]

/-- The calls of `LogCall.isOnSnapshots` are told by the snapshots alone. -/
theorem answerLog_congr_snapshots (h : l.snapshots = l'.snapshots) (hc : c.isOnSnapshots = true) :
    (Memory.answerLog l c).1 = (Memory.answerLog l' c).1 := by
  cases c with
  | storeSnapshot s =>
    simp only [Memory.answerLog, storeSnapshot]
    cases s.validate <;> rfl
  | snapshot x => simp only [Memory.answerLog, snapshot?, h]
  | append | read | next | last | hasCausedBy | aggregates | nextAggregate => cases hc

/-- The `Storage` after calls represents the log after the same calls. -/
theorem represents_afterCalls (calls : List LogCall) :
    (Storage.afterCalls calls).Represents (afterCalls calls) := by
  induction calls using List.reverseRecOn with
  | nil => exact .empty
  | append_singleton calls c ih =>
    rw [afterCalls_snoc, Storage.afterCalls, List.foldl_append]
    exact (ih.answer c).2

theorem answer_afterCalls (calls : List LogCall) (c : LogCall) :
    ((Storage.afterCalls calls).answer c).1 = (Memory.answerLog (afterCalls calls) c).1 :=
  ((represents_afterCalls calls).answer c).1

/-- **The newest snapshot is answered, and of equals the last.** After any calls a snapshot is taken
exactly if its aggregate has a name and its revision is not 0, and a refusal changes nothing. Of an
aggregate the taken snapshot of the greatest revision is answered, the one stored last, or none if
none was taken. Neither do events have an influence on snapshots nor snapshots on what is read of
events. -/
theorem newest_snapshot_answered (calls : List LogCall) : KeepsSnapshots calls where
  accepted x := by
    by_cases hx : x.Acceptable
    · simp [Storage.answer, Storage.storeSnapshot, validate_of_acceptable hx, hx]
    · obtain ⟨e, he⟩ := validate_of_not_acceptable hx
      simp [Storage.answer, Storage.storeSnapshot, he, hx]
  refused x hx := by
    obtain ⟨e, he⟩ := validate_of_not_acceptable hx
    exact ⟨e.message, by simp only [Storage.answer, Storage.storeSnapshot, he]; rfl⟩
  found a x := by
    rw [answer_afterCalls, ← greatest_reverse_eq_some_iff, ← snapshot?_afterCalls]
    exact ⟨Except.ok.inj, congrArg Except.ok⟩
  missing a := by
    rw [answer_afterCalls, ← List.reverse_eq_nil_iff, ← greatest_eq_none_iff,
      ← snapshot?_afterCalls]
    exact ⟨Except.ok.inj, congrArg Except.ok⟩
  apartFromEvents calls' h c hc := by
    rw [answer_afterCalls, answer_afterCalls]
    refine answerLog_congr_snapshots ?_ hc
    rw [snapshots_afterCalls, snapshots_afterCalls, ← filterMap_takenBy_filter calls, h,
      filterMap_takenBy_filter]
  apartFromSnapshots calls' h c hc := by
    rw [answer_afterCalls, answer_afterCalls]
    refine (answerLog_congr ?_ hc).1
    rw [events_afterCalls calls, h, ← events_afterCalls]

end EventLog

end EventRelay
