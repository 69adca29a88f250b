import EventRelay.Proofs.Delivery.HoldBack
import EventRelay.Proofs.Log.Views

/-!
# Accepted and refused batches

A batch is accepted exactly if it continues the stream of every aggregate in it, revision by
revision. Otherwise the first event that is invalid or out of sequence decides what the refusal
says, and the refusal is all there is: nothing is stored, and who wanted to publish the batch makes
no other call.
-/

namespace EventRelay

/-- The calls of the work, done `Work.alone`. -/
def Work.calls {α : Type} (clock : Clock) : Work α → Memory → List Call
  | .done _, _ => []
  | .call c next, m =>
    c :: calls clock.tail (next (m.answer (clock 0) c).1) (m.answer (clock 0) c).2

namespace EventLog

variable {l l' : EventLog} {e x : Event} {before rest batch : List Event} {err : LogError}

/-- How many events of a list are of an aggregate. -/
def countOf (a : Uuid) (events : List Event) : Nat := events.countP fun e => e.aggregateId == a

/-- The revision that comes next in the stream of the aggregate of an event, behind the log and the
events that stand before it in its batch. -/
def nextRevision (l : EventLog) (before : List Event) (e : Event) : Nat :=
  countOf e.aggregateId l.events + countOf e.aggregateId before + 1

/-- The event is valid and has the revision `nextRevision`. -/
def Continues (l : EventLog) (before : List Event) (e : Event) : Prop :=
  e.validate = .ok () ∧ e.revision = l.nextRevision before e

/-- What is wrong with an event that does not `Continues` the log and the events before it. -/
inductive Offends (l : EventLog) (before : List Event) (e : Event) : LogError → Prop
  | invalid {err : ValueError} : e.validate = .error err → Offends l before e (.ofValueError err)
  | taken : e.validate = .ok () → e.revision < l.nextRevision before e →
      Offends l before e (.taken e.aggregateId e.revision)
  | gap : e.validate = .ok () → l.nextRevision before e < e.revision →
      Offends l before e (.gap e.aggregateId (l.nextRevision before e) e.revision)

/-- Every event of the batch `Continues` the log and the events before it. -/
def InSequence (l : EventLog) (batch : List Event) : Prop :=
  ∀ before e rest, batch = before ++ e :: rest → l.Continues before e

/-- Why a batch is refused: it has no events, or what is wrong with the first event that
`Offends`. -/
inductive Refused (l : EventLog) : List Event → LogError → Prop
  | empty : Refused l [] .noEvents
  | first {before rest : List Event} {e : Event} {err : LogError} : l.InSequence before →
      l.Offends before e err → Refused l (before ++ e :: rest) err

/-- The batch has events, all are valid, and the revisions of each aggregate in it are those that
follow the stored ones, without a gap. -/
structure Contiguous (l : EventLog) (batch : List Event) : Prop where
  nonempty : batch ≠ []
  valid : ∀ e ∈ batch, e.validate = .ok ()
  revisions : ∀ a, (batch.filter fun e => e.aggregateId == a).map (·.revision) =
    List.range' (countOf a l.events + 1) (countOf a batch)

/-! ## The check, event by event -/

/-- `Batch.reached` counts what `nextRevision` counts, short of the event itself. -/
theorem reached_succ (l : EventLog) (before : List Event) (e : Event) :
    Batch.reached l.latest before e.aggregateId + 1 = l.nextRevision before e := by
  simp [Batch.reached, latest, streamOf, nextRevision, countOf, List.countP_eq_length_filter]

/-- Validity and the revision are all that counts: an event `Continues` or `Offends`. -/
theorem continues_or_offends (l : EventLog) (before : List Event) (e : Event) :
    l.Continues before e ∨ ∃ err, l.Offends before e err := by
  cases hvalid : e.validate with
  | error err => exact .inr ⟨_, .invalid hvalid⟩
  | ok =>
    rcases Nat.lt_trichotomy e.revision (l.nextRevision before e) with hlt | heq | hgt
    · exact .inr ⟨_, .taken hvalid hlt⟩
    · exact .inl ⟨hvalid, heq⟩
    · exact .inr ⟨_, .gap hvalid hgt⟩

theorem checkFrom_of_continues (h : l.Continues before e) :
    Batch.checkFrom l.latest before (e :: rest) =
      Batch.checkFrom l.latest (before ++ [e]) rest := by
  obtain ⟨hvalid, hrev⟩ := h
  simp [Batch.checkFrom, hvalid, reached_succ, hrev]

theorem checkFrom_of_offends (h : l.Offends before e err) :
    Batch.checkFrom l.latest before (e :: rest) = .error err := by
  cases h with
  | invalid hvalid => simp [Batch.checkFrom, hvalid]
  | taken hvalid hlt => simp [Batch.checkFrom, hvalid, reached_succ, hlt]
  | gap hvalid hgt =>
    simp [Batch.checkFrom, hvalid, reached_succ, hgt, Nat.not_lt.2 (Nat.le_of_lt hgt)]

theorem inSequence_nil (l : EventLog) : l.InSequence [] := by
  intro before e rest h
  simp at h

theorem InSequence.of_append (h : l.InSequence (before ++ rest)) : l.InSequence before := by
  intro front x back heq
  exact h front x (back ++ rest) (by simp [heq])

/-- A batch is in sequence if all but the last is, and the last `Continues` it. -/
theorem inSequence_snoc_iff : l.InSequence (before ++ [e]) ↔
    l.InSequence before ∧ l.Continues before e := by
  constructor
  · intro h
    exact ⟨h.of_append, h before e [] rfl⟩
  · rintro ⟨h, he⟩ front x back heq
    rcases List.eq_nil_or_concat back with rfl | ⟨back, last, rfl⟩
    · obtain ⟨rfl, hx⟩ := List.append_inj' heq rfl
      obtain rfl := (List.cons.inj hx).1
      exact he
    · rw [List.concat_eq_append, ← List.cons_append, ← List.append_assoc] at heq
      exact h front x back (List.append_inj' heq rfl).1

/-- `Batch.checkFrom` passes over events that are in sequence. -/
theorem InSequence.checkFrom_append {good : List Event} (h : l.InSequence (before ++ good)) :
    Batch.checkFrom l.latest before (good ++ rest) =
      Batch.checkFrom l.latest (before ++ good) rest := by
  induction good generalizing before with
  | nil => simp
  | cons e good ih =>
    rw [List.append_cons] at h ⊢
    rw [List.cons_append, checkFrom_of_continues (inSequence_snoc_iff.1 h.of_append).2, ih h]

theorem InSequence.checkFrom_nil {good : List Event} (h : l.InSequence good) :
    Batch.checkFrom l.latest [] (good ++ rest) = Batch.checkFrom l.latest good rest :=
  checkFrom_append (show l.InSequence ([] ++ good) from h)

theorem Refused.check_eq (h : l.Refused batch err) : l.check batch = .error err := by
  cases h with
  | empty => rfl
  | @first good bad e _ hseq hoffends =>
    rw [check, Batch.check, if_neg (by simp), hseq.checkFrom_nil, checkFrom_of_offends hoffends]

theorem InSequence.check_eq (h : l.InSequence batch) (hne : batch ≠ []) :
    l.check batch = .ok () := by
  have hpass : Batch.checkFrom l.latest [] (batch ++ []) = _ := h.checkFrom_nil
  rw [List.append_nil, Batch.checkFrom] at hpass
  rw [check, Batch.check, if_neg (by simpa using hne), hpass]

/-- Unless the batch is in sequence there is a first event that `Offends`. By induction from the end
of the batch. -/
theorem inSequence_or_first (l : EventLog) (batch : List Event) : l.InSequence batch ∨
    ∃ before e rest err, batch = before ++ e :: rest ∧ l.InSequence before ∧
      l.Offends before e err := by
  induction batch using List.reverseRecOn with
  | nil => exact .inl (inSequence_nil l)
  | append_singleton batch e ih =>
    rcases ih with hseq | ⟨before, x, rest, err, rfl, hbefore, hx⟩
    · rcases continues_or_offends l batch e with he | ⟨err, he⟩
      · exact .inl (inSequence_snoc_iff.2 ⟨hseq, he⟩)
      · exact .inr ⟨batch, e, [], err, rfl, hseq, he⟩
    · exact .inr ⟨before, x, rest ++ [e], err, by simp, hbefore, hx⟩

theorem inSequence_or_refused (l : EventLog) (batch : List Event) :
    (batch ≠ [] ∧ l.InSequence batch) ∨ ∃ err, l.Refused batch err := by
  rcases batch with _ | ⟨e, rest⟩
  · exact .inr ⟨_, .empty⟩
  · rcases inSequence_or_first l (e :: rest) with hseq | ⟨_, _, _, err, heq, hbefore, hx⟩
    · exact .inl ⟨List.cons_ne_nil _ _, hseq⟩
    · rw [heq]
      exact .inr ⟨err, .first hbefore hx⟩

/-! ## Sequences, aggregate by aggregate -/

/-- With one more event the revisions of its aggregate are contiguous if they were and it has
`nextRevision`; those of the others are as before. -/
theorem revisions_snoc_iff : (∀ a, ((batch ++ [e]).filter fun x => x.aggregateId == a).map
      (·.revision) = List.range' (countOf a l.events + 1) (countOf a (batch ++ [e]))) ↔
    (∀ a, (batch.filter fun x => x.aggregateId == a).map (·.revision) =
      List.range' (countOf a l.events + 1) (countOf a batch)) ∧
      e.revision = l.nextRevision batch e := by
  -- only the stream of the event's own aggregate grows
  have hother : ∀ a, e.aggregateId ≠ a →
      ((batch ++ [e]).filter fun x => x.aggregateId == a) =
        batch.filter (fun x => x.aggregateId == a) ∧
      countOf a (batch ++ [e]) = countOf a batch := by
    intro a ha
    simp [countOf, ha]
  have hown : ((batch ++ [e]).filter fun x => x.aggregateId == e.aggregateId).map (·.revision) =
      (batch.filter fun x => x.aggregateId == e.aggregateId).map (·.revision) ++ [e.revision] := by
    simp
  have hrange : List.range' (countOf e.aggregateId l.events + 1)
      (countOf e.aggregateId (batch ++ [e])) =
        List.range' (countOf e.aggregateId l.events + 1) (countOf e.aggregateId batch) ++
          [l.nextRevision batch e] := by
    have hcount : countOf e.aggregateId (batch ++ [e]) = countOf e.aggregateId batch + 1 := by
      simp [countOf]
    rw [hcount, List.range'_1_concat, nextRevision, Nat.add_right_comm]
  constructor
  · intro h
    have he := h e.aggregateId
    rw [hown, hrange] at he
    obtain ⟨hfront, hlast⟩ := List.append_inj' he rfl
    refine ⟨fun a => ?_, (List.cons.inj hlast).1⟩
    by_cases ha : e.aggregateId = a
    · subst ha
      exact hfront
    · obtain ⟨hfilter, hcount⟩ := hother a ha
      rw [← hfilter, ← hcount]
      exact h a
  · rintro ⟨h, hrev⟩ a
    by_cases ha : e.aggregateId = a
    · subst ha
      rw [hown, hrange, h, hrev]
    · obtain ⟨hfilter, hcount⟩ := hother a ha
      rw [hfilter, hcount]
      exact h a

/-- The events of a batch are `InSequence` exactly if they are valid and the revisions of each
aggregate are contiguous. -/
theorem inSequence_iff : l.InSequence batch ↔ (∀ e ∈ batch, e.validate = .ok ()) ∧
    ∀ a, (batch.filter fun e => e.aggregateId == a).map (·.revision) =
      List.range' (countOf a l.events + 1) (countOf a batch) := by
  induction batch using List.reverseRecOn with
  | nil => simp [inSequence_nil, countOf]
  | append_singleton batch e ih =>
    rw [inSequence_snoc_iff, ih, revisions_snoc_iff, Continues]
    constructor
    · rintro ⟨⟨hvalid, hrevs⟩, he, hrev⟩
      refine ⟨fun x hx => ?_, hrevs, hrev⟩
      rcases List.mem_append.1 hx with hx | hx
      · exact hvalid x hx
      · rw [List.mem_singleton.1 hx]
        exact he
    · rintro ⟨hvalid, hrevs, hrev⟩
      refine ⟨⟨fun x hx => hvalid x (List.mem_append_left _ hx), hrevs⟩, ?_, hrev⟩
      exact hvalid e (List.mem_append_right _ (List.mem_singleton_self e))

theorem contiguous_iff : l.Contiguous batch ↔ batch ≠ [] ∧ l.InSequence batch := by
  rw [inSequence_iff]
  constructor
  · intro h
    exact ⟨h.nonempty, h.valid, h.revisions⟩
  · rintro ⟨hne, hvalid, hrevs⟩
    exact ⟨hne, hvalid, hrevs⟩

/-- `EventLog.check` accepts the batches that are `Contiguous`. -/
theorem check_eq_ok_iff : l.check batch = .ok () ↔ l.Contiguous batch := by
  rw [contiguous_iff]
  constructor
  · intro hok
    apply (inSequence_or_refused l batch).resolve_right
    rintro ⟨err, hrefused⟩
    rw [hrefused.check_eq] at hok
    cases hok
  · rintro ⟨hne, hseq⟩
    exact hseq.check_eq hne

/-- `EventLog.check` refuses a batch with the error that `Refused` has. -/
theorem check_eq_error_iff : l.check batch = .error err ↔ l.Refused batch err := by
  constructor
  · intro herr
    rcases inSequence_or_refused l batch with ⟨hne, hseq⟩ | ⟨err', hrefused⟩
    · rw [hseq.check_eq hne] at herr
      cases herr
    · rw [hrefused.check_eq] at herr
      rwa [← Except.error.inj herr]
  · exact Refused.check_eq

/-! ## What a batch comes to -/

section

variable {m : Memory} {registry : Registry}

theorem Contiguous.append_eq (h : l.Contiguous batch) :
    l.append batch = .ok { l with events := l.events ++ batch } := by
  rw [append, check_eq_ok_iff.2 h]

theorem Refused.append_eq (h : l.Refused batch err) : l.append batch = .error err := by
  rw [append, h.check_eq]

theorem comes_append_ok {r : Call.Reading} (h : m.log.append batch = .ok l) :
    Comes r (Work.log (.append batch)) m (.ok ()) { m with log := l } := by
  have hcomes := Comes.log (r := r) (m := m) (.append batch)
  simp only [Memory.answerLog, h] at hcomes
  exact hcomes

theorem comes_append_error {r : Call.Reading} (h : m.log.append batch = .error err) :
    Comes r (Work.log (.append batch)) m (.error err) m := by
  have hcomes := Comes.log (r := r) (m := m) (.append batch)
  simp only [Memory.answerLog, h] at hcomes
  exact hcomes

/-- After a refusal a publisher makes no further call: `Work.calls` is the append alone. -/
theorem calls_publish_error (clock : Clock) (h : m.log.append batch = .error err) :
    Work.calls clock (Publish.publish registry batch) m = [.log (.append batch)] := by
  have hanswer : (m.answer (clock 0) (.log (.append batch))).1 = .error err := by
    simp only [Memory.answer, Memory.answerLog, h]
  simp only [Publish.publish, Work.log, bind, Procedure.andThen, Work.calls, hanswer]
  rfl

end

/-- What `EventLog.append` comes to with a batch, and what publishing it does. -/
structure AllOrNothing (registry : Registry) (m : Memory) (batch : List Event) : Prop where
  /-- The batch is accepted exactly if it is contiguous. -/
  accepted : ∀ clock, (Work.alone clock (Work.log (.append batch)) m).1 = .ok () ↔
    m.log.Contiguous batch
  /-- All of an accepted batch is stored. -/
  stored : m.log.Contiguous batch → ∀ clock, (Work.alone clock (Work.log (.append batch)) m).2 =
    { m with log := { m.log with events := m.log.events ++ batch } }
  /-- Any other is refused for its first fault. -/
  refused : ∀ clock err, (Work.alone clock (Work.log (.append batch)) m).1 = .error err ↔
    m.log.Refused batch err
  /-- A refusal leaves the memory as it was, and so all that can be read of it. -/
  unchanged : ∀ err, m.log.Refused batch err → ∀ clock,
    (Work.alone clock (Work.log (.append batch)) m).2 = m
  /-- Publishing accepts the same batches. -/
  published : ∀ clock, (Work.alone clock (Publish.publish registry batch) m).1 = .ok () ↔
    m.log.Contiguous batch
  /-- Whoever publishes a batch that is refused learns the same, leaves everything as it was, and
  makes no call after the refused one, so wakes nobody. -/
  unpublished : ∀ err, m.log.Refused batch err → ∀ clock,
    Work.alone clock (Publish.publish registry batch) m = (.error err, m) ∧
      Work.calls clock (Publish.publish registry batch) m = [.log (.append batch)]

/-- **A batch is stored whole or not at all.** It is accepted exactly if it continues the stream of
every aggregate in it without a gap. Otherwise the refusal is for the first event that is invalid or
out of sequence, and it leaves no trace in the log or anywhere else. -/
theorem append_all_or_nothing (registry : Registry) (m : Memory) (batch : List Event) :
    AllOrNothing registry m batch where
  accepted clock := by
    rw [← check_eq_ok_iff]
    cases hcheck : m.log.check batch with
    | ok => simp [comes_append_ok (check_eq_ok_iff.1 hcheck).append_eq clock rfl]
    | error err => simp [comes_append_error (check_eq_error_iff.1 hcheck).append_eq clock rfl]
  stored h clock := by
    rw [comes_append_ok h.append_eq clock rfl]
  refused clock err := by
    rw [← check_eq_error_iff]
    cases hcheck : m.log.check batch with
    | ok => simp [comes_append_ok (check_eq_ok_iff.1 hcheck).append_eq clock rfl]
    | error err' => simp [comes_append_error (check_eq_error_iff.1 hcheck).append_eq clock rfl]
  unchanged err h clock := by
    rw [comes_append_error h.append_eq clock rfl]
  published clock := by
    rw [← check_eq_ok_iff]
    cases hcheck : m.log.check batch with
    | ok => simp [Publish.comes_publish_ok (check_eq_ok_iff.1 hcheck).append_eq clock rfl]
    | error err =>
      simp [Publish.comes_publish_error (check_eq_error_iff.1 hcheck).append_eq clock rfl]
  unpublished err h clock :=
    ⟨Publish.comes_publish_error h.append_eq clock rfl, calls_publish_error clock h.append_eq⟩

/-- The second event leaves out a revision, so the first is not stored either. -/
example : (Work.alone (Sample.clockAt 0)
    (Publish.publish Sample.registry [Sample.placed 1, Sample.placed 3]) {}).1 =
      .error (.gap (.ofNat 7) 2 3) := by
  rfl

end EventLog

end EventRelay
