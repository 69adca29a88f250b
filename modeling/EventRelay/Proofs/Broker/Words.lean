import EventRelay.Memory
import EventRelay.Proofs.Log.Streams
import EventRelay.Proofs.Progress

/-!
# Revisions in words

Revisions are kept in words of 64 bits, so there is none after the greatest of them, and none before
the first. What the memory works out is given here once more in words: it has an answer only if
every revision on the way to it fits. Where the revisions that go in leave room for one more, that
is the answer without bounds.
-/

namespace EventRelay.Word

/-- The number of words, `UInt64.size`. -/
def count : Nat := UInt64.size

/-- The word after a number. -/
def succ (n : Nat) : Option Nat := if n + 1 < count then some (n + 1) else none

/-- The word before a number. -/
def pred (n : Nat) : Option Nat := if 0 < n then some (n - 1) else none

variable {n r w : Nat} {ns : List Nat} {p : Progress} {l : EventLog}

theorem succ_eq (h : n + 1 < count) : succ n = some (n + 1) := if_pos h

/-- There is no word after the greatest. -/
example : succ (count - 2) = some (count - 1) ∧ succ (count - 1) = none := by decide

theorem pred_eq (h : 0 < n) : pred n = some (n - 1) := if_pos h

/-! ## Progress -/

/-- `Progress.absorb` in words: moves the watermark up as long as the word after it is
acknowledged. -/
def absorb (watermark : Nat) : List Nat → Option Progress
  | [] => (succ watermark).map fun _ => ⟨watermark, []⟩
  | n :: rest =>
    (succ watermark).bind fun next =>
      if n = next then absorb next rest else some ⟨watermark, n :: rest⟩

/-- `Progress.acknowledge` in words. -/
def acknowledge (p : Progress) (revision : Nat) : Option (Bool × Progress) :=
  if p.isSettled revision then some (false, p)
  else
    (absorb p.watermark (Progress.insertAscending revision p.acknowledged)).map fun p => (true, p)

/-- `Progress.advanceTo` in words; those that are kept begin with the word after the revision. -/
def advanceTo (p : Progress) (revision : Nat) : Option Progress :=
  if revision ≤ p.watermark then some p
  else
    (succ revision).bind fun next => absorb revision (p.acknowledged.filter fun n => next ≤ n)

/-- While there is a word after each number, `absorb` is `Progress.absorb`. The induction follows
the acknowledged revisions. -/
theorem absorb_eq (hw : w + 1 < count) (hns : ∀ n ∈ ns, n + 1 < count) :
    absorb w ns = some (Progress.absorb w ns) := by
  induction ns generalizing w with
  | nil => simp [absorb, Progress.absorb, succ_eq hw]
  | cons n rest ih =>
    obtain ⟨hn, hrest⟩ := List.forall_mem_cons.1 hns
    unfold absorb Progress.absorb
    rw [succ_eq hw, Option.bind_some]
    split
    · next heq => exact heq ▸ ih hn hrest
    · rfl

theorem acknowledge_eq (hp : ∀ n, p.isSettled n = true → n + 1 < count) (hr : r + 1 < count) :
    acknowledge p r = some (p.acknowledge r) := by
  unfold acknowledge Progress.acknowledge
  split
  · rfl
  · rw [absorb_eq (hp _ p.isSettled_watermark)]
    · rfl
    · intro n hn
      rcases Progress.mem_insertAscending.1 hn with rfl | hn
      · exact hr
      · exact hp n (Progress.isSettled_iff.2 (.inr hn))

theorem advanceTo_eq (hp : ∀ n, p.isSettled n = true → n + 1 < count) (hr : r + 1 < count) :
    advanceTo p r = some (p.advanceTo r) := by
  unfold advanceTo Progress.advanceTo
  split
  · rfl
  · rw [succ_eq hr, Option.bind_some, absorb_eq hr]
    · rfl
    · intro n hn
      exact hp n (Progress.isSettled_iff.2 (.inr (List.mem_filter.1 hn).1))

/-! ## The log -/

/-- `EventLog.next?` in words. Only a read of a stream works out revisions: the place of the one
that comes next, and, if there is an event, the one after it. -/
def next? (l : EventLog) : EventLog.Cursor → Option (Option (Event × EventLog.Cursor))
  | .stream aggregate range revision =>
    if range.reaches revision then
      (pred revision).bind fun place =>
        match (l.streamOf aggregate)[place]? with
        | none => some none
        | some e => (succ revision).map fun next => some (e, .stream aggregate range next)
    else some none
  | cursor => some (l.next? cursor)

/-- `Batch.checkFrom` in words. After each event that is right the next revision of its aggregate is
worked out, whether or not there is an event to compare with it. -/
def checkFrom (latest : Uuid → Nat) (before : List Event) :
    List Event → Option (Except LogError Unit)
  | [] => some (.ok ())
  | e :: rest =>
    match e.validate with
    | .error err => some (.error (.ofValueError err))
    | .ok () =>
      (succ (Batch.reached latest before e.aggregateId)).bind fun next =>
        if e.revision < next then some (.error (.taken e.aggregateId e.revision))
        else if next < e.revision then some (.error (.gap e.aggregateId next e.revision))
        else (succ next).bind fun _ => checkFrom latest (before ++ [e]) rest

/-- `EventLog.append` in words. -/
def append (l : EventLog) (batch : List Event) : Option (Except LogError EventLog) :=
  (if batch.isEmpty then some (.error .noEvents) else checkFrom l.latest [] batch).map fun
    | .ok () => .ok { l with events := l.events ++ batch }
    | .error e => .error e

theorem latest_le_length (l : EventLog) (a : Uuid) : l.latest a ≤ l.length :=
  List.length_filter_le _ _

/-- There is a word after each revision up to `EventLog.latest`, if the log has room. -/
theorem succ_lt_of_le_latest {a : Uuid} (hl : l.length + 1 < count) (hn : n ≤ l.latest a) :
    n + 1 < count := by
  have hlatest := latest_le_length l a
  omega

theorem next?_eq {cursor : EventLog.Cursor} (hl : l.length + 1 < count)
    (hcursor : ∀ a range n, cursor = .stream a range n → 0 < n) :
    next? l cursor = some (l.next? cursor) := by
  cases cursor with
  | scan => rfl
  | stream a range n =>
    have hn := hcursor a range n rfl
    simp only [next?, EventLog.next?, pred_eq hn, Option.bind_some]
    split
    · cases hget : (l.streamOf a)[n - 1]? with
      | none => rfl
      | some e =>
        -- there is an event at this place, so its revision is within the log
        have hlt : n - 1 < l.latest a := (List.getElem?_eq_some_iff.1 hget).1
        have hle : n ≤ l.latest a := by omega
        simp only [succ_eq (succ_lt_of_le_latest hl hle)]
        rfl
    · rfl

/-- What was checked before counts for the revisions of the rest, so the room is for all three
together. -/
theorem checkFrom_eq {before rest : List Event}
    (h : l.length + before.length + rest.length + 1 < count) :
    checkFrom l.latest before rest = some (Batch.checkFrom l.latest before rest) := by
  induction rest generalizing before with
  | nil => rfl
  | cons e rest ih =>
    unfold checkFrom Batch.checkFrom
    cases hvalid : e.validate with
    | error => rfl
    | ok =>
      have hlatest := latest_le_length l e.aggregateId
      have hbefore : (before.filter fun x => x.aggregateId == e.aggregateId).length ≤
          before.length := List.length_filter_le _ _
      rw [List.length_cons] at h
      have hreached : Batch.reached l.latest before e.aggregateId + 2 < count := by
        unfold Batch.reached
        omega
      have hrest : checkFrom l.latest (before ++ [e]) rest =
          some (Batch.checkFrom l.latest (before ++ [e]) rest) :=
        ih (by rw [List.length_append, List.length_singleton]; omega)
      simp only [succ_eq (Nat.lt_of_succ_lt hreached), Option.bind_some, succ_eq hreached, hrest]
      split
      · rfl
      · split <;> rfl

theorem append_eq {batch : List Event} (h : l.length + batch.length + 1 < count) :
    append l batch = some (l.append batch) := by
  unfold append EventLog.append EventLog.check Batch.check
  split
  · rfl
  · have hcheck : checkFrom l.latest [] batch = some (Batch.checkFrom l.latest [] batch) :=
      checkFrom_eq (by simpa using h)
    cases hout : Batch.checkFrom l.latest [] batch <;> simp [hcheck, hout]

/-! ## The memory -/

/-- `Memory.answer` in words; undefined where a word would be left. -/
def answer (m : Memory) (r : Call.Reading) : (c : Call) → Option (c.Answer × Memory)
  | .log (.append batch) => (append m.log batch).map fun
    | .ok log => (.ok (), { m with log })
    | .error e => (.error e, m)
  | .log (.next (.memory cursor)) => (next? m.log cursor).map fun
    | some (e, cursor) => ((some (.ok e), .memory cursor), m)
    | none => ((none, .ended), m)
  | .progress (.record flow a revision) =>
    (acknowledge (m.progress.get flow a) revision).map fun (_, p) =>
      (.ok (), { m with progress := m.progress.set flow a p })
  | .progress (.advance flow a revision) =>
    (advanceTo (m.progress.get flow a) revision).map fun p =>
      (.ok (), { m with progress := m.progress.set flow a p })
  | c => some (m.answer r c)

variable {m : Memory}

/-- A batch for which there is room is stored in words as it is without bound. -/
theorem answer_append (reading : Call.Reading) {batch : List Event}
    (h : m.log.length + batch.length + 1 < count) :
    answer m reading (.log (.append batch)) = some (m.answer reading (.log (.append batch))) := by
  simp only [answer, append_eq h, Option.map_some, Memory.answer, Memory.answerLog]
  cases m.log.append batch <;> rfl

theorem answer_next (reading : Call.Reading) {reader : Reader} (hl : m.log.length + 1 < count)
    (hreader : ∀ a range n, reader = .memory (.stream a range n) → 0 < n) :
    answer m reading (.log (.next reader)) = some (m.answer reading (.log (.next reader))) := by
  cases reader with
  | memory cursor =>
    have hcursor : ∀ a range n, cursor = .stream a range n → 0 < n :=
      fun a range n h => hreader a range n (congrArg Reader.memory h)
    simp only [answer, next?_eq hl hcursor, Option.map_some, Memory.answer, Memory.answerLog]
    cases m.log.next? cursor <;> rfl
  | table | ended => rfl

/-- `record` in words, if there is a word after each settled revision and after the new one. -/
theorem answer_record (reading : Call.Reading) {flow : String} {a : Uuid}
    (hp : ∀ n, m.progress.Settled flow a n → n + 1 < count) (hr : r + 1 < count) :
    answer m reading (.progress (.record flow a r)) =
      some (m.answer reading (.progress (.record flow a r))) := by
  simp only [answer, acknowledge_eq hp hr]
  rfl

theorem answer_advance (reading : Call.Reading) {flow : String} {a : Uuid}
    (hp : ∀ n, m.progress.Settled flow a n → n + 1 < count) (hr : r + 1 < count) :
    answer m reading (.progress (.advance flow a r)) =
      some (m.answer reading (.progress (.advance flow a r))) := by
  simp only [answer, advanceTo_eq hp hr]
  rfl

end EventRelay.Word
