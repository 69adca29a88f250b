import EventRelay.Log.Drain
import EventRelay.Proofs.Broker.Alone
import EventRelay.Proofs.Log.Storage

/-!
# The stores in memory as a memory

`MemoryStores` answer every call as the `Memory` does that they represent, so whatever work is done
on them comes to the same, and they represent the memory that it leaves. Work that only reads leaves
them as they were, with all that is held beside the events.
-/

namespace EventRelay

variable {α β : Type} {s : MemoryStores} {m : Memory}

/-- What the stores hold is what the `Memory` tells. -/
structure MemoryStores.Represents (s : MemoryStores) (m : Memory) : Prop where
  log : s.log.Represents m.log
  queue : s.queue = m.queue
  progress : s.progress = m.progress

/-- The result of the work on `MemoryStores`, and the stores after it, where nobody else calls. -/
def MemoryStores.alone (clock : Clock) (p : Work α) (s : MemoryStores) : α × MemoryStores :=
  let (a, t) := p.run (fun c (t : Clock × MemoryStores) =>
    let (a, s) := t.2.answer (t.1 0) c
    (a, t.1.tail, s)) (clock, s)
  (a, t.2)

namespace MemoryStores.Represents

theorem empty : ({} : MemoryStores).Represents {} := ⟨.empty, rfl, rfl⟩

/-- `MemoryStores.answer` and `Memory.answer` give the same to a call, and the stores go on to
represent the memory. -/
theorem answer (h : s.Represents m) (r : Call.Reading) (c : Call) :
    (s.answer r c).1 = (m.answer r c).1 ∧ (s.answer r c).2.Represents (m.answer r c).2 := by
  obtain ⟨hlog, hqueue, hprogress⟩ := h
  cases c with
  | log c =>
    obtain ⟨ha, hs⟩ := hlog.answer c
    exact ⟨ha, hs, hqueue, hprogress⟩
  | queue c =>
    simp only [MemoryStores.answer, Memory.answer, hqueue]
    exact ⟨trivial, hlog, rfl, hprogress⟩
  | progress c =>
    simp only [MemoryStores.answer, Memory.answer, hprogress]
    exact ⟨trivial, hlog, hqueue, rfl⟩
  | wake | note => exact ⟨rfl, hlog, hqueue, hprogress⟩

/-- Work comes to the same on both: `answer`, call by call. -/
theorem alone (h : s.Represents m) (p : Work α) (clock : Clock) :
    (s.alone clock p).1 = (Work.alone clock p m).1 ∧
      (s.alone clock p).2.Represents (Work.alone clock p m).2 := by
  induction p generalizing s m clock with
  | done a => exact ⟨rfl, h⟩
  | call c next ih =>
    obtain ⟨ha, hs⟩ := h.answer (clock 0) c
    have hnext := ih (s.answer (clock 0) c).1 hs clock.tail
    rw [ha] at hnext
    have hcall : s.alone clock (.call c next) =
        (s.answer (clock 0) c).2.alone clock.tail (next (s.answer (clock 0) c).1) := rfl
    rw [hcall, ha]
    exact hnext

end MemoryStores.Represents

/-! ## Work that only reads -/

/-- The call leaves the log as it is. -/
def LogCall.isRead : LogCall → Bool
  | .append _ | .storeSnapshot _ => false
  | _ => true

/-- Every call of the work is one that `LogCall.isRead` holds of. -/
def ReadsOnly : Work α → Prop
  | .done _ => True
  | .call c next => (∃ c', c = .log c' ∧ c'.isRead = true) ∧ ∀ a, ReadsOnly (next a)

namespace ReadsOnly

theorem bind {p : Work α} {f : α → Work β} (h : ReadsOnly p) (hf : ∀ a, ReadsOnly (f a)) :
    ReadsOnly (p >>= f) := by
  induction p with
  | done a => exact hf a
  | call c next ih => exact ⟨h.1, fun a => ih a (h.2 a)⟩

theorem log {c : LogCall} (h : c.isRead = true) : ReadsOnly (Work.log c) :=
  ⟨⟨c, rfl, h⟩, fun _ => trivial⟩

/-- To `drain` a reader is reading. -/
theorem drain (count : Nat) (reader : Reader) : ReadsOnly (reader.drain count) := by
  induction count generalizing reader with
  | zero => trivial
  | succ count ih =>
    refine (log rfl).bind fun out => ?_
    split
    · trivial
    · trivial
    · exact (ih _).bind fun _ => trivial

theorem drainAggregates (delivered : List (Except LogError Aggregate)) :
    ReadsOnly (Reader.drainAggregates delivered) := by
  induction delivered with
  | nil => trivial
  | cons a rest ih =>
    refine (log rfl).bind fun out => ?_
    split
    · trivial
    · exact ih.bind fun _ => trivial

theorem answer_eq (s : Storage) {c : LogCall} (h : c.isRead = true) : (s.answer c).2 = s := by
  cases c with
  | append | storeSnapshot => cases h
  | next reader =>
    cases reader with
    | memory cursor =>
      simp only [Storage.answer]
      cases s.next? cursor <;> rfl
    | table | ended => rfl
  | read | last | hasCausedBy | snapshot | aggregates | nextAggregate => rfl

/-- Work that `ReadsOnly` leaves the stores as they are. -/
theorem alone_eq {p : Work α} (h : ReadsOnly p) (s : MemoryStores) (clock : Clock) :
    (s.alone clock p).2 = s := by
  induction p generalizing clock with
  | done a => rfl
  | call c next ih =>
    obtain ⟨⟨c, rfl, hc⟩, hnext⟩ := h
    have hs : (s.answer (clock 0) (.log c)).2 = s := by
      simp only [MemoryStores.answer, answer_eq s.log hc]
    have hcall : s.alone clock (.call (.log c) next) =
        (s.answer (clock 0) (.log c)).2.alone clock.tail
          (next (s.answer (clock 0) (.log c)).1) := rfl
    rw [hcall, hs]
    exact ih _ (hnext _) clock.tail

end ReadsOnly

/-- What is `ReadsOnly` of a memory is read of the stores that represent it, and leaves them as they
are. -/
theorem MemoryStores.Represents.reads (h : s.Represents m) {p : Work α} (hp : ReadsOnly p)
    {clock : Clock} {a : α} (hm : Work.alone clock p m = (a, m)) : s.alone clock p = (a, s) :=
  Prod.ext ((h.alone p clock).1.trans (congrArg Prod.fst hm)) (hp.alone_eq s clock)

end EventRelay
