import EventRelay.Memory
import EventRelay.Publish
import EventRelay.Recovery
import EventRelay.Replay.Perform
import Mathlib.Logic.Relation

/-!
# The broker and its parties

Any number of parties work at the same time on a broker in memory. Each follows the procedure of its
task, one call at a time, and between two calls of one party any others may happen, at any readings
of the clock. An enqueueing may fail. A party that is never heard of again stands for one that
stopped there.
-/

namespace EventRelay

/-- What the parts may answer to a call, and the memory after it: `Memory.answer` at some reading,
or that an enqueueing fails, which leaves everything as it was. -/
inductive Answers (m : Memory) : (c : Call) → c.Answer → Memory → Prop
  | given (r : Call.Reading) (c : Call) : Answers m c (m.answer r c).1 (m.answer r c).2
  | failed (flow : String) (e : Event) (priority : Int) (reason : String) :
      Answers m (.queue (.enqueue flow e priority)) (.error (.storage reason)) m

/-- A `Call` with its answer. -/
structure Said where
  call : Call
  answer : call.Answer

/-- What a `Party` has to do. -/
inductive Task where
  | publish (batch : List Event)
  | lease
  | renew (lock : Lock)
  | release (lock : Lock)
  | acknowledge (lock : Lock)
  | defer (lock : Lock) (priority : Int)
  | sweep
  | replay (windows : List ReplayWindow)
  | recover

/-- What the party that does a `Task` learns at the end. -/
abbrev Task.Outcome : Task → Type
  | publish _ => Except LogError Unit
  | lease => Except QueueError (Option (LeasedItem Event))
  | renew _ | release _ | defer .. => Except QueueError Unit
  | acknowledge _ => Except QueueError Event
  | sweep => Except QueueError (List Lease)
  | replay _ => Except ReplayError ReplayReport
  | recover => Except RecoveryError RecoveryReport

/-- How the `Task` is done. -/
def Task.work (registry : Registry) : (t : Task) → Work t.Outcome
  | publish batch => Publish.publish registry batch
  | lease => Dispatch.attempt
  | renew lock => Dispatch.renew lock
  | release lock => Dispatch.release lock
  | acknowledge lock => Dispatch.acknowledge lock
  | defer lock priority => Dispatch.defer lock priority
  | sweep => Dispatch.sweep
  | replay windows => Replay.perform registry windows
  | recover => Recovery.run registry

/-- A party: its `Task`, what is left of it, and what was said so far. -/
structure Party where
  task : Task
  rest : Work task.Outcome
  said : List Said := []

/-- The `Memory` of the broker and all parties that ever were. -/
structure System where
  memory : Memory := {}
  parties : List Party := []

namespace System

/-- A party comes, or one of them makes its next call and is told one of its `Answers`. -/
inductive Step (registry : Registry) : System → System → Prop
  | start (s : System) (t : Task) :
      Step registry s ⟨s.memory, s.parties ++ [⟨t, t.work registry, []⟩]⟩
  | call {m m' : Memory} {t : Task} {c : Call} {a : c.Answer} (before : List Party)
      (next : c.Answer → Work t.Outcome) (said : List Said) (after : List Party) :
      Answers m c a m' →
      Step registry ⟨m, before ++ ⟨t, .call c next, said⟩ :: after⟩
        ⟨m', before ++ ⟨t, next a, said ++ [⟨c, a⟩]⟩ :: after⟩

/-- The system gets from one state to another by any number of `Step`s. -/
abbrev Leads (registry : Registry) : System → System → Prop := Relation.ReflTransGen (Step registry)

/-- The system gets to a state, by `Leads`, from the empty broker that nobody has called yet. -/
abbrev Reachable (registry : Registry) (s : System) : Prop := Leads registry {} s

/-- A `Step` brings a new party or an answer to one of them, and the others stay as they are. So
what holds of each party is shown by cases on the party that moves. -/
theorem Step.forall_parties {registry : Registry} {s s' : System} {P P' : Party → Prop}
    (hs : Step registry s s') (h : ∀ p ∈ s.parties, P p)
    (hstart : ∀ t : Task, P' ⟨t, t.work registry, []⟩)
    (hcall : ∀ (t : Task) (c : Call) (a : c.Answer) (next : c.Answer → Work t.Outcome)
      (said : List Said), Answers s.memory c a s'.memory → P ⟨t, .call c next, said⟩ →
      P' ⟨t, next a, said ++ [⟨c, a⟩]⟩)
    (hother : ∀ p, P p → P' p) : ∀ p ∈ s'.parties, P' p := by
  cases hs with
  | start _ t =>
    intro p hp
    rcases List.mem_append.1 hp with hp | hp
    · exact hother p (h p hp)
    · rw [List.mem_singleton.1 hp]
      exact hstart t
  | @call m m' t c a before next said after hans =>
    obtain ⟨hbefore, hrest⟩ := List.forall_mem_append.1 h
    obtain ⟨hparty, hafter⟩ := List.forall_mem_cons.1 hrest
    refine List.forall_mem_append.2 ⟨fun p hp => hother p (hbefore p hp), ?_⟩
    exact List.forall_mem_cons.2
      ⟨hcall t c a next said hans hparty, fun p hp => hother p (hafter p hp)⟩

end System

/-! ## Completed acknowledgements -/

/-- An event of an aggregate and a revision was popped off the lane of a flow, by
`QueueCall.acknowledge`. -/
def Popped (said : List Said) (flow : String) (aggregate : Uuid) (revision : Nat) : Prop :=
  ∃ token e, ⟨.queue (.acknowledge ⟨flow, token⟩), .ok e⟩ ∈ said ∧
    e.aggregateId = aggregate ∧ e.revision = revision

/-- It was `Popped`, and thereupon the progress was recorded. -/
def Completes (said : List Said) (flow : String) (aggregate : Uuid) (revision : Nat) : Prop :=
  ∃ before after, said = before ++ ⟨.progress (.record flow aggregate revision), .ok ()⟩ :: after ∧
    Popped before flow aggregate revision

/-- Some acknowledgement of an event with this aggregate and revision, on the lane of this flow,
`Completes`. -/
def System.Completed (s : System) (flow : String) (aggregate : Uuid) (revision : Nat) : Prop :=
  ∃ p ∈ s.parties, Completes p.said flow aggregate revision

variable {said : List Said} {x : Said} {flow : String} {aggregate : Uuid} {revision : Nat}

/-- One more answer completes an acknowledgement only if it is that to `ProgressCall.record` after
the pop. -/
theorem completes_snoc :
    Completes (said ++ [x]) flow aggregate revision ↔ Completes said flow aggregate revision ∨
      (x = ⟨.progress (.record flow aggregate revision), .ok ()⟩ ∧
        Popped said flow aggregate revision) := by
  constructor
  · rintro ⟨before, after, h, hpop⟩
    rcases List.eq_nil_or_concat after with rfl | ⟨after, last, rfl⟩
    · obtain ⟨rfl, hx⟩ := List.append_inj' h rfl
      exact .inr ⟨(List.cons.inj hx).1, hpop⟩
    · rw [List.concat_eq_append, ← List.cons_append, ← List.append_assoc] at h
      exact .inl ⟨before, after, (List.append_inj' h rfl).1, hpop⟩
  · rintro (⟨before, after, rfl, hpop⟩ | ⟨rfl, hpop⟩)
    · exact ⟨before, after ++ [x], by simp, hpop⟩
    · exact ⟨said, [], rfl, hpop⟩

theorem not_completes_nil : ¬ Completes [] flow aggregate revision := by
  rintro ⟨before, after, h, -⟩
  simp at h

theorem System.completed_start {s : System} {t : Task} {rest : Work t.Outcome} :
    Completed ⟨s.memory, s.parties ++ [⟨t, rest, []⟩]⟩ flow aggregate revision ↔
      s.Completed flow aggregate revision := by
  simp [Completed, or_and_right, exists_or, not_completes_nil]

theorem System.completed_call {m m' : Memory} {t : Task} {rest rest' : Work t.Outcome}
    {before after : List Party} :
    Completed ⟨m', before ++ ⟨t, rest', said ++ [x]⟩ :: after⟩ flow aggregate revision ↔
      Completed ⟨m, before ++ ⟨t, rest, said⟩ :: after⟩ flow aggregate revision ∨
        (x = ⟨.progress (.record flow aggregate revision), .ok ()⟩ ∧
          Popped said flow aggregate revision) := by
  simp only [Completed, List.mem_append, List.mem_cons, or_and_right, exists_or, exists_eq_left,
    completes_snoc]
  rw [or_right_comm (a := Completes said flow aggregate revision), ← or_assoc]

end EventRelay
