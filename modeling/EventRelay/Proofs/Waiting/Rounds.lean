import EventRelay.Proofs.Broker.CutOff
import EventRelay.Proofs.Queue.Exclusion
import Mathlib.Logic.Relation

/-!
# Waiting in rounds

Who waits for an item does so in rounds: it registers to be woken, attempts a lease, and if there is
none to be had it parks, until it is woken or its poll is due. Any number of them wait while any
number of operations is under way; each makes one call at a time, and calls on the queue may fail.

What frees or fills a lane is followed by the waking as its operation's next call. Any other call
leaves every lane without a new item and its lease in place, unless it grants or renews that lease.
-/

namespace EventRelay

/-- The `Exchange` granted the lease, or renewed it. -/
def Exchange.Gave (x : Exchange Event) (lease : Lease) : Prop :=
  (∃ leased, x.handed? = some leased ∧ leased.lease = lease) ∨ x.renewed? = some lease.lock

/-- The lane has the entries that it had, and the lease that it had unless the exchange `Gave` it
another. -/
structure Exchange.Spares (x : Exchange Event) (l l' : Lane Event) : Prop where
  entries : l'.entries = l.entries
  lease : l'.lease = l.lease ∨ ∃ lease, l'.lease = some lease ∧ x.Gave lease

theorem Exchange.Spares.refl (x : Exchange Event) (l : Lane Event) : x.Spares l l := ⟨rfl, .inl rfl⟩

namespace Waiting

/-- How far someone who waits has come in a round. -/
inductive Stage where
  | coming
  /-- It is registered, and this is left of its attempt. -/
  | trying (rest : Work (Except QueueError (Option (LeasedItem Event)))) (attempt : Nat)
  /-- Its attempt, which was the exchange of this number, found nothing. -/
  | parked (attempt : Nat)

/-- Someone who waits, and whether it was woken since it registered. -/
structure Waiter where
  stage : Stage := .coming
  woken : Bool := false

/-- An operation that is under way, or done. -/
structure Operation where
  call : QueueCall Event
  rest : Work call.Answer

/-- The broker with all operations and all who wait, and what was said to the queue so far. -/
structure Hall where
  memory : Memory := {}
  operations : List Operation := []
  waiters : List Waiter := []
  history : List (Exchange Event) := []

/-- What a call adds to the history: an `Exchange` if it was on the queue. -/
def said (r : Call.Reading) : (c : Call) → c.Answer → List (Exchange Event)
  | .queue c, a => [⟨r, c, a⟩]
  | .log _, _ | .progress _, _ | .wake, _ | .note _, _ => []

/-- A `wake` reaches all who are registered. Others register afterwards, as not woken. -/
def Waiter.hear (c : Call) (w : Waiter) : Waiter :=
  match c with
  | .wake => { w with woken := true }
  | .log _ | .queue _ | .progress _ | .note _ => w

/-- The number of the last exchange of someone, after another call. -/
def numberOf (history : List (Exchange Event)) (last : Nat) : Call → Nat
  | .queue _ => history.length
  | .log _ | .progress _ | .wake | .note _ => last

/-- Anyone's next step. -/
inductive Step : Hall → Hall → Prop
  | start (s : Hall) (c : QueueCall Event) :
      Step s { s with operations := s.operations ++ [⟨c, Dispatch.call c⟩] }
  | operate {m m' : Memory} {waiters : List Waiter} {history : List (Exchange Event)}
      {call : QueueCall Event} {c : Call} {a : c.Answer} {r : Call.Reading}
      (before : List Operation) (next : c.Answer → Work call.Answer) (after : List Operation) :
      Replies r m c a m' →
      Step ⟨m, before ++ ⟨call, .call c next⟩ :: after, waiters, history⟩
        ⟨m', before ++ ⟨call, next a⟩ :: after, waiters.map (·.hear c), history ++ said r c a⟩
  | come (s : Hall) : Step s { s with waiters := s.waiters ++ [{}] }
  | register {m : Memory} {operations : List Operation} {history : List (Exchange Event)}
      {woken : Bool} (before after : List Waiter) :
      Step ⟨m, operations, before ++ ⟨.coming, woken⟩ :: after, history⟩
        ⟨m, operations, before ++ ⟨.trying Dispatch.attempt 0, false⟩ :: after, history⟩
  | attempt {m m' : Memory} {operations : List Operation} {history : List (Exchange Event)}
      {c : Call} {a : c.Answer} {r : Call.Reading} {last : Nat} {woken : Bool}
      (before : List Waiter)
      (next : c.Answer → Work (Except QueueError (Option (LeasedItem Event))))
      (after : List Waiter) :
      Replies r m c a m' →
      Step ⟨m, operations, before ++ ⟨.trying (.call c next) last, woken⟩ :: after, history⟩
        ⟨m', operations,
          before ++ ⟨.trying (next a) (numberOf history last c), woken⟩ :: after,
          history ++ said r c a⟩
  | park {m : Memory} {operations : List Operation} {history : List (Exchange Event)}
      {last : Nat} {woken : Bool} (before after : List Waiter) :
      Step ⟨m, operations, before ++ ⟨.trying (.done (.ok none)) last, woken⟩ :: after, history⟩
        ⟨m, operations, before ++ ⟨.parked last, woken⟩ :: after, history⟩
  /-- It was woken, or its poll is due. -/
  | goOn {m : Memory} {operations : List Operation} {history : List (Exchange Event)}
      {last : Nat} {woken : Bool} (before after : List Waiter) :
      Step ⟨m, operations, before ++ ⟨.parked last, woken⟩ :: after, history⟩
        ⟨m, operations, before ++ ⟨.coming, woken⟩ :: after, history⟩
  /-- It has an item, or a failure, or waits no longer. -/
  | leave {m : Memory} {operations : List Operation} {history : List (Exchange Event)}
      (before : List Waiter) (w : Waiter) (after : List Waiter) :
      Step ⟨m, operations, before ++ w :: after, history⟩
        ⟨m, operations, before ++ after, history⟩

/-- The hall gets to a state from the empty broker by any number of `Step`s. -/
abbrev Reachable (s : Hall) : Prop := Relation.ReflTransGen Step {} s

/-! ## What has to be followed by a waking -/

/-- The next call is `wake`, for those who wait. -/
def WakesNext {α : Type} : Work α → Prop
  | .call .wake _ => True
  | .call (.log _) _ | .call (.queue _) _ | .call (.progress _) _ | .call (.note _) _ | .done _ =>
    False

/-- The call filled a lane or freed one: `QueueCall.enqueue`, `QueueCall.release` and the like, if
they were accepted. -/
def frees : (c : Call) → c.Answer → Bool
  | .queue (.enqueue ..), .ok _ | .queue (.release _), .ok _ | .queue (.acknowledge _), .ok _
  | .queue (.defer ..), .ok _ | .queue .sweep, .ok (_ :: _) => true
  | _, _ => false

/-- Whatever is answered, a call that `frees` a lane is followed by the waking. -/
def Heedful {α : Type} : Work α → Prop
  | .done _ => True
  | .call c next => ∀ a, (frees c a = true → WakesNext (next a)) ∧ Heedful (next a)

theorem frees_eq_false {c : Call} (hc : ∀ c', c ≠ .queue c') (a : c.Answer) :
    frees c a = false := by
  cases c with
  | queue c' => exact absurd rfl (hc c')
  | log | progress | wake | note => rfl

theorem heedful_of_ne_queue {α : Type} {c : Call} {next : c.Answer → Work α}
    (hc : ∀ c', c ≠ .queue c') (h : ∀ a, Heedful (next a)) : Heedful (.call c next) := by
  intro a
  refine ⟨fun hfrees => ?_, h a⟩
  rw [frees_eq_false hc] at hfrees
  cases hfrees

theorem heedful_wake {α : Type} (out : α) : Heedful (do Work.wake; pure out : Work α) :=
  heedful_of_ne_queue (fun _ h => by cases h) fun _ => trivial

/-- `Dispatch.call` is `Heedful`, whatever the operation. -/
theorem heedful_call (c : QueueCall Event) : Heedful (Dispatch.call c) := by
  cases c with
  | enqueue flow e priority =>
    intro a
    cases a with
    | ok => exact ⟨fun _ => trivial, heedful_wake _⟩
    | error => exact ⟨fun h => Bool.noConfusion h, trivial⟩
  | lease | renew | isQueued =>
    intro a
    refine ⟨fun h => ?_, trivial⟩
    cases a <;> cases h
  | release lock | defer lock priority =>
    intro a
    cases a with
    | ok => exact ⟨fun _ => trivial, heedful_wake _⟩
    | error => exact ⟨fun h => Bool.noConfusion h, trivial⟩
  | acknowledge lock =>
    intro a
    cases a with
    | error => exact ⟨fun h => Bool.noConfusion h, trivial⟩
    | ok e =>
      refine ⟨fun _ => trivial, ?_⟩
      -- behind the waking the progress is recorded, and a failure of that is told
      refine heedful_of_ne_queue (fun _ h => by cases h) fun _ => ?_
      refine heedful_of_ne_queue (fun _ h => by cases h) fun recorded => ?_
      have htold : ∀ n : Notice, Heedful (.call (.note n) fun _ => .done (.ok e) :
          Work (Except QueueError Event)) :=
        fun _ => heedful_of_ne_queue (fun _ h => by cases h) fun _ => trivial
      cases recorded with
      | ok => exact htold _
      | error => exact heedful_of_ne_queue (fun _ h => by cases h) fun _ => htold _
  | sweep =>
    intro a
    rcases a with e | _ | ⟨lease, rest⟩
    · exact ⟨fun h => Bool.noConfusion h, trivial⟩
    · exact ⟨fun h => Bool.noConfusion h, trivial⟩
    · exact ⟨fun _ => trivial, heedful_wake _⟩

end Waiting

/-- A call that `frees` nothing leaves the entries of a lane as they are, and its lease unless it
gives it one. -/
theorem Queue.WF.lease_answer {q : Queue Event} (h : q.WF) (r : Call.Reading)
    (c : QueueCall Event)
    (hc : Waiting.frees (.queue c) (Memory.answerQueue q r c).1 = false) (name : String) :
    Exchange.Spares ⟨r, c, (Memory.answerQueue q r c).1⟩ (q.laneAt name)
      ((Memory.answerQueue q r c).2.laneAt name) := by
  cases c with
  | enqueue flow e priority =>
    cases hk : (q.laneAt flow).hasKey (Keyed.key e) with
    | true =>
      simp only [Memory.answerQueue, Queue.enqueue_of_hasKey _ hk]
      exact .refl _ _
    | false =>
      simp only [Memory.answerQueue, Queue.enqueue_of_not_hasKey _ hk] at hc
      cases hc
  | lease =>
    rcases h.lease_cases r.now r.expiration r.fresh with ⟨hq, -⟩ | ⟨other, head, rest, -, -, -, hq⟩
    · simp only [Memory.answerQueue, hq]
      exact .refl _ _
    · simp only [Memory.answerQueue, hq, laneAt_setLane]
      split
      · next heq =>
        subst heq
        exact ⟨rfl, .inr ⟨_, rfl, .inl ⟨_, rfl, rfl⟩⟩⟩
      · exact .refl _ _
  | renew lock =>
    rcases h.lockedLane_cases lock r.now with ⟨e, hl⟩ | ⟨head, rest, lease, -, hlease, -, hlock, hl⟩
    · simp only [Memory.answerQueue, Queue.renew, hl]
      exact .refl _ _
    · simp only [Memory.answerQueue, Queue.renew, hl, laneAt_setLane]
      split
      · next heq =>
        subst heq
        refine ⟨rfl, .inr ⟨lease.renew r.now r.expiration, by rw [hlease]; rfl, .inr ?_⟩⟩
        exact congrArg some hlock.symm
      · exact .refl _ _
  | release lock =>
    rcases h.lockedLane_cases lock r.now with ⟨e, hl⟩ | ⟨head, rest, lease, -, -, -, -, hl⟩
    · simp only [Memory.answerQueue, Queue.release, hl]
      exact .refl _ _
    · simp only [Memory.answerQueue, Queue.release, hl] at hc
      cases hc
  | acknowledge lock =>
    rcases h.lockedLane_cases lock r.now with ⟨e, hl⟩ | ⟨head, rest, lease, he, -, -, -, hl⟩
    · simp only [Memory.answerQueue, Queue.acknowledge, hl]
      exact .refl _ _
    · simp only [Memory.answerQueue, acknowledge_ok he hl] at hc
      cases hc
  | defer lock priority =>
    rcases h.lockedLane_cases lock r.now with ⟨e, hl⟩ | ⟨head, rest, lease, he, -, -, -, hl⟩
    · -- a refused deferring has used up a number all the same
      simp only [Memory.answerQueue, Queue.defer, hl, laneAt_nextSequence]
      exact .refl _ _
    · simp only [Memory.answerQueue, defer_ok priority he hl] at hc
      cases hc
  | sweep =>
    have hnone : (q.sweep r.now).1 = [] := by
      simp only [Memory.answerQueue] at hc
      cases hs : (q.sweep r.now).1 with
      | nil => rfl
      | cons lease rest =>
        rw [hs] at hc
        cases hc
    have hlive : ∀ name lease, (q.laneAt name).lease = some lease →
        lease.isExpiredAt r.now = false := by
      intro name lease hl
      rw [Bool.eq_false_iff]
      intro hexp
      have hmem : lease ∈ (q.sweep r.now).1 := by
        rw [h.mem_sweep, (h.lane name).leased lease hl]
        exact ⟨hl, hexp⟩
      rw [hnone] at hmem
      cases hmem
    simp only [Memory.answerQueue, h.sweep_eq hlive]
    exact .refl _ _
  | isQueued flow key => exact .refl _ _

end EventRelay
