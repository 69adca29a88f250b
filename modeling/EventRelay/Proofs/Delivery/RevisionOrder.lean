import EventRelay.Proofs.Broker.Tasks
import EventRelay.Proofs.Delivery.Lanes
import EventRelay.Proofs.Log.Views

/-!
# The order of revisions in lanes

Storing a batch and putting its events into lanes are separate steps, and between them other parties
may store and enqueue. So the events of an aggregate stand in a lane in the order of their revisions
only if no batch is stored while another party still owes the lanes events of an aggregate in it.
Where two publishers overlap, the later revision can come first.
-/

namespace EventRelay

variable {α β : Type}

/-- An event of the aggregate may still be enqueued, by what was stored so far: a
`QueueCall.enqueue` is ahead, and no `LogCall.append` before it. -/
inductive Owes (a : Uuid) : Work α → Prop
  | here {flow : String} {e : Event} {priority : Int}
      {next : (Call.queue (.enqueue flow e priority)).Answer → Work α} :
      e.aggregateId = a → Owes a (.call (.queue (.enqueue flow e priority)) next)
  | later {c : Call} {next : c.Answer → Work α} {answer : c.Answer} :
      (∀ batch, c ≠ .log (.append batch)) → Owes a (next answer) → Owes a (.call c next)

namespace Delivery

/-- The call stores nothing, enqueues nothing and moves nothing. -/
def isQuiet : Call → Bool
  | .log (.append _) | .queue (.enqueue ..) | .queue (.defer ..) => false
  | _ => true

/-- The floor after an event was enqueued. -/
def raise (floor : Uuid → Nat) (e : Event) : Uuid → Nat :=
  fun a => if a = e.aggregateId then e.revision else floor a

/-- Work that enqueues events of a batch only, for each aggregate none below its floor and none
after a later one, and that stores and defers nothing. `Q` holds of the outcome and the floor at the
end. -/
inductive Ascends (batch : List Event) (Q : α → (Uuid → Nat) → Prop) : (Uuid → Nat) → Work α → Prop
  | done {floor : Uuid → Nat} {a : α} : Q a floor → Ascends batch Q floor (.done a)
  | enqueue {floor : Uuid → Nat} {flow : String} {e : Event} {priority : Int}
      {next : (Call.queue (.enqueue flow e priority)).Answer → Work α} : e ∈ batch →
      floor e.aggregateId ≤ e.revision → (∀ answer, Ascends batch Q (raise floor e) (next answer)) →
      Ascends batch Q floor (.call (.queue (.enqueue flow e priority)) next)
  | quiet {floor : Uuid → Nat} {c : Call} {next : c.Answer → Work α} : isQuiet c = true →
      (∀ answer, Ascends batch Q floor (next answer)) → Ascends batch Q floor (.call c next)

namespace Ascends

variable {batch : List Event} {floor : Uuid → Nat} {Q Q' : α → (Uuid → Nat) → Prop} {p : Work α}

/-- `Ascends` with a weaker end. -/
theorem imp (h : Ascends batch Q floor p) (hQ : ∀ a floor', Q a floor' → Q' a floor') :
    Ascends batch Q' floor p := by
  induction h with
  | done hq => exact .done (hQ _ _ hq)
  | enqueue he hle _ ih => exact .enqueue he hle ih
  | quiet hc _ ih => exact .quiet hc ih

/-- `Ascends` goes through a sequence: the second part begins at the floor where the first ends. -/
theorem bind {f : α → Work β} {Q : β → (Uuid → Nat) → Prop}
    (h : Ascends batch (fun a floor' => Ascends batch Q floor' (f a)) floor p) :
    Ascends batch Q floor (p >>= f) := by
  induction h with
  | done hq => exact hq
  | enqueue he hle _ ih => exact .enqueue he hle ih
  | quiet hc _ ih => exact .quiet hc ih

/-- What is owed by work that `Ascends` is of the batch. -/
theorem exists_mem_of_owes (h : Ascends batch Q floor p) {a : Uuid} (ho : Owes a p) :
    ∃ e ∈ batch, e.aggregateId = a := by
  induction h with
  | done => cases ho
  | enqueue he _ _ ih =>
    cases ho with
    | here ha => exact ⟨_, he, ha⟩
    | later _ ho => exact ih _ ho
  | quiet hc _ ih =>
    cases ho with
    | here => cases hc
    | later _ ho => exact ih _ ho

end Ascends

/-- The revisions of each aggregate ascend. -/
def Rising (events : List Event) : Prop :=
  events.Pairwise fun x y => x.aggregateId = y.aggregateId → x.revision < y.revision

/-! ## Publishing -/

section

variable {batch : List Event} {floor : Uuid → Nat} {e : Event}

theorem le_raise (hle : floor e.aggregateId ≤ e.revision) (a : Uuid) :
    floor a ≤ raise floor e a := by
  unfold raise
  split
  · next heq => rw [heq]; exact hle
  · exact Nat.le_refl _

theorem raise_self : raise floor e e.aggregateId = e.revision := if_pos rfl

theorem ascends_enqueue (flow : String) (priority : Int) (he : e ∈ batch)
    (hle : floor e.aggregateId ≤ e.revision) :
    Ascends batch (fun _ floor' => floor' = raise floor e) floor
      (Dispatch.enqueue flow e priority) := by
  refine .enqueue he hle fun answer => ?_
  cases answer with
  | error err => exact .done rfl
  | ok => exact .quiet rfl fun _ => .done rfl

/-- An event that goes to a flow raises the floor to its revision at most. If it is held back the
floor stays. -/
theorem ascends_enqueueFor (heldBack : Publish.HeldBack) (flow : String) (he : e ∈ batch)
    (hle : floor e.aggregateId ≤ e.revision) :
    Ascends batch (fun _ floor' => ∀ a, floor' a ≤ raise floor e a) floor
      (Publish.enqueueFor e heldBack flow) := by
  unfold Publish.enqueueFor
  split
  · exact .quiet rfl fun _ => .done (le_raise hle)
  · apply Ascends.bind
    apply (ascends_enqueue flow e.timestamp he hle).imp
    rintro answer floor' rfl
    have hfloor : ∀ a, raise floor e a ≤ raise floor e a := fun a => Nat.le_refl _
    split
    · exact .quiet rfl fun _ => .done hfloor
    · exact .done hfloor
    · exact .quiet rfl fun _ => .done hfloor

theorem ascends_enqueueForAll (flows : List String) (heldBack : Publish.HeldBack) (he : e ∈ batch)
    (hle : floor e.aggregateId ≤ e.revision) :
    Ascends batch (fun _ floor' => ∀ a, floor' a ≤ raise floor e a) floor
      (Publish.enqueueForAll e flows heldBack) := by
  induction flows generalizing floor heldBack with
  | nil => exact .done (le_raise hle)
  | cons flow flows ih =>
    apply Ascends.bind
    apply (ascends_enqueueFor heldBack flow he hle).imp
    intro heldBack' floor' hfloor
    -- the next flow gets the same event, so the raised floor admits it again
    have hle' : floor' e.aggregateId ≤ e.revision := by
      have h := hfloor e.aggregateId
      rwa [raise_self] at h
    apply (ih heldBack' hle').imp
    intro _ floor'' hfloor'' a
    have h1 := hfloor'' a
    have h2 := hfloor a
    unfold raise at h1 h2 ⊢
    split at h1
    · next heq =>
      rw [if_pos heq]
      exact h1
    · exact Nat.le_trans h1 h2

/-- The events of a `Rising` batch are enqueued in their order. -/
theorem ascends_enqueueBatch (registry : Registry) {rest : List Event}
    (heldBack : Publish.HeldBack) (hmem : ∀ x ∈ rest, x ∈ batch)
    (hfloor : ∀ x ∈ rest, floor x.aggregateId ≤ x.revision) (hrising : Rising rest) :
    Ascends batch (fun _ _ => True) floor (Publish.enqueueBatch registry rest heldBack) := by
  induction rest generalizing floor heldBack with
  | nil => exact .done trivial
  | cons e rest ih =>
    obtain ⟨hafter, hrising⟩ := List.pairwise_cons.1 hrising
    apply Ascends.bind
    apply (ascends_enqueueForAll (registry.owners e) heldBack (hmem e List.mem_cons_self)
      (hfloor e List.mem_cons_self)).imp
    intro heldBack' floor' hfloor'
    apply ih heldBack' (fun x hx => hmem x (List.mem_cons_of_mem _ hx)) _ hrising
    intro x hx
    have hle := hfloor' x.aggregateId
    unfold raise at hle
    split at hle
    · next heq =>
      have hlt := hafter x hx heq.symm
      omega
    · exact Nat.le_trans hle (hfloor x (List.mem_cons_of_mem _ hx))

/-- Work that is about to store a batch. Whatever the floor, if the batch is above it, the work
`Ascends` once the batch is stored; if it is refused, nothing is left to do. -/
def Storing (p : Work α) : Prop :=
  ∃ batch next, p = .call (.log (.append batch)) next ∧
    (∀ floor, (∀ e ∈ batch, floor e.aggregateId ≤ e.revision) → Rising batch →
      Ascends batch (fun _ _ => True) floor (next (.ok ()))) ∧
    ∀ e, ∃ a, next (.error e) = .done a

/-- A publisher is `Storing` until its batch is stored. -/
theorem storing_publish (registry : Registry) (batch : List Event) :
    Storing (Publish.publish registry batch) := by
  refine ⟨batch, _, rfl, ?_, ?_⟩
  · intro floor hfloor hrising
    change Ascends batch _ floor
      (Publish.enqueueBatch registry batch [] >>= fun _ => pure (Except.ok ()))
    apply Ascends.bind
    apply (ascends_enqueueBatch registry [] (fun x hx => hx) hfloor hrising).imp
    intro _ _ _
    exact .done trivial
  · intro e
    exact ⟨_, rfl⟩

end

/-! ## What one call does -/

/-- Nothing was stored, and nothing came into a lane or moved in it. -/
structure Shrinks (m m' : Memory) : Prop where
  log : m'.log.events = m.log.events
  wf : m'.queue.WF
  items : ∀ name, (m'.queue.items name).Sublist (m.queue.items name)

theorem Shrinks.refl {m : Memory} (h : m.queue.WF) : Shrinks m m :=
  ⟨rfl, h, fun _ => .refl _⟩

theorem shrinks_of_items_eq {m : Memory} {q : Queue Event} (h : q.WF)
    (hitems : ∀ name, q.items name = m.queue.items name) : Shrinks m { m with queue := q } := by
  refine ⟨rfl, h, ?_⟩
  intro name
  rw [hitems]

/-- Calls that are `isQuiet` only take from lanes. -/
theorem shrinks_answer {m : Memory} (h : m.queue.WF) (r : Call.Reading) {c : Call}
    (hc : isQuiet c = true) : Shrinks m (m.answer r c).2 := by
  cases c with
  | log c =>
    refine ⟨answerLog_events _ ?_, h, fun _ => .refl _⟩
    rintro batch rfl
    cases hc
  | queue c =>
    cases c with
    | enqueue | defer => cases hc
    | lease =>
      exact shrinks_of_items_eq (h.lease r.now r.expiration r.fresh)
        (h.items_lease r.now r.expiration r.fresh)
    | renew lock =>
      exact shrinks_of_items_eq (h.renew lock r.now r.expiration)
        (h.items_renew lock r.now r.expiration)
    | release lock =>
      exact shrinks_of_items_eq (h.release lock r.now) (h.items_release lock r.now)
    | sweep => exact shrinks_of_items_eq (h.sweep r.now) (h.items_sweep r.now)
    | isQueued => exact .refl h
    | acknowledge lock =>
      refine ⟨rfl, h.acknowledge lock r.now, ?_⟩
      intro name
      simp only [Memory.answer, Memory.answerQueue]
      rcases h.acknowledge_cases lock r.now with ⟨e, hack⟩ | ⟨e, q, hack, hitems⟩
      · rw [hack]
      · rw [hack, hitems]
        split
        · exact List.sublist_cons_self _ _
        · exact .refl _
  | progress c => exact ⟨rfl, h, fun _ => .refl _⟩
  | wake | note => exact .refl h

/-- In a log that is `Numbered` the revisions of each aggregate ascend. -/
theorem rising_of_numbered {l : EventLog} (h : l.Numbered) : Rising l.events := by
  obtain ⟨events, snapshots⟩ := l
  induction events using List.reverseRecOn with
  | nil => exact .nil
  | append_singleton events x ih =>
    obtain ⟨hbefore, hrev⟩ := h.of_snoc (l := ⟨events, snapshots⟩)
    unfold Rising
    rw [List.pairwise_append]
    refine ⟨ih hbefore, List.pairwise_singleton _ _, ?_⟩
    intro y hy z hz hagg
    obtain rfl := List.mem_singleton.1 hz
    have hle := hbefore.revision_le_latest hy
    rw [hagg] at hle
    omega

/-- A log and lanes in which the revisions of each aggregate are `Rising`. -/
structure Orderly (m : Memory) : Prop where
  numbered : m.log.Numbered
  stocked : Stocked m.log m.queue
  rising : ∀ flow, Rising (m.queue.items flow)

section

variable {m m' : Memory} {flow : String} {a : Uuid} {n : Nat} {batch : List Event}
  {floor : Uuid → Nat}

theorem Orderly.shrinks (h : Orderly m) (hs : Shrinks m m') : Orderly m' where
  numbered := h.numbered.congr hs.log
  stocked := by
    refine ⟨hs.wf, ?_⟩
    intro name e he
    rw [hs.log]
    exact h.stocked.stored name e ((hs.items name).subset he)
  rising name := (h.rising name).sublist (hs.items name)

/-- An event that is not below those of its aggregate in the lane can be enqueued: the memory stays
`Orderly`. -/
theorem Orderly.enqueue (h : Orderly m) {e : Event} {name : String} (priority : Int)
    (he : e ∈ m.log.events)
    (hle : ∀ x ∈ m.queue.items name, x.aggregateId = e.aggregateId → x.revision ≤ e.revision)
    (hk : (m.queue.laneAt name).hasKey (Keyed.key e) = false) :
    Orderly { m with queue := (m.queue.enqueue name e priority).2 } where
  numbered := h.numbered
  stocked := h.stocked.enqueue he priority hk
  rising other := by
    simp only [Queue.items_enqueue priority hk]
    split
    · unfold Rising
      rw [List.pairwise_append]
      refine ⟨h.rising name, List.pairwise_singleton _ _, ?_⟩
      intro x hx y hy hagg
      obtain rfl := List.mem_singleton.1 hy
      have hne : x.revision ≠ y.revision := by
        -- of this revision there is one event, and that is not in the lane
        intro heq
        have hxy := h.numbered.eq_of_revision_eq (h.stocked.stored name x hx) he hagg heq
        rw [h.stocked.wf.hasKey_of_mem_items (hxy ▸ hx)] at hk
        cases hk
      have hle' := hle x hx hagg
      omega
    · exact h.rising other

/-- Revisions of the aggregate below this one come into the lane no more. -/
structure Past (flow : String) (a : Uuid) (n : Nat) (m : Memory) : Prop where
  reached : n ≤ m.log.latest a
  passed : ∀ x ∈ m.queue.items flow, x.aggregateId = a → n ≤ x.revision

/-- What is `Past` stays so while lanes only lose events. -/
theorem Past.shrinks (h : Past flow a n m) (hs : Shrinks m m') : Past flow a n m' where
  reached := by
    rw [EventLog.latest_congr hs.log]
    exact h.reached
  passed x hx := h.passed x ((hs.items flow).subset hx)

/-- The floor is not below what is in the lanes, for the aggregates that the work `Owes`. -/
def Floored (a : Uuid) (n : Nat) (m : Memory) (floor : Uuid → Nat) (p : Work α) : Prop :=
  ∀ b, Owes b p → (b = a → n ≤ floor b) ∧
    ∀ name, ∀ x ∈ m.queue.items name, x.aggregateId = b → x.revision ≤ floor b

/-- Work that is `Storing`, or enqueues in order what is stored. -/
def Bounded (a : Uuid) (n : Nat) (m : Memory) (p : Work α) : Prop :=
  Storing p ∨ ∃ batch floor, (∀ e ∈ batch, e ∈ m.log.events) ∧
    Ascends batch (fun _ _ => True) floor p ∧ Floored a n m floor p

/-- What a step of the `Work` does to the memory, and to what is left of it. -/
structure Advances (flow : String) (a : Uuid) (n : Nat) (m m' : Memory) (p p' : Work α) : Prop where
  orderly : Orderly m'
  past : Past flow a n m'
  bounded : Bounded a n m' p'
  stored : m.log.events <+: m'.log.events
  lanes : ∀ name, ∀ x ∈ m'.queue.items name, x ∈ m.queue.items name ∨ Owes x.aggregateId p
  owes : ∀ b, Owes b p' → Owes b p ∨
    ∃ batch, m'.log.events = m.log.events ++ batch ∧ ∃ e ∈ batch, e.aggregateId = b

theorem not_owes_of_storing {p : Work α} (h : Storing p) (b : Uuid) : ¬ Owes b p := by
  obtain ⟨batch, next, rfl, -, -⟩ := h
  intro ho
  cases ho with
  | later hc _ => exact hc batch rfl

/-- What the others do leaves work `Bounded` that owes nothing of what they put into lanes. -/
theorem Bounded.mono {p : Work α} (h : Bounded a n m p)
    (hstored : m.log.events <+: m'.log.events)
    (hlanes : ∀ name, ∀ x ∈ m'.queue.items name, x ∈ m.queue.items name ∨ ¬ Owes x.aggregateId p) :
    Bounded a n m' p := by
  rcases h with hs | ⟨batch, floor, hbatch, hasc, hfloor⟩
  · exact .inl hs
  · refine .inr ⟨batch, floor, fun e he => hstored.subset (hbatch e he), hasc, ?_⟩
    intro b ho
    refine ⟨(hfloor b ho).1, ?_⟩
    intro name x hx hb
    rcases hlanes name x hx with hx | hno
    · exact (hfloor b ho).2 name x hx hb
    · exact absurd (hb ▸ ho) hno

/-- A step that brings nothing into the lanes `Advances` the work. -/
theorem advances_of_shrinks (h : Orderly m) (hpast : Past flow a n m) (hs : Shrinks m m')
    {c : Call} {next : c.Answer → Work α} {answer : c.Answer}
    (hc : ∀ batch, c ≠ .log (.append batch)) (hbatch : ∀ e ∈ batch, e ∈ m.log.events)
    (hnext : Ascends batch (fun _ _ => True) floor (next answer))
    (hfloor : Floored a n m floor (next answer)) :
    Advances flow a n m m' (.call c next) (next answer) where
  orderly := h.shrinks hs
  past := hpast.shrinks hs
  bounded := by
    refine .inr ⟨batch, floor, fun e he => hs.log ▸ hbatch e he, hnext, ?_⟩
    intro b ho
    refine ⟨(hfloor b ho).1, ?_⟩
    intro name x hx
    exact (hfloor b ho).2 name x ((hs.items name).subset hx)
  stored := hs.log ▸ List.prefix_refl _
  lanes name x hx := .inl ((hs.items name).subset hx)
  owes b ho := .inl (.later hc ho)

theorem floored_later {c : Call} {next : c.Answer → Work α} {answer : c.Answer}
    (hc : ∀ batch, c ≠ .log (.append batch)) (h : Floored a n m floor (.call c next)) :
    Floored a n m floor (next answer) :=
  fun b ho => h b (.later hc ho)

/-- The raised floor is `Floored` for what is left, also with the event in a lane. -/
theorem floored_raise {name : String} {e : Event} {priority : Int}
    {next : (Call.queue (.enqueue name e priority)).Answer → Work α}
    (h : Floored a n m floor (.call (.queue (.enqueue name e priority)) next))
    (hle : floor e.aggregateId ≤ e.revision)
    (answer : (Call.queue (.enqueue name e priority)).Answer)
    (hitems : ∀ other, ∀ x ∈ m'.queue.items other, x ∈ m.queue.items other ∨ x = e) :
    Floored a n m' (raise floor e) (next answer) := by
  intro b ho
  obtain ⟨hn, hlanes⟩ := h b (.later (fun _ hcall => by cases hcall) ho)
  refine ⟨fun hb => Nat.le_trans (hn hb) (le_raise hle b), ?_⟩
  intro other x hx hb
  rcases hitems other x hx with hx | rfl
  · exact Nat.le_trans (hlanes other x hx hb) (le_raise hle b)
  · subst hb
    exact Nat.le_of_eq raise_self.symm

/-- An event that is not below the floor goes to the end of its lane, and the floor goes up to
it. -/
theorem advances_enqueue (h : Orderly m) (hpast : Past flow a n m) {name : String} {e : Event}
    {priority : Int} {next : (Call.queue (.enqueue name e priority)).Answer → Work α}
    (hbatch : ∀ e ∈ batch, e ∈ m.log.events) (he : e ∈ batch)
    (hle : floor e.aggregateId ≤ e.revision)
    (hnext : ∀ answer, Ascends batch (fun _ _ => True) (raise floor e) (next answer))
    (hfloor : Floored a n m floor (.call (.queue (.enqueue name e priority)) next))
    {answer : (Call.queue (.enqueue name e priority)).Answer}
    (hans : Answers m (.queue (.enqueue name e priority)) answer m') :
    Advances flow a n m m' (.call (.queue (.enqueue name e priority)) next) (next answer) := by
  have howes : Owes e.aggregateId (.call (.queue (.enqueue name e priority)) next) := .here rfl
  have hsame : Advances flow a n m m (.call (.queue (.enqueue name e priority)) next)
      (next answer) :=
    advances_of_shrinks h hpast (.refl h.stocked.wf) (fun _ hcall => by cases hcall) hbatch
      (hnext answer) (floored_raise hfloor hle answer fun _ _ hx => .inl hx)
  cases hans with
  | failed => exact hsame
  | given r =>
    cases hk : (m.queue.laneAt name).hasKey (Keyed.key e) with
    | true =>
      simpa only [Memory.answer, Memory.answerQueue,
        Queue.enqueue_of_hasKey priority hk] using hsame
    | false =>
      have hitems : ∀ other, ∀ x ∈ (m.queue.enqueue name e priority).2.items other,
          x ∈ m.queue.items other ∨ (other = name ∧ x = e) := by
        intro other x hx
        rw [Queue.items_enqueue priority hk] at hx
        split at hx
        · next heq =>
          rcases List.mem_append.1 hx with hx | hx
          · exact .inl (heq ▸ hx)
          · exact .inr ⟨heq, List.mem_singleton.1 hx⟩
        · exact .inl hx
      refine ⟨?_, ⟨hpast.reached, ?_⟩, .inr ⟨batch, raise floor e, hbatch, hnext _, ?_⟩,
        List.prefix_refl _, ?_, ?_⟩
      · apply h.enqueue priority (hbatch e he) _ hk
        intro x hx hagg
        exact Nat.le_trans ((hfloor _ howes).2 name x hx hagg) hle
      · intro x hx ha
        rcases hitems flow x hx with hx | ⟨-, rfl⟩
        · exact hpast.passed x hx ha
        · exact Nat.le_trans ((hfloor _ howes).1 ha) hle
      · apply floored_raise hfloor hle
        intro other x hx
        exact (hitems other x hx).imp_right And.right
      · intro other x hx
        rcases hitems other x hx with hx | ⟨-, rfl⟩
        · exact .inl hx
        · exact .inr howes
      · intro b ho
        exact .inl (.later (fun _ hcall => by cases hcall) ho)

/-- Storing a batch raises what may be enqueued above all that is in the lanes. -/
theorem advances_store (h : Orderly m) (hpast : Past flow a n m)
    {next : (Call.log (.append batch)).Answer → Work α}
    (hok : ∀ floor, (∀ e ∈ batch, floor e.aggregateId ≤ e.revision) → Rising batch →
      Ascends batch (fun _ _ => True) floor (next (.ok ())))
    {l : EventLog} (happend : m.log.append batch = .ok l) :
    Advances flow a n m { m with log := l } (.call (.log (.append batch)) next)
      (next (.ok ())) := by
  have hnumbered := h.numbered.append happend
  have hevents : l.events = m.log.events ++ batch := by
    obtain ⟨rfl, -⟩ := EventLog.append_eq_ok happend
    rfl
  have hstored : m.log.events <+: l.events := by
    rw [hevents]
    exact List.prefix_append _ _
  have hrising := rising_of_numbered hnumbered
  rw [hevents] at hrising
  obtain ⟨-, hbatch, hcross⟩ := List.pairwise_append.1 hrising
  have hlatest : ∀ e ∈ batch, m.log.latest e.aggregateId ≤ e.revision := by
    intro e he
    by_cases hzero : m.log.latest e.aggregateId = 0
    · omega
    · obtain ⟨x, hlast⟩ := EventLog.exists_last (a := e.aggregate) hzero
      obtain ⟨hx, hagg, hrev⟩ := h.numbered.last_eq_ok hlast
      have hlt := hcross x hx e he hagg
      exact Nat.le_of_lt (hrev ▸ hlt)
  -- whatever is in a lane is stored, so the revisions reached so far are a floor
  have hnext := hok m.log.latest hlatest hbatch
  refine ⟨⟨hnumbered, ⟨h.stocked.wf, ?_⟩, h.rising⟩, ⟨?_, hpast.passed⟩,
    .inr ⟨batch, m.log.latest, ?_, hnext, ?_⟩, hstored, fun _ _ hx => .inl hx, ?_⟩
  · intro name e he
    exact hstored.subset (h.stocked.stored name e he)
  · exact Nat.le_trans hpast.reached (EventLog.latest_mono hstored a)
  · intro e he
    rw [hevents]
    exact List.mem_append_right _ he
  · intro b _
    refine ⟨fun hb => hb ▸ hpast.reached, ?_⟩
    intro name x hx hb
    subst hb
    exact h.numbered.revision_le_latest (h.stocked.stored name x hx)
  · intro b ho
    exact .inr ⟨batch, hevents, hnext.exists_mem_of_owes ho⟩

/-- Work that enqueues and stores nothing: it `Ascends` with no batch at all. -/
abbrev Idles (p : Work α) : Prop := Ascends [] (fun _ _ => True) (fun _ => 0) p

theorem not_owes_of_idles {p : Work α} (h : Idles p) (b : Uuid) : ¬ Owes b p := by
  intro ho
  obtain ⟨e, he, -⟩ := h.exists_mem_of_owes ho
  cases he

theorem bounded_of_idles {p : Work α} (h : Idles p) : Bounded a n m p :=
  .inr ⟨[], _, by simp, h, fun b ho => absurd ho (not_owes_of_idles h b)⟩

theorem advances_refused (h : Orderly m) (hpast : Past flow a n m) {c : Call}
    {next : c.Answer → Work α} {answer : c.Answer} {out : α} (hdone : next answer = .done out) :
    Advances flow a n m m (.call c next) (next answer) := by
  rw [hdone]
  refine ⟨h, hpast, bounded_of_idles (.done trivial), List.prefix_refl _,
    fun _ _ hx => .inl hx, ?_⟩
  intro b ho
  cases ho

/-- One step of work that is `Bounded`, whatever its call is answered. -/
theorem Bounded.advances (h : Orderly m) (hpast : Past flow a n m) {c : Call}
    {next : c.Answer → Work α} (hp : Bounded a n m (.call c next)) {answer : c.Answer}
    (hans : Answers m c answer m') : Advances flow a n m m' (.call c next) (next answer) := by
  rcases hp with ⟨batch, next', heq, hok, herror⟩ | ⟨batch, floor, hbatch, hasc, hfloor⟩
  · obtain ⟨rfl, heq⟩ := Procedure.call.inj heq
    obtain rfl := eq_of_heq heq
    obtain ⟨rfl, rfl⟩ := hans.log
    simp only [Memory.answerLog]
    cases happend : m.log.append batch with
    | error e =>
      obtain ⟨out, hdone⟩ := herror e
      exact advances_refused h hpast hdone
    | ok l => exact advances_store h hpast hok happend
  · cases hasc with
    | enqueue he hle hnext => exact advances_enqueue h hpast hbatch he hle hnext hfloor hans
    | quiet hc hnext =>
      have hne : ∀ batch, c ≠ .log (.append batch) := by
        rintro batch rfl
        cases hc
      cases hans with
      | failed => cases hc
      | given r =>
        exact advances_of_shrinks h hpast (shrinks_answer h.stocked.wf r hc) hne hbatch (hnext _)
          (floored_later hne hfloor)

end

/-! ## Tasks -/

/-- The task publishes, or leases, renews, releases, acknowledges or sweeps. -/
def isPlain : Task → Bool
  | .defer .. | .replay _ | .recover => false
  | _ => true

/-- A plain task is `Storing` at first, or `Idles` all the way. -/
theorem storing_or_idles (registry : Registry) {t : Task} (ht : isPlain t = true) :
    Storing (t.work registry) ∨ Idles (t.work registry) := by
  have hdone : ∀ {γ : Type} (out : γ), Idles (.done out : Work γ) := fun _ => .done trivial
  cases t with
  | publish batch => exact .inl (storing_publish registry batch)
  | defer | replay | recover => cases ht
  | lease =>
    right
    refine .quiet rfl fun answer => ?_
    cases answer with
    | error e => exact hdone _
    | ok leased =>
      cases leased with
      | none => exact hdone _
      | some leased => exact .quiet rfl fun _ => hdone _
  | renew lock => exact .inr (.quiet rfl fun _ => hdone _)
  | release lock =>
    right
    refine .quiet rfl fun answer => ?_
    cases answer with
    | error e => exact hdone _
    | ok => exact .quiet rfl fun _ => hdone _
  | acknowledge lock =>
    right
    refine .quiet rfl fun answer => ?_
    cases answer with
    | error e => exact hdone _
    | ok event =>
      refine .quiet rfl fun _ => .quiet rfl fun answer => ?_
      cases answer with
      | error e => exact .quiet rfl fun _ => .quiet rfl fun _ => hdone _
      | ok => exact .quiet rfl fun _ => hdone _
  | sweep =>
    right
    refine .quiet rfl fun answer => ?_
    cases answer with
    | error e => exact hdone _
    | ok expired =>
      cases expired with
      | nil => exact hdone _
      | cons => exact .quiet rfl fun _ => hdone _

/-! ## The system -/

/-- A `System.Step` in which nobody defers, replays or recovers, and in which a batch is stored only
while nobody `Owes` the lanes an event of an aggregate in it. -/
structure OrderlyStep (registry : Registry) (s s' : System) : Prop where
  step : System.Step registry s s'
  plain : ∀ p ∈ s'.parties, isPlain p.task = true
  apart : ∀ batch, s'.memory.log.events = s.memory.log.events ++ batch → ∀ e ∈ batch,
    ∀ p ∈ s.parties, ¬ Owes e.aggregateId p.rest

/-- Any number of `OrderlyStep`s. -/
abbrev OrderlyLeads (registry : Registry) : System → System → Prop :=
  Relation.ReflTransGen (OrderlyStep registry)

/-- What holds of the memory, of each party and of any two: no aggregate is owed by both. -/
structure InOrder (flow : String) (a : Uuid) (n : Nat) (s : System) : Prop where
  orderly : Orderly s.memory
  past : Past flow a n s.memory
  bounded : ∀ p ∈ s.parties, Bounded a n s.memory p.rest
  apart : s.parties.Pairwise fun p q => ∀ b, Owes b p.rest → ¬ Owes b q.rest

section

variable {registry : Registry} {s s' : System} {flow : String} {a : Uuid} {n : Nat}

/-- A step of tasks that are `isPlain`, which stores nothing. -/
theorem OrderlyStep.of_events_eq (hstep : System.Step registry s s')
    (hplain : ∀ p ∈ s'.parties, isPlain p.task = true)
    (hlog : s'.memory.log.events = s.memory.log.events) : OrderlyStep registry s s' where
  step := hstep
  plain := hplain
  apart batch hevents e he := by
    rw [hlog, List.self_eq_append_right] at hevents
    rw [hevents] at he
    cases he

/-- A step of plain tasks while all of them are `Storing` or `Idles`, and so owe nothing. -/
theorem OrderlyStep.of_idle (hstep : System.Step registry s s')
    (hplain : ∀ p ∈ s'.parties, isPlain p.task = true)
    (hidle : ∀ p ∈ s.parties, Storing p.rest ∨ Idles p.rest) : OrderlyStep registry s s' where
  step := hstep
  plain := hplain
  apart _ _ e _ p hp :=
    (hidle p hp).elim (not_owes_of_storing · e.aggregateId) (not_owes_of_idles · e.aggregateId)

theorem inOrder_empty (flow : String) (a : Uuid) : InOrder flow a 0 {} where
  orderly := ⟨EventLog.numbered_empty, ⟨Queue.WF.empty, fun _ _ he => by cases he⟩,
    fun _ => .nil⟩
  past := ⟨Nat.zero_le _, fun _ hx => by cases hx⟩
  bounded _ hp := by cases hp
  apart := .nil

/-- The party that moves is `Bounded.advances`; for the others the step is `Bounded.mono`. -/
theorem InOrder.step (h : InOrder flow a n s) (hs : OrderlyStep registry s s') :
    InOrder flow a n s' := by
  obtain ⟨hstep, hplain, hapart⟩ := hs
  cases hstep with
  | start _ t =>
    have ht := hplain _ (List.mem_append_right _ (List.mem_singleton_self _))
    have hnew : ∀ b, ¬ Owes b (t.work registry) := by
      intro b
      rcases storing_or_idles registry ht with hs | hi
      · exact not_owes_of_storing hs b
      · exact not_owes_of_idles hi b
    refine ⟨h.orderly, h.past, ?_, ?_⟩
    · intro p hp
      rcases List.mem_append.1 hp with hp | hp
      · exact h.bounded p hp
      · rw [List.mem_singleton.1 hp]
        exact (storing_or_idles registry ht).elim .inl bounded_of_idles
    · rw [List.pairwise_append]
      refine ⟨h.apart, List.pairwise_singleton _ _, ?_⟩
      intro p _ q hq b _
      rw [List.mem_singleton.1 hq]
      exact hnew b
  | @call m m' t c answer before next said after hans =>
    -- owing apart is symmetric, so the caller can be taken to stand first
    have hsymm : ∀ {p q : Party}, (∀ b, Owes b p.rest → ¬ Owes b q.rest) →
        ∀ b, Owes b q.rest → ¬ Owes b p.rest := fun hpq b hq hp => hpq b hp hq
    have hadv := (h.bounded _ (List.mem_append_right _ List.mem_cons_self)).advances
      h.orderly h.past hans
    obtain ⟨hmine, hothers⟩ := List.pairwise_cons.1 ((List.pairwise_middle hsymm).1 h.apart)
    have hother : ∀ q ∈ before ++ after,
        q ∈ before ++ (⟨t, .call c next, said⟩ : Party) :: after := by
      intro q hq
      rcases List.mem_append.1 hq with hq | hq
      · exact List.mem_append_left _ hq
      · exact List.mem_append_right _ (List.mem_cons_of_mem _ hq)
    refine ⟨hadv.orderly, hadv.past, ?_, ?_⟩
    · intro q hq
      rcases List.mem_cons.1 (List.perm_middle.mem_iff.1 hq) with rfl | hq
      · exact hadv.bounded
      · apply (h.bounded q (hother q hq)).mono hadv.stored
        intro name x hx
        exact (hadv.lanes name x hx).imp_right fun ho => hmine q hq _ ho
    · apply (List.pairwise_middle hsymm).2
      refine List.pairwise_cons.2 ⟨?_, hothers⟩
      intro q hq b ho
      rcases hadv.owes b ho with hp | ⟨batch, hevents, e, he, rfl⟩
      · exact hmine q hq b hp
      · exact hapart batch hevents e he q (hother q hq)

theorem InOrder.leads (h : InOrder flow a n s) (hs : OrderlyLeads registry s s') :
    InOrder flow a n s' := by
  induction hs with
  | refl => exact h
  | tail _ hstep ih => exact ih.step hstep

/-- From the head of a lane on nothing below its revision comes into the lane: it is `Past`. -/
theorem InOrder.past_head {flow' : String} {b : Uuid} {k : Nat} (h : InOrder flow' b k s)
    {e : Event} {rest : List Event} (hitems : s.memory.queue.items flow = e :: rest) :
    InOrder flow e.aggregateId e.revision s where
  orderly := h.orderly
  past := by
    have he : e ∈ s.memory.queue.items flow := by
      rw [hitems]
      exact List.mem_cons_self
    refine ⟨h.orderly.numbered.revision_le_latest (h.orderly.stocked.stored flow e he), ?_⟩
    intro x hx hagg
    rw [hitems] at hx
    rcases List.mem_cons.1 hx with rfl | hx
    · exact Nat.le_refl _
    · have hrising := h.orderly.rising flow
      rw [hitems] at hrising
      exact Nat.le_of_lt ((List.pairwise_cons.1 hrising).1 x hx hagg.symm)
  bounded p hp := by
    rcases h.bounded p hp with hs | ⟨batch, floor, hbatch, hasc, hfloor⟩
    · exact .inl hs
    · refine .inr ⟨batch, floor, hbatch, hasc, ?_⟩
      intro c ho
      -- the floor is not below the head, as that is in a lane
      obtain ⟨-, hlanes⟩ := hfloor c ho
      refine ⟨?_, hlanes⟩
      rintro rfl
      apply hlanes flow e _ rfl
      rw [hitems]
      exact List.mem_cons_self
  apart := h.apart

/-! ## Turns -/

/-- The next call of one of the parties, given its answer. -/
def turn (r : Call.Reading) (s : System) (i : Nat) : System :=
  match s.parties[i]? with
  | some ⟨t, .call c next, said⟩ =>
    let (answer, memory) := s.memory.answer r c
    ⟨memory, s.parties.set i ⟨t, next answer, said ++ [⟨c, answer⟩]⟩⟩
  | _ => s

/-- The parties before and after the one whose turn it is. -/
theorem parties_of_getElem? {parties : List Party} {i : Nat} {p : Party}
    (h : parties[i]? = some p) :
    parties = parties.take i ++ p :: parties.drop (i + 1) ∧
      ∀ q, parties.set i q = parties.take i ++ q :: parties.drop (i + 1) := by
  obtain ⟨hi, rfl⟩ := List.getElem?_eq_some_iff.1 h
  refine ⟨?_, fun q => ?_⟩
  · rw [List.getElem_cons_drop, List.take_append_drop]
  · rw [List.set_eq_take_append_cons_drop, if_pos hi]

/-- A turn is a `System.Step`, or nothing if there is no such party or it is done. -/
theorem step_turn (registry : Registry) (r : Call.Reading) (s : System) (i : Nat) :
    turn r s i = s ∨ System.Step registry s (turn r s i) := by
  obtain ⟨m, parties⟩ := s
  unfold turn
  split
  · next t c next said hget =>
    right
    obtain ⟨hsplit, hset⟩ := parties_of_getElem? hget
    have hstep : System.Step registry _ _ :=
      .call (parties.take i) next said (parties.drop (i + 1)) (.given (m := m) r c)
    rw [← hsplit, ← hset] at hstep
    exact hstep
  · exact .inl rfl

theorem leads_turns (r : Call.Reading) (s : System) (order : List Nat) :
    System.Leads registry s (order.foldl (turn r) s) := by
  induction order generalizing s with
  | nil => exact .refl
  | cons i order ih =>
    rcases step_turn registry r s i with hsame | hstep
    · rw [List.foldl_cons, hsame]
      exact ih s
    · exact .head hstep (ih _)

theorem orderlyLeads_turn (r : Call.Reading) (s : System) (i : Nat)
    (hplain : ∀ p ∈ (turn r s i).parties, isPlain p.task = true)
    (hapart : (turn r s i).memory.log.events = s.memory.log.events ∨
      ∀ p ∈ s.parties, Storing p.rest ∨ Idles p.rest) :
    OrderlyLeads registry s (turn r s i) := by
  rcases step_turn registry r s i with hsame | hstep
  · rw [hsame]
  · exact .single (hapart.elim (.of_events_eq hstep hplain) (.of_idle hstep hplain))

end

/-- Two publishers that come before either has stored its event. -/
def bothStarted : System :=
  ⟨{}, [⟨.publish [Sample.placed 1], Task.work Sample.registry (.publish [Sample.placed 1]), []⟩,
    ⟨.publish [Sample.placed 2], Task.work Sample.registry (.publish [Sample.placed 2]), []⟩]⟩

theorem reachable_bothStarted : System.Reachable Sample.registry bothStarted :=
  .tail (.tail .refl (.start {} (.publish [Sample.placed 1])))
    (.start _ (.publish [Sample.placed 2]))

/-! ## The order of revisions -/

/-- **Where publishers of an aggregate do not overlap, its revisions come in order.** However many
parties publish, lease and acknowledge: as long as no batch is stored while another party still owes
the lanes an event of an aggregate in it, the events of an aggregate stand in every lane in the
order of their revisions, and what is at the head of a lane is followed there by later revisions
only. -/
theorem revision_order_without_overlap {registry : Registry} {s : System}
    (hs : OrderlyLeads registry {} s) :
    (∀ flow, Rising (s.memory.queue.items flow)) ∧
    ∀ s', OrderlyLeads registry s s' → ∀ flow e rest,
      s.memory.queue.items flow = e :: rest → ∀ e' ∈ s'.memory.queue.items flow,
        e'.aggregateId = e.aggregateId → e.revision ≤ e'.revision := by
  have h := (inOrder_empty "" (Uuid.ofNat 0)).leads hs
  refine ⟨h.orderly.rising, ?_⟩
  intro s' hs' flow e rest hitems e' he' hagg
  exact ((h.past_head hitems).leads hs').past.passed e' he' hagg

/-- The second stores its event when the first has enqueued its own. -/
theorem revision_order_of_two :
    ∃ s, OrderlyLeads Sample.registry {} s ∧
      s.memory.queue.items "mail" = [Sample.placed 1, Sample.placed 2] ∧
      ∀ flow, Rising (s.memory.queue.items flow) := by
  have hs : OrderlyLeads Sample.registry {}
      ([0, 0, 1, 1].foldl (turn (Sample.readingAt 0)) bothStarted) := by
    refine .head (.of_events_eq (.start {} (.publish [Sample.placed 1])) (by decide) rfl) ?_
    refine .head (.of_events_eq (.start _ (.publish [Sample.placed 2])) (by decide) rfl) ?_
    refine (orderlyLeads_turn (Sample.readingAt 0) bothStarted 0 (by decide) (.inr ?_)).trans ?_
    · rintro p (_ | ⟨_, _ | ⟨_, ⟨⟩⟩⟩)
      · exact .inl (storing_publish _ _)
      · exact .inl (storing_publish _ _)
    refine (orderlyLeads_turn (Sample.readingAt 0) _ 0 (by decide) (.inl rfl)).trans ?_
    refine (orderlyLeads_turn (Sample.readingAt 0) _ 1 (by decide) (.inr ?_)).trans ?_
    · rintro p (_ | ⟨_, _ | ⟨_, ⟨⟩⟩⟩)
      · exact .inr (.quiet rfl fun _ => .quiet rfl fun _ => .done trivial)
      · exact .inl (storing_publish _ _)
    exact orderlyLeads_turn (Sample.readingAt 0) _ 1 (by decide) (.inl rfl)
  exact ⟨_, hs, rfl, (revision_order_without_overlap hs).1⟩

/-- The store did not take an event into a lane. -/
def isFailedEnqueue : Said → Bool
  | ⟨.queue (.enqueue ..), .error (.storage _)⟩ => true
  | _ => false

/-- The second stores and enqueues its event after the first has stored its own and before it has
enqueued it: then the lane has the later revision first. -/
theorem not_rising_with_overlap :
    ¬ ∀ registry s, System.Reachable registry s →
      (∀ p ∈ s.parties, isPlain p.task = true ∧ ∀ x ∈ p.said, isFailedEnqueue x = false) →
      s.memory.log.DistinctIds → ∀ flow, Rising (s.memory.queue.items flow) := by
  intro hall
  have hreach : System.Reachable Sample.registry
      ([0, 1, 1, 0].foldl (turn (Sample.readingAt 0)) bothStarted) :=
    reachable_bothStarted.trans (leads_turns _ _ _)
  have hrising := hall _ _ hreach (by decide) (by decide) "mail"
  have hitems : ([0, 1, 1, 0].foldl (turn (Sample.readingAt 0)) bothStarted).memory.queue.items
      "mail" = [Sample.placed 2, Sample.placed 1] := rfl
  rw [hitems] at hrising
  revert hrising
  unfold Rising
  decide

end Delivery

end EventRelay
