import EventRelay.Proofs.Broker.System
import EventRelay.Proofs.Log.Streams
import EventRelay.Proofs.Progress
import EventRelay.Proofs.Queue.Items
import Mathlib.Order.Basic

/-!
# What always holds of the broker

A world is a memory together with the acknowledgements that are completed, and it cannot be built
unless they agree: what waits in lanes is stored, what was acknowledged is settled, and what is
settled was acknowledged or is nothing that the flow wants. Each part changes by a step of its own
from one world to a later one. Whatever a party found out about a world holds of all later ones, so
it may act on it however stale it is.
-/

namespace EventRelay

/-- Nothing is left to do for a flow about a revision: it was acknowledged, or it is that of a
stored event that `Registry.routesTo` does not give to the flow. Revision 0 is that of no event. -/
def Passed (registry : Registry) (log : EventLog) (completed : String → Uuid → Nat → Prop)
    (flow : String) (aggregate : Uuid) (revision : Nat) : Prop :=
  revision = 0 ∨ completed flow aggregate revision ∨
    ∃ e ∈ log.events, e.aggregateId = aggregate ∧ e.revision = revision ∧
      registry.routesTo e flow = false

/-- A queue in `Queue.WF` in which no event waits that is not stored. -/
structure Stocked (l : EventLog) (q : Queue Event) : Prop where
  wf : q.WF
  stored : ∀ flow, ∀ e ∈ q.items flow, e ∈ l.events

/-- The log, the queue and the progress agree with each other and with what was acknowledged. -/
structure Lawful (registry : Registry) (m : Memory) (completed : String → Uuid → Nat → Prop) :
    Prop where
  numbered : m.log.Numbered
  stocked : Stocked m.log m.queue
  acknowledged : ∀ flow aggregate revision, completed flow aggregate revision →
    ∃ e ∈ m.log.events, e.aggregateId = aggregate ∧ e.revision = revision
  recorded : ∀ flow aggregate revision, completed flow aggregate revision →
    m.progress.Settled flow aggregate revision
  justified : ∀ flow aggregate revision, m.progress.Settled flow aggregate revision →
    Passed registry m.log completed flow aggregate revision

/-- A `Memory` and the acknowledgements that are completed, `Lawful` together. -/
structure World (registry : Registry) where
  memory : Memory
  completed : String → Uuid → Nat → Prop
  lawful : Lawful registry memory completed

namespace World

variable {registry : Registry}

/-- Nothing is taken back from one `World` to a later one. -/
structure Le (w w' : World registry) : Prop where
  stored : w.memory.log.events <+: w'.memory.log.events
  settled : ∀ flow aggregate revision, w.memory.progress.Settled flow aggregate revision →
    w'.memory.progress.Settled flow aggregate revision
  completed : ∀ flow aggregate revision, w.completed flow aggregate revision →
    w'.completed flow aggregate revision

instance : Preorder (World registry) where
  le := Le
  le_refl _ := ⟨List.prefix_refl _, fun _ _ _ h => h, fun _ _ _ h => h⟩
  le_trans _ _ _ h h' :=
    ⟨h.stored.trans h'.stored, fun f a r hs => h'.settled f a r (h.settled f a r hs),
      fun f a r hc => h'.completed f a r (h.completed f a r hc)⟩

variable {w w' : World registry} {e : Event} {flow : String} {a : Uuid} {r : Nat}

theorem stored_of_le (h : w ≤ w') (he : e ∈ w.memory.log.events) : e ∈ w'.memory.log.events :=
  h.stored.subset he

/-- Nothing is left to do for a flow about a revision in this world. -/
def Passed (w : World registry) (flow : String) (a : Uuid) (r : Nat) : Prop :=
  EventRelay.Passed registry w.memory.log w.completed flow a r

/-- What is settled is `World.Passed`, as a world is `Lawful`. -/
theorem passed_of_settled (h : w.memory.progress.Settled flow a r) : w.Passed flow a r :=
  w.lawful.justified flow a r h

/-- What is `World.Passed` stays so. -/
theorem Passed.mono (hp : w.Passed flow a r) (h : w ≤ w') : w'.Passed flow a r := by
  rcases hp with hp | hp | ⟨e, he, hagg, hrev, hroute⟩
  · exact .inl hp
  · exact .inr (.inl (h.completed flow a r hp))
  · exact .inr (.inr ⟨e, stored_of_le h he, hagg, hrev, hroute⟩)

/-- An event that `Registry.routesTo` gives to the flow is settled exactly if it was
acknowledged. -/
theorem settled_iff (w : World registry) (he : e ∈ w.memory.log.events)
    (hroute : registry.routesTo e flow = true) :
    w.memory.progress.Settled flow e.aggregateId e.revision ↔
      w.completed flow e.aggregateId e.revision := by
  refine ⟨fun hs => ?_, w.lawful.recorded flow _ _⟩
  have hn := w.lawful.numbered
  rcases w.passed_of_settled hs with hzero | hc | ⟨e', he', hagg, hrev, hroute'⟩
  · exact absurd hzero (Nat.ne_of_gt (hn.revision_pos he))
  · exact hc
  · obtain rfl := hn.eq_of_revision_eq he' he hagg hrev
    rw [hroute] at hroute'
    cases hroute'

/-- A revision that is `World.Passed` is not beyond the latest. -/
theorem le_latest_of_passed (w : World registry) (h : w.Passed flow a r) :
    r ≤ w.memory.log.latest a := by
  have hn := w.lawful.numbered
  rcases h with hzero | hc | ⟨e, he, rfl, rfl, -⟩
  · omega
  · obtain ⟨e, he, rfl, rfl⟩ := w.lawful.acknowledged _ _ _ hc
    exact hn.revision_le_latest he
  · exact hn.revision_le_latest he

/-! ## Steps -/

/-- The `World` of a broker that nobody has called yet. -/
def initial : World registry where
  memory := {}
  completed _ _ _ := False
  lawful :=
    { numbered := EventLog.numbered_empty
      stocked := ⟨Queue.WF.empty, fun _ _ he => by cases he⟩
      acknowledged := fun _ _ _ h => h.elim
      recorded := fun _ _ _ h => h.elim
      justified := fun _ _ _ h => by
        left
        simpa [ProgressTable.get] using Progress.isSettled_iff.1 h }

/-- The world after an accepted batch. -/
def store (w : World registry) {batch : List Event} {l : EventLog}
    (h : w.memory.log.append batch = .ok l) : World registry where
  memory := { w.memory with log := l }
  completed := w.completed
  lawful := by
    obtain ⟨rfl, -⟩ := EventLog.append_eq_ok h
    have hsub : ∀ e ∈ w.memory.log.events, e ∈ w.memory.log.events ++ batch :=
      fun e he => List.mem_append_left _ he
    refine
      { numbered := w.lawful.numbered.append h
        stocked :=
          ⟨w.lawful.stocked.wf, fun f e he => hsub e (w.lawful.stocked.stored f e he)⟩
        acknowledged := fun f a r hc => ?_
        recorded := w.lawful.recorded
        justified := fun f a r hs => ?_ }
    · obtain ⟨e, he, h⟩ := w.lawful.acknowledged f a r hc
      exact ⟨e, hsub e he, h⟩
    · rcases w.lawful.justified f a r hs with hz | hc | ⟨e, he, h⟩
      · exact .inl hz
      · exact .inr (.inl hc)
      · exact .inr (.inr ⟨e, hsub e he, h⟩)

theorem le_store {batch : List Event} {l : EventLog} (h : w.memory.log.append batch = .ok l) :
    w ≤ w.store h := by
  obtain ⟨rfl, -⟩ := EventLog.append_eq_ok h
  exact ⟨List.prefix_append _ _, fun _ _ _ hs => hs, fun _ _ _ hc => hc⟩

theorem mem_store {batch : List Event} {l : EventLog} (h : w.memory.log.append batch = .ok l)
    (he : e ∈ batch) : e ∈ (w.store h).memory.log.events := by
  obtain ⟨rfl, -⟩ := EventLog.append_eq_ok h
  exact List.mem_append_right _ he

/-- The world with another queue, in which nothing waits that is not stored. -/
def requeue (w : World registry) (q : Queue Event) (hq : Stocked w.memory.log q) :
    World registry where
  memory := { w.memory with queue := q }
  completed := w.completed
  lawful := { w.lawful with stocked := hq }

/-- The world after the watermark went up to a revision, if all up to there is `World.Passed`. -/
def advance (w : World registry) (flow : String) (a : Uuid) (n : Nat)
    (h : ∀ r ≤ n, w.Passed flow a r) : World registry where
  memory := { w.memory with progress := w.memory.progress.advance flow a n }
  completed := w.completed
  lawful :=
    { w.lawful with
      recorded := fun f b r hc =>
        ProgressTable.settled_advance.2 (.inl (w.lawful.recorded f b r hc))
      justified := fun f b r hs => by
        rcases ProgressTable.settled_advance.1 hs with hs | ⟨rfl, rfl, hr⟩
        · exact w.lawful.justified f b r hs
        · exact h r hr }

theorem le_advance {n : Nat} (h : ∀ r ≤ n, w.Passed flow a r) : w ≤ w.advance flow a n h :=
  ⟨List.prefix_refl _, fun _ _ _ hs => ProgressTable.settled_advance.2 (.inl hs),
    fun _ _ _ hc => hc⟩

/-- The world after an event was acknowledged and the progress recorded. -/
def record (w : World registry) (flow : String) (e : Event) (he : e ∈ w.memory.log.events) :
    World registry where
  memory :=
    { w.memory with progress := w.memory.progress.record flow e.aggregateId e.revision }
  completed f b r := w.completed f b r ∨ (f = flow ∧ b = e.aggregateId ∧ r = e.revision)
  lawful :=
    { numbered := w.lawful.numbered
      stocked := w.lawful.stocked
      acknowledged := fun f b r hc => by
        rcases hc with hc | ⟨rfl, rfl, rfl⟩
        · exact w.lawful.acknowledged f b r hc
        · exact ⟨e, he, rfl, rfl⟩
      recorded := fun f b r hc => by
        rw [ProgressTable.settled_record]
        exact hc.imp_left (w.lawful.recorded f b r)
      justified := fun f b r hs => by
        rcases ProgressTable.settled_record.1 hs with hs | hnew
        · rcases w.lawful.justified f b r hs with hz | hc | hunrouted
          · exact .inl hz
          · exact .inr (.inl (.inl hc))
          · exact .inr (.inr hunrouted)
        · exact .inr (.inl (.inr hnew)) }

theorem le_record (he : e ∈ w.memory.log.events) : w ≤ w.record flow e he :=
  ⟨List.prefix_refl _, fun _ _ _ hs => ProgressTable.settled_record.2 (.inl hs),
    fun _ _ _ hc => .inl hc⟩

end World

end EventRelay
