import EventRelay.Proofs.Queue.Refinement

/-!
# What waits in the lanes

Every well-formed queue is the model of its own lanes, with its sequence numbers as stamps, so what
the model allows holds of a queue in any state. Here: no call but an enqueueing brings an item into
a lane, and what is acknowledged waited in the lane.
-/

namespace EventRelay.Queue

open Reference

variable {τ : Type}

/-- The items that wait in the lane of a name, the head first. -/
def items (q : Queue τ) (name : String) : List τ := (q.laneAt name).entries.map (·.item)

/-- No lane is leased. -/
def Unleased (q : Queue τ) : Prop := ∀ name, (q.laneAt name).lease = none

/-- The `Model` that a queue is, with sequence numbers for stamps. -/
def toModel (q : Queue τ) : Model τ where
  line name :=
    { items := (q.laneAt name).entries.map fun e => ⟨e.item, e.priority, e.sequence⟩
      lease := (q.laneAt name).lease.map fun x => (x.token, x.expiresAt) }
  placed := q.nextSequence

variable [Keyed τ] {q : Queue τ}

/-- A queue that is `WF` simulates the model that it is. -/
theorem WF.simulates (h : q.WF) : Simulates id q q.toModel where
  wf := h
  lane name := by
    refine Lane.ext ?_ ?_
    · simp only [Line.toLane, toModel, List.map_map]
      refine (List.map_id _).symm.trans (List.map_congr_left fun e he => ?_)
      simp [← (h.lane name).keyed e he]
    · simp only [Line.toLane, toModel, Option.map_map]
      cases hl : (q.laneAt name).lease with
      | none => rfl
      | some x => simp [← (h.lane name).leased x hl]
  stamped name x hx := by
    obtain ⟨e, he, rfl⟩ := List.mem_map.1 hx
    exact (h.lane name).below e he
  ordered _ _ hst _ := hst
  below _ hs := hs

theorem Simulates.items_eq {number : Nat → Nat} {m : Model τ} (h : Simulates number q m)
    (name : String) : q.items name = (m.line name).items.map (·.item) := by
  rw [items, h.entries_laneAt, List.map_map]
  rfl

/-- What waits in the model after a call that it `Allows` waited before, or is what the call
enqueued. -/
theorem Reference.Allows.mem_items {m m' : Model τ} {r : Call.Reading} {c : QueueCall τ}
    {a : c.Answer} (h : Allows m r c a m') {name : String} {y : Placed τ}
    (hy : y ∈ (m'.line name).items) :
    (∃ x ∈ (m.line name).items, x.item = y.item) ∨
      ∃ priority, c = .enqueue name y.item priority := by
  cases h with
  | @enqueued name' item priority hn =>
    simp only [Model.place, Model.put] at hy
    split at hy
    · next heq =>
      subst heq
      rcases List.mem_append.1 hy with hy | hy
      · exact .inl ⟨y, hy, rfl⟩
      · rw [List.mem_singleton.1 hy]
        exact .inr ⟨priority, rfl⟩
    · exact .inl ⟨y, hy, rfl⟩
  | leased | renewed | released =>
    simp only [Model.put] at hy
    split at hy
    · next heq => exact .inl ⟨y, heq ▸ hy, rfl⟩
    · exact .inl ⟨y, hy, rfl⟩
  | acknowledged _ hx =>
    simp only [Model.put] at hy
    split at hy
    · next heq => exact .inl ⟨y, heq ▸ hx ▸ List.mem_cons_of_mem _ hy, rfl⟩
    · exact .inl ⟨y, hy, rfl⟩
  | @deferred lock priority x rest _ hx =>
    simp only [Model.place, Model.put] at hy
    split at hy
    · next heq =>
      subst heq
      rcases List.mem_append.1 hy with hy | hy
      · exact .inl ⟨y, hx ▸ List.mem_cons_of_mem _ hy, rfl⟩
      · rw [List.mem_singleton.1 hy]
        exact .inl ⟨x, hx ▸ List.mem_cons_self, rfl⟩
    · exact .inl ⟨y, hy, rfl⟩
  | swept | alreadyQueued | nothing | renewRefused | releaseRefused | acknowledgeRefused
  | deferRefused | isQueued => exact .inl ⟨y, hy, rfl⟩

/-- What waits after a call waited before, or was enqueued by the call:
`Reference.Allows.mem_items`, for the queue. -/
theorem WF.mem_items_answer (h : q.WF) {r : Call.Reading} {c : QueueCall τ} {name : String}
    {item : τ} (hi : item ∈ (Memory.answerQueue q r c).2.items name) :
    item ∈ q.items name ∨ ∃ priority, c = .enqueue name item priority := by
  obtain ⟨number, m', hallows, hsim⟩ := h.simulates.answer r c
  rw [hsim.items_eq] at hi
  obtain ⟨y, hy, rfl⟩ := List.mem_map.1 hi
  rcases hallows.mem_items hy with ⟨x, hx, hxy⟩ | hc
  · rw [h.simulates.items_eq, ← hxy]
    exact .inl (List.mem_map_of_mem hx)
  · exact .inr hc

/-- What a `QueueCall.acknowledge` gives waited in the lane. -/
theorem WF.mem_items_of_acknowledge (h : q.WF) {r : Call.Reading} {lock : Lock} {item : τ}
    (hok : (Memory.answerQueue q r (.acknowledge lock)).1 = .ok item) :
    item ∈ q.items lock.lane := by
  obtain ⟨number, m', hallows, -⟩ := h.simulates.answer r (.acknowledge lock)
  rw [hok] at hallows
  cases hallows with
  | acknowledged _ hx =>
    rw [h.simulates.items_eq, hx]
    exact List.mem_cons_self

/-! ## What stays and what goes -/

omit [Keyed τ] in
theorem entries_setLease (q : Queue τ) (name other : String) (lease : Option Lease) :
    ((q.setLane name { q.laneAt name with lease := lease }).laneAt other).entries =
      (q.laneAt other).entries := by
  rw [laneAt_setLane]
  split
  · next heq => rw [heq]
  · rfl

theorem WF.entries_lease (h : q.WF) (now : Instant) (expiration : Duration) (fresh : Uuid)
    (name : String) :
    ((q.lease now expiration fresh).2.laneAt name).entries = (q.laneAt name).entries := by
  rcases h.lease_cases now expiration fresh with ⟨hq, -⟩ | ⟨other, head, rest, -, -, -, hq⟩
  · rw [hq]
  · rw [hq]
    exact entries_setLease q other name _

theorem WF.entries_renew (h : q.WF) (lock : Lock) (now : Instant) (expiration : Duration)
    (name : String) :
    ((q.renew lock now expiration).2.laneAt name).entries = (q.laneAt name).entries := by
  rcases h.lockedLane_cases lock now with ⟨e, hl⟩ | ⟨head, rest, lease, -, -, -, -, hl⟩
  · simp only [Queue.renew, hl]
  · simp only [Queue.renew, hl, entries_setLease]

theorem WF.entries_release (h : q.WF) (lock : Lock) (now : Instant) (name : String) :
    ((q.release lock now).2.laneAt name).entries = (q.laneAt name).entries := by
  rcases h.lockedLane_cases lock now with ⟨e, hl⟩ | ⟨head, rest, lease, -, -, -, -, hl⟩
  · simp only [Queue.release, hl]
  · simp only [Queue.release, hl, entries_setLease]

theorem WF.items_lease (h : q.WF) (now : Instant) (expiration : Duration) (fresh : Uuid)
    (name : String) : (q.lease now expiration fresh).2.items name = q.items name := by
  rw [items, h.entries_lease, items]

theorem WF.items_renew (h : q.WF) (lock : Lock) (now : Instant) (expiration : Duration)
    (name : String) : (q.renew lock now expiration).2.items name = q.items name := by
  rw [items, h.entries_renew, items]

theorem WF.items_release (h : q.WF) (lock : Lock) (now : Instant) (name : String) :
    (q.release lock now).2.items name = q.items name := by
  rw [items, h.entries_release, items]

/-- `sweep` takes leases off and leaves what waits. -/
theorem WF.items_sweep (h : q.WF) (now : Instant) (name : String) :
    (q.sweep now).2.items name = q.items name := by
  unfold items
  rw [h.laneAt_sweep, sweepLane_entries]

/-- What `acknowledge` takes is the head, and nothing else goes. -/
theorem WF.acknowledge_cases (h : q.WF) (lock : Lock) (now : Instant) :
    (∃ e, q.acknowledge lock now = (.error e, q)) ∨
      ∃ item q', q.acknowledge lock now = (.ok item, q') ∧
        ∀ name, q.items name =
          if name = lock.lane then item :: q'.items name else q'.items name := by
  rcases h.lockedLane_cases lock now with ⟨e, hl⟩ | ⟨head, rest, lease, he, -, -, -, hl⟩
  · left
    exact ⟨e, by simp only [Queue.acknowledge, hl]⟩
  · right
    refine ⟨head.item, _, acknowledge_ok he hl, ?_⟩
    intro name
    unfold items
    rw [laneAt_setOrDrop h.ascending]
    by_cases heq : name = lock.lane
    · simp [heq, he]
    · simp [heq]

/-- What `defer` moves is the head, and it goes to the end. -/
theorem WF.defer_cases (h : q.WF) (lock : Lock) (priority : Int) (now : Instant) :
    (∃ e q', q.defer lock priority now = (.error e, q') ∧ ∀ name, q'.items name = q.items name) ∨
      ∃ item rest q', q.defer lock priority now = (.ok (), q') ∧ q.items lock.lane = item :: rest ∧
        ∀ name, q'.items name = if name = lock.lane then rest ++ [item] else q.items name := by
  rcases h.lockedLane_cases lock now with ⟨e, hl⟩ | ⟨head, rest, lease, he, -, -, -, hl⟩
  · left
    refine ⟨e, { q with nextSequence := q.nextSequence + 1 }, ?_, ?_⟩
    · simp only [Queue.defer, hl]
    · intro name
      rfl
  · right
    refine ⟨head.item, rest.map (·.item), _, defer_ok priority he hl, ?_, ?_⟩
    · simp [items, he]
    · intro name
      unfold items
      rw [laneAt_nextSequence, laneAt_setLane]
      by_cases heq : name = lock.lane
      · simp [heq, movedEntry]
      · simp [heq]

end EventRelay.Queue
