import EventRelay.Proofs.Queue.Exclusion

/-!
# How a queue keeps its lanes

A queue keeps a lane for just those names under which something waits. Within a lane the keys are
distinct, from the head on the sequence numbers rise, and none is used twice in the whole queue.
So an operation that gets past the check of its lock finds a head, and a lane that can be leased
has one to hand out. All of it is read off `WF`, which every call keeps, and nothing is asked of the
callers or the clock.
-/

namespace EventRelay.Queue

variable {τ : Type} [Keyed τ] {q : Queue τ} {name : String} {l : Lane τ} {lock : Lock}
  {now : Instant} {r : Call.Reading} {c : QueueCall τ}

/-- The lanes of a queue as they are kept. -/
structure WellKept (q : Queue τ) : Prop where
  /-- No name has two lanes. -/
  names : (ByName.names q.lanes).Nodup
  occupied : ∀ name l, (name, l) ∈ q.lanes → l.entries ≠ []
  /-- An entry is kept under the key of its item. -/
  keyed : ∀ e ∈ q.entries, e.key = Keyed.key e.item
  distinct : ∀ name l, (name, l) ∈ q.lanes → (l.entries.map (·.key)).Nodup
  /-- From the head of a lane to its end the sequence numbers rise. -/
  rising : ∀ name l, (name, l) ∈ q.lanes → (l.entries.map (·.sequence)).Pairwise (· < ·)
  /-- No sequence number is used twice, in one lane or in two. -/
  apart : (q.entries.map (·.sequence)).Nodup
  below : ∀ e ∈ q.entries, e.sequence < q.nextSequence
  leased : ∀ name l lease, (name, l) ∈ q.lanes → l.lease = some lease → lease.lane = name

/-- What the operations find in the lanes: never a lane without a head. -/
structure NeverVacant (q : Queue τ) : Prop where
  /-- Nothing is handed out only where no lane can be leased. -/
  lease_eq_none : ∀ now expiration fresh, (q.lease now expiration fresh).1 = none ↔
    ∀ name l, (name, l) ∈ q.lanes → l.isLeasableAt now = false
  /-- What is handed out is the head of a lane that can be leased. -/
  lease_eq_some : ∀ now expiration fresh leased,
    (q.lease now expiration fresh).1 = some leased → ∃ l head, (leased.lease.lane, l) ∈ q.lanes ∧
      l.isLeasableAt now = true ∧ l.entries.head? = some head ∧ leased.item = head.item ∧
        leased.priority = head.priority
  /-- Behind the check of the lock a head is found, so nothing else refuses to take it off or to
  move it. -/
  opened : ∀ lock now l, q.lockedLane lock now = .ok l → ∃ head,
    l.entries.head? = some head ∧ (q.acknowledge lock now).1 = .ok head.item ∧
      ∀ priority, (q.defer lock priority now).1 = .ok ()
  /-- A lock is refused for want of an item exactly if nothing waits in its lane. -/
  itemNotFound : ∀ r c lock lane,
    Exchange.refused? ⟨r, c, (Memory.answerQueue q r c).1⟩ = some (lock, .itemNotFound lane) ↔
      Exchange.presented? ⟨r, c, (Memory.answerQueue q r c).1⟩ = some lock ∧ lane = lock.lane ∧
        ∀ key, q.isQueued lane key = false
  /-- The queue is empty exactly if it keeps no lane. -/
  isEmpty : q.isEmpty = true ↔ q.lanes = []

namespace WF

/-! ## The lanes that are kept -/

theorem mem_lanes_iff (h : q.WF) : (name, l) ∈ q.lanes ↔ q.lane? name = some l :=
  h.ascending.mem_iff

theorem laneAt_of_mem (h : q.WF) (hm : (name, l) ∈ q.lanes) : q.laneAt name = l :=
  laneAt_eq_of_lane? (h.mem_lanes_iff.1 hm)

theorem lane_of_mem (h : q.WF) (hm : (name, l) ∈ q.lanes) : l.WF name q.nextSequence :=
  h.laneAt_of_mem hm ▸ h.lane name

theorem exists_lane (h : q.WF) {e : Entry τ} (he : e ∈ q.entries) :
    ∃ name, e ∈ (q.laneAt name).entries := by
  obtain ⟨⟨name, l⟩, hm, he⟩ := List.mem_flatMap.1 he
  exact ⟨name, h.laneAt_of_mem hm ▸ he⟩

/-- No sequence number stands twice in the whole queue, as lanes are apart in `Queue.WF`. -/
theorem nodup_sequences (h : q.WF) : (q.entries.map (·.sequence)).Nodup := by
  rw [entries, List.map_flatMap, List.nodup_flatMap]
  constructor
  · rintro ⟨name, l⟩ hm
    exact (h.lane_of_mem hm).ascending.imp Nat.ne_of_lt
  · -- two lanes have different names, and no sequence number in common
    have hnames : q.lanes.Pairwise fun x y => x.1 < y.1 := List.pairwise_map.1 h.ascending
    refine hnames.imp_of_mem ?_
    rintro ⟨name, l⟩ ⟨other, l'⟩ hm hm' hlt n hn hn'
    obtain ⟨e, he, rfl⟩ := List.mem_map.1 hn
    obtain ⟨e', he', heq⟩ := List.mem_map.1 hn'
    have hne : name ≠ other := fun heq => String.lt_irrefl other (heq ▸ hlt)
    rw [← h.laneAt_of_mem hm] at he
    rw [← h.laneAt_of_mem hm'] at he'
    exact h.apart name other hne e he e' he' heq.symm

/-- A queue that is `WF` is `WellKept`. -/
theorem wellKept (h : q.WF) : q.WellKept where
  names := by
    apply List.Pairwise.imp _ h.ascending
    rintro name _ hlt rfl
    exact String.lt_irrefl name hlt
  occupied name l hm := h.occupied name l (h.mem_lanes_iff.1 hm)
  keyed e he := by
    obtain ⟨name, he⟩ := h.exists_lane he
    exact (h.lane name).keyed e he
  distinct name l hm := (h.lane_of_mem hm).distinct
  rising name l hm := (h.lane_of_mem hm).ascending
  apart := h.nodup_sequences
  below e he := by
    obtain ⟨name, he⟩ := h.exists_lane he
    exact (h.lane name).below e he
  leased name l lease hm hl := (h.lane_of_mem hm).leased lease hl

/-! ## What is found in them -/

omit [Keyed τ] in
theorem entries_eq_nil_iff_isQueued (q : Queue τ) (name : String) :
    (q.laneAt name).entries = [] ↔ ∀ key, q.isQueued name key = false := by
  simp only [isQueued_eq, Bool.eq_false_iff, ne_eq, Lane.hasKey_iff]
  constructor
  · rintro hnil key ⟨e, he, -⟩
    rw [hnil] at he
    cases he
  · intro hnone
    apply List.eq_nil_iff_forall_not_mem.2
    exact fun e he => hnone e.key ⟨e, he, rfl⟩

/-- `lease` hands out the head of a lane that is kept and can be leased, or there is none. -/
theorem lease_fst (h : q.WF) (now : Instant) (expiration : Duration) (fresh : Uuid) :
    ((q.lease now expiration fresh).1 = none ∧
      ∀ name l, (name, l) ∈ q.lanes → l.isLeasableAt now = false) ∨
    ∃ name l head, (name, l) ∈ q.lanes ∧ l.isLeasableAt now = true ∧
      l.entries.head? = some head ∧ (q.lease now expiration fresh).1 =
        some ⟨head.item, head.priority, Lease.grant name fresh now expiration⟩ := by
  rcases h.lease_cases now expiration fresh with
    ⟨hnone, hbusy⟩ | ⟨name, head, rest, he, hfree, -, hsome⟩
  · refine .inl ⟨by rw [hnone], fun name l hm => ?_⟩
    have hlane := h.laneAt_of_mem hm
    have hbusy := hbusy name
    rw [hlane] at hbusy
    exact hbusy (h.occupied name l (h.mem_lanes_iff.1 hm))
  · refine .inr ⟨name, q.laneAt name, head, ?_, hfree, by rw [he]; rfl, by rw [hsome]⟩
    exact h.mem_lanes_iff.2 (lane?_eq_of_entries (by simp [he]))

/-- A call that presents a lock is refused for what `lockedLane` finds wrong with the lock, and for
nothing else. -/
theorem refused?_eq (h : q.WF)
    (hp : Exchange.presented? ⟨r, c, (Memory.answerQueue q r c).1⟩ = some lock) :
    Exchange.refused? ⟨r, c, (Memory.answerQueue q r c).1⟩ =
      match q.lockedLane lock r.now with
      | .error e => some (lock, e)
      | .ok _ => none := by
  cases c with
  | enqueue | lease | sweep | isQueued => simp [Exchange.presented?] at hp
  | renew lock' | release lock' | acknowledge lock' | defer lock' =>
    obtain rfl : lock' = lock := by simpa [Exchange.presented?] using hp
    rcases h.lockedLane_cases lock' r.now with ⟨e, hl⟩ | ⟨head, rest, lease, he, -, -, -, hl⟩
    · simp [Memory.answerQueue, Queue.renew, Queue.release, Queue.acknowledge, Queue.defer, hl,
        Exchange.refused?]
    · simp [Memory.answerQueue, Queue.renew, Queue.release, Queue.acknowledge, Queue.defer, hl, he,
        Exchange.refused?]

/-- `lockedLane` says `QueueError.itemNotFound` exactly if nothing is in the lane of the lock. -/
theorem lockedLane_eq_itemNotFound_iff (h : q.WF) {lane : String} :
    q.lockedLane lock now = .error (.itemNotFound lane) ↔
      lane = lock.lane ∧ (q.laneAt lock.lane).entries = [] := by
  rw [h.lockedLane_eq]
  split
  · next hnil =>
    simp [hnil, eq_comm]
  · next hne =>
    simp only [hne, and_false, iff_false]
    split
    · simp
    · split
      · simp
      · split <;> simp

/-- `isEmpty` says of a queue that is `WF` that it keeps no lane. -/
theorem isEmpty_iff (h : q.WF) : q.isEmpty = true ↔ q.lanes = [] := by
  rw [isEmpty, beq_iff_eq, length, List.length_eq_zero_iff, entries, List.flatMap_eq_nil_iff]
  constructor
  · intro hnil
    apply List.eq_nil_iff_forall_not_mem.2
    rintro ⟨name, l⟩ hm
    exact h.occupied name l (h.mem_lanes_iff.1 hm) (hnil _ hm)
  · intro hnil
    simp [hnil]

/-- A queue that is `WF` is `NeverVacant`. -/
theorem neverVacant (h : q.WF) : q.NeverVacant where
  lease_eq_none now expiration fresh := by
    rcases h.lease_fst now expiration fresh with
      ⟨hnone, hbusy⟩ | ⟨name, l, head, hm, hfree, -, hsome⟩
    · exact ⟨fun _ => hbusy, fun _ => hnone⟩
    · rw [hsome]
      refine ⟨nofun, fun hbusy => ?_⟩
      rw [hbusy name l hm] at hfree
      cases hfree
  lease_eq_some now expiration fresh leased hleased := by
    rcases h.lease_fst now expiration fresh with
      ⟨hnone, -⟩ | ⟨name, l, head, hm, hfree, hhead, hsome⟩
    · rw [hnone] at hleased
      cases hleased
    · rw [hsome] at hleased
      obtain rfl := Option.some.inj hleased
      exact ⟨l, head, hm, hfree, hhead, rfl, rfl⟩
  opened lock now l hopen := by
    rcases h.lockedLane_cases lock now with ⟨e, hl⟩ | ⟨head, rest, lease, he, -, -, -, hl⟩
    · rw [hl] at hopen
      cases hopen
    · obtain rfl := Except.ok.inj (hl.symm.trans hopen)
      refine ⟨head, by rw [he]; rfl, ?_, fun priority => ?_⟩
      · rw [acknowledge_ok he hl]
      · rw [defer_ok priority he hl]
  itemNotFound r c lock lane := by
    constructor
    · intro hr
      have hp := Exchange.presented?_of_refused? hr
      rw [h.refused?_eq hp] at hr
      cases hl : q.lockedLane lock r.now with
      | ok l => simp [hl] at hr
      | error e =>
        obtain rfl : e = .itemNotFound lane := by simpa [hl] using hr
        obtain ⟨rfl, hnil⟩ := h.lockedLane_eq_itemNotFound_iff.1 hl
        exact ⟨hp, rfl, (entries_eq_nil_iff_isQueued q _).1 hnil⟩
    · rintro ⟨hp, rfl, hnone⟩
      have hnil := (entries_eq_nil_iff_isQueued q _).2 hnone
      rw [h.refused?_eq hp, h.lockedLane_eq_itemNotFound_iff.2 ⟨rfl, hnil⟩]
  isEmpty := h.isEmpty_iff

end WF

/-- **How a queue keeps its lanes.** Whatever calls come, with whatever tokens and at whatever
readings of the clock: every lane that is kept has an entry, keys are distinct in a lane and
sequence numbers in the whole queue, where they rise from head to end, and a lease says what lane it
is on. So no operation comes across a lane without a head, what is asked of a lane with nothing in
it is refused as such and nothing else is, and the queue is empty exactly if it keeps no lane. -/
theorem lanes_well_kept (calls : List (Call.Reading × QueueCall τ)) :
    ((Queue.empty : Queue τ).after calls).WellKept ∧
      ((Queue.empty : Queue τ).after calls).NeverVacant := by
  have h : ((Queue.empty : Queue τ).after calls).WF := WF.empty.after calls
  exact ⟨h.wellKept, h.neverVacant⟩

/-- A refused deferring uses up a sequence number, so numbers below the next one may be missing. -/
example : ((Queue.empty : Queue String).after
    [(Sample.readingAt 0, .defer ⟨"a", .ofNat 1⟩ 3), (Sample.readingAt 1, .enqueue "a" "job" 3)]
      ).entries.map (·.sequence) = [1] := by
  decide

end EventRelay.Queue
