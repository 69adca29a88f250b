import EventRelay.Proofs.Queue.Reference

/-!
# The queue refines its reference model

Sequence numbers and stamps differ, for a refused deferring uses up a sequence number and no stamp.
So the simulation carries a map from stamps to sequence numbers that keeps their order. A queue is
then the model read through that map, lane by lane; in particular a lease that has run out lingers
in both or in neither.
-/

namespace EventRelay.Queue

open Reference

variable {τ : Type} [Keyed τ]

/-- The `Lane` that a line stands for where `number` tells the sequence numbers of stamps. -/
def Reference.Line.toLane (number : Nat → Nat) (name : String) (l : Line τ) : Lane τ where
  entries := l.items.map fun x => ⟨x.item, Keyed.key x.item, x.priority, number x.stamp⟩
  lease := l.lease.map fun (token, expiry) => ⟨name, token, expiry⟩

theorem sweepLane_toLane (number : Nat → Nat) (name : String) (l : Line τ) (now : Instant) :
    sweepLane now (l.toLane number name) = (l.sweep now).toLane number name := by
  have hlease : ((l.toLane number name).lease.filter fun x => !x.isExpiredAt now) =
      ((l.sweep now).toLane number name).lease := by
    simp only [Line.toLane, Line.sweep, Option.filter_map]
    rfl
  rw [← sweepLane_lease] at hlease
  exact Lane.ext (sweepLane_entries now _) hlease

/-- A queue is the `Model` with sequence numbers in place of stamps. -/
structure Simulates (number : Nat → Nat) (q : Queue τ) (m : Model τ) : Prop where
  wf : q.WF
  lane : ∀ name, q.laneAt name = (m.line name).toLane number name
  stamped : ∀ name, ∀ x ∈ (m.line name).items, x.stamp < m.placed
  ordered : ∀ s t, s < t → t < m.placed → number s < number t
  below : ∀ s, s < m.placed → number s < q.nextSequence

namespace Simulates

variable {number : Nat → Nat} {q : Queue τ} {m : Model τ} {r : Call.Reading} {lock : Lock}

theorem fresh : Simulates id (Queue.empty : Queue τ) {} where
  wf := WF.empty
  lane _ := rfl
  stamped _ _ hx := by cases hx
  ordered _ _ _ ht := absurd ht (Nat.not_lt_zero _)
  below _ hs := absurd hs (Nat.not_lt_zero _)

/-! ## Reading the lanes off the model -/

theorem entries_laneAt (h : Simulates number q m) (name : String) :
    (q.laneAt name).entries = (m.line name).items.map fun x =>
      ⟨x.item, Keyed.key x.item, x.priority, number x.stamp⟩ := by
  rw [h.lane]
  rfl

theorem lease_laneAt (h : Simulates number q m) (name : String) :
    (q.laneAt name).lease =
      (m.line name).lease.map fun (token, expiry) => ⟨name, token, expiry⟩ := by
  rw [h.lane]
  rfl

theorem hasKey_iff (h : Simulates number q m) {name key : String} :
    (q.laneAt name).hasKey key = true ↔ m.Holds name key := by
  rw [Lane.hasKey_iff, h.entries_laneAt]
  constructor
  · rintro ⟨e, he, hk⟩
    obtain ⟨x, hx, rfl⟩ := List.mem_map.1 he
    exact ⟨x, hx, hk⟩
  · rintro ⟨x, hx, hk⟩
    exact ⟨_, List.mem_map.2 ⟨x, hx, rfl⟩, hk⟩

/-- A lane can be leased exactly if its line has no token. -/
theorem isLeasableAt_iff (h : Simulates number q m) (name : String) (now : Instant) :
    (q.laneAt name).isLeasableAt now = true ↔ (m.line name).token? now = none := by
  unfold Lane.isLeasableAt Line.token?
  rw [h.lease_laneAt]
  rcases (m.line name).lease with _ | ⟨token, expiry⟩
  · simp
  · simp [Lease.isExpiredAt]

/-- What the model offers by `offer?` is the head of a lane that can be leased. -/
theorem offer?_eq_some_iff (h : Simulates number q m) {name : String} {now : Instant}
    {x : Placed τ} :
    (m.line name).offer? now = some x ↔
      (q.laneAt name).isLeasableAt now = true ∧ (m.line name).items.head? = some x := by
  rw [h.isLeasableAt_iff, Line.offer?]
  cases (m.line name).token? now <;> simp

/-- Stamps and sequence numbers put heads in the same order, by `Before` here and there. -/
theorem before_iff (h : Simulates number q m) (name name' : String) {x y : Placed τ}
    (hx : x ∈ (m.line name).items) (hy : y ∈ (m.line name').items) :
    Entry.Before (⟨x.item, Keyed.key x.item, x.priority, number x.stamp⟩ : Entry τ)
      ⟨y.item, Keyed.key y.item, y.priority, number y.stamp⟩ ↔ x.Before y := by
  have hlt : number x.stamp < number y.stamp ↔ x.stamp < y.stamp := by
    refine ⟨fun hlt => ?_, fun hlt => h.ordered _ _ hlt (h.stamped _ y hy)⟩
    rcases Nat.lt_trichotomy x.stamp y.stamp with hs | hs | hs
    · exact hs
    · rw [hs] at hlt
      exact absurd hlt (Nat.lt_irrefl _)
    · exact absurd (h.ordered _ _ hs (h.stamped _ x hx)) (Nat.lt_asymm hlt)
  simp only [Entry.Before, Placed.Before, hlt]

/-- The lock opens the lane in both, by `lockedLane` and by `Model.refusal?`, or is refused by both,
for the same reason. -/
theorem lockedLane_eq (h : Simulates number q m) (lock : Lock) (now : Instant) :
    q.lockedLane lock now =
      match m.refusal? lock now with
      | some e => .error e
      | none => .ok (q.laneAt lock.lane) := by
  rw [h.wf.lockedLane_eq, Model.refusal?, Line.token?, h.entries_laneAt, h.lease_laneAt]
  by_cases hnil : (m.line lock.lane).items = []
  · simp [hnil]
  · rcases (m.line lock.lane).lease with _ | ⟨token, expiry⟩
    · simp [hnil]
    · by_cases hexp : expiry ≤ now
      · simp [hnil, hexp, Lease.isExpiredAt]
      · by_cases htok : token = lock.token
        · simp [hnil, hexp, htok, Lease.isExpiredAt]
        · simp [hnil, hexp, htok, Lease.isExpiredAt]

theorem lockedLane_error (h : Simulates number q m) {e : QueueError} {now : Instant}
    (hl : q.lockedLane lock now = .error e) : m.refusal? lock now = some e := by
  rw [h.lockedLane_eq] at hl
  cases hr : m.refusal? lock now with
  | none => simp [hr] at hl
  | some e' => simpa [hr] using hl

theorem lockedLane_ok (h : Simulates number q m) {l : Lane τ} {now : Instant}
    (hl : q.lockedLane lock now = .ok l) : m.refusal? lock now = none := by
  rw [h.lockedLane_eq] at hl
  cases hr : m.refusal? lock now with
  | none => rfl
  | some e => simp [hr] at hl

/-- The head of a lane stands for the head of its line. -/
theorem items_of_entries (h : Simulates number q m) {name : String} {head : Entry τ}
    {rest : List (Entry τ)} (he : (q.laneAt name).entries = head :: rest) :
    ∃ x items, (m.line name).items = x :: items ∧
      head = ⟨x.item, Keyed.key x.item, x.priority, number x.stamp⟩ ∧
      rest = items.map fun x => ⟨x.item, Keyed.key x.item, x.priority, number x.stamp⟩ := by
  rw [h.entries_laneAt] at he
  obtain ⟨x, items, hx, rfl, rfl⟩ := List.map_eq_cons_iff.1 he
  exact ⟨x, items, hx, rfl, rfl⟩

/-! ## Keeping step -/

/-- Both put a line, of items that were placed before, in place of the same lane: `Model.put`. -/
theorem put (h : Simulates number q m) {q' : Queue τ} {name : String} {l : Line τ} (hq : q'.WF)
    (hnext : q.nextSequence ≤ q'.nextSequence)
    (hat : ∀ other, q'.laneAt other = if other = name then l.toLane number name else q.laneAt other)
    (hl : ∀ x ∈ l.items, x.stamp < m.placed) : Simulates number q' (m.put name l) where
  wf := hq
  lane other := by
    simp only [hat, Model.put]
    split
    · next heq => rw [heq]
    · exact h.lane other
  stamped other x hx := by
    simp only [Model.put] at hx
    split at hx
    · exact hl x hx
    · exact h.stamped other x hx
  ordered := h.ordered
  below s hs := Nat.lt_of_lt_of_le (h.below s hs) hnext

/-- The sequence numbers of stamps, with the next one for the next stamp. -/
def extend (number : Nat → Nat) (q : Queue τ) (m : Model τ) (s : Nat) : Nat :=
  if s = m.placed then q.nextSequence else number s

omit [Keyed τ] in
theorem extend_of_lt {s : Nat} (hs : s < m.placed) : extend number q m s = number s :=
  if_neg (Nat.ne_of_lt hs)

/-- A further sequence number changes no line that is there, as its stamp is new. -/
theorem toLane_extend (h : Simulates number q m) (name : String) :
    (m.line name).toLane (extend number q m) name = (m.line name).toLane number name := by
  simp only [Line.toLane, Lane.mk.injEq, and_true]
  refine List.map_congr_left fun x hx => ?_
  rw [extend_of_lt (h.stamped name x hx)]

/-- Both place an item at the end of a line of items that were placed before: `Model.place`. -/
theorem place (h : Simulates number q m) {q' : Queue τ} {name : String} {l : Line τ} (hq : q'.WF)
    (hnext : q'.nextSequence = q.nextSequence + 1)
    (hat : ∀ other, q'.laneAt other =
      if other = name then l.toLane (extend number q m) name else q.laneAt other)
    (hl : ∀ x ∈ l.items, x.stamp < m.placed + 1) :
    Simulates (extend number q m) q' (m.place name l) where
  wf := hq
  lane other := by
    simp only [hat, Model.place, Model.put]
    split
    · next heq => rw [heq]
    · rw [h.toLane_extend]
      exact h.lane other
  stamped other x hx := by
    simp only [Model.place, Model.put] at hx ⊢
    split at hx
    · exact hl x hx
    · exact Nat.lt_succ_of_lt (h.stamped other x hx)
  -- the new stamp is above all others, and its number is above all that were given
  ordered s t hst ht := by
    simp only [Model.place] at ht
    rw [extend_of_lt (by omega)]
    by_cases heq : t = m.placed
    · rw [extend, if_pos heq]
      exact h.below s (by omega)
    · rw [extend, if_neg heq]
      exact h.ordered s t hst (by omega)
  below s hs := by
    simp only [Model.place] at hs
    rw [hnext]
    by_cases heq : s = m.placed
    · rw [extend, if_pos heq]
      exact Nat.lt_succ_self _
    · rw [extend, if_neg heq]
      exact Nat.lt_succ_of_lt (h.below s (by omega))

/-- The queue may use up a sequence number without a placing. -/
theorem burn (h : Simulates number q m) :
    Simulates number ({ q with nextSequence := q.nextSequence + 1 } : Queue τ) m where
  wf := h.wf.burn
  lane := h.lane
  stamped := h.stamped
  ordered := h.ordered
  below s hs := Nat.lt_succ_of_lt (h.below s hs)

/-- The model `Allows` this answer and `Simulates` the queue after it. -/
def Follows (m : Model τ) (r : Call.Reading) (c : QueueCall τ) (out : c.Answer × Queue τ) : Prop :=
  ∃ number m', Allows m r c out.1 m' ∧ Simulates number out.2 m'

/-- `Queue.enqueue` follows the model: a key is refused by both or by none. -/
theorem enqueue (h : Simulates number q m) (r : Call.Reading) (name : String) (item : τ)
    (priority : Int) :
    Follows m r (.enqueue name item priority) (q.enqueue name item priority) := by
  have hwf := h.wf.enqueue name item priority
  cases hk : (q.laneAt name).hasKey (Keyed.key item) with
  | true =>
    rw [enqueue_of_hasKey priority hk]
    exact ⟨number, m, .alreadyQueued (h.hasKey_iff.1 hk), h⟩
  | false =>
    rw [enqueue_of_not_hasKey priority hk] at hwf ⊢
    have hnot : ¬ m.Holds name (Keyed.key item) := by
      rw [← h.hasKey_iff, hk]
      exact Bool.false_ne_true
    refine ⟨_, _, .enqueued hnot, h.place hwf rfl (fun other => ?_) fun x hx => ?_⟩
    · rw [laneAt_nextSequence, laneAt_setLane]
      split
      · have hlane := h.toLane_extend name
        rw [← h.lane name] at hlane
        simp only [Line.toLane, List.map_append, appended] at hlane ⊢
        rw [← hlane]
        simp [nextEntry, extend]
      · rfl
    · rcases List.mem_append.1 hx with hx | hx
      · exact Nat.lt_succ_of_lt (h.stamped name x hx)
      · rw [List.mem_singleton.1 hx]
        exact Nat.lt_succ_self _

/-- `Queue.lease` follows the model: the first of the heads is the offer that comes before all
others. -/
theorem lease (h : Simulates number q m) (r : Call.Reading) :
    Follows m r .lease (Memory.answerQueue q r .lease) := by
  have hwf := h.wf.lease r.now r.expiration r.fresh
  unfold Memory.answerQueue
  rcases h.wf.lease_cases r.now r.expiration r.fresh with
    ⟨hq, hnone⟩ | ⟨name, head, rest, he, hfree, hmin, hq⟩
  · rw [hq]
    refine ⟨number, m, .nothing fun name => ?_, h⟩
    cases ho : (m.line name).offer? r.now with
    | none => rfl
    | some x =>
      obtain ⟨hfree, hx⟩ := h.offer?_eq_some_iff.1 ho
      rw [hnone name (by rw [h.entries_laneAt]; intro hnil; simp_all)] at hfree
      cases hfree
  · rw [hq] at hwf ⊢
    obtain ⟨x, items, hitems, rfl, -⟩ := h.items_of_entries he
    refine ⟨number, _, .leased (h.offer?_eq_some_iff.2 ⟨hfree, by rw [hitems]; rfl⟩)
      fun other y hne hy => ?_, h.put hwf (Nat.le_refl _) (fun other => ?_) (h.stamped name)⟩
    · obtain ⟨hfree', hy'⟩ := h.offer?_eq_some_iff.1 hy
      have hhead : (q.laneAt other).entries.head? =
          some ⟨y.item, Keyed.key y.item, y.priority, number y.stamp⟩ := by
        rw [h.entries_laneAt, List.head?_map, hy']
        rfl
      exact (h.before_iff name other (by simp [hitems]) (List.mem_of_head? hy')).1
        (hmin other _ hne hhead hfree')
    · rw [laneAt_setLane, h.lane name]
      rfl

theorem renew (h : Simulates number q m) (r : Call.Reading) (lock : Lock) :
    Follows m r (.renew lock) (q.renew lock r.now r.expiration) := by
  have hwf := h.wf.renew lock r.now r.expiration
  unfold Queue.renew at hwf ⊢
  rcases h.wf.lockedLane_cases lock r.now with ⟨e, hl⟩ | ⟨_, _, lease, -, hlease, -, hlock, hl⟩
  · rw [hl]
    exact ⟨number, m, .renewRefused (h.lockedLane_error hl), h⟩
  · rw [hl] at hwf ⊢
    refine ⟨number, _, .renewed (h.lockedLane_ok hl),
      h.put hwf (Nat.le_refl _) (fun other => ?_) (h.stamped lock.lane)⟩
    rw [laneAt_setLane, hlease, ← hlock, h.lane lease.lock.lane]
    rfl

theorem release (h : Simulates number q m) (r : Call.Reading) (lock : Lock) :
    Follows m r (.release lock) (q.release lock r.now) := by
  have hwf := h.wf.release lock r.now
  unfold Queue.release at hwf ⊢
  rcases h.wf.lockedLane_cases lock r.now with ⟨e, hl⟩ | ⟨_, _, lease, -, -, -, -, hl⟩
  · rw [hl]
    exact ⟨number, m, .releaseRefused (h.lockedLane_error hl), h⟩
  · rw [hl] at hwf ⊢
    refine ⟨number, _, .released (h.lockedLane_ok hl),
      h.put hwf (Nat.le_refl _) (fun other => ?_) (h.stamped lock.lane)⟩
    rw [laneAt_setLane, h.lane lock.lane]
    rfl

/-- `Queue.acknowledge` follows the model. -/
theorem acknowledge (h : Simulates number q m) (r : Call.Reading) (lock : Lock) :
    Follows m r (.acknowledge lock) (q.acknowledge lock r.now) := by
  have hwf := h.wf.acknowledge lock r.now
  rcases h.wf.lockedLane_cases lock r.now with ⟨e, hl⟩ | ⟨head, rest, _, he, -, -, -, hl⟩
  · simp only [Queue.acknowledge, hl]
    exact ⟨number, m, .acknowledgeRefused (h.lockedLane_error hl), h⟩
  · rw [acknowledge_ok he hl] at hwf ⊢
    obtain ⟨x, items, hitems, rfl, rfl⟩ := h.items_of_entries he
    refine ⟨number, _, .acknowledged (h.lockedLane_ok hl) hitems,
      h.put hwf (Nat.le_of_eq (setOrDrop_nextSequence ..).symm)
        (fun other => laneAt_setOrDrop h.wf.ascending ..) fun y hy => ?_⟩
    exact h.stamped lock.lane y (hitems ▸ List.mem_cons_of_mem _ hy)

/-- `Queue.defer` follows the model. If it is refused, the queue has used up a sequence number and
the model has not moved. -/
theorem defer (h : Simulates number q m) (r : Call.Reading) (lock : Lock) (priority : Int) :
    Follows m r (.defer lock priority) (q.defer lock priority r.now) := by
  have hwf := h.wf.defer lock priority r.now
  rcases h.wf.lockedLane_cases lock r.now with ⟨e, hl⟩ | ⟨head, rest, _, he, -, -, -, hl⟩
  · -- a refused deferring has used up a number all the same
    simp only [Queue.defer, hl]
    exact ⟨number, m, .deferRefused (h.lockedLane_error hl), h.burn⟩
  · rw [defer_ok priority he hl] at hwf ⊢
    obtain ⟨x, items, hitems, rfl, rfl⟩ := h.items_of_entries he
    have hold : ∀ y ∈ items, y.stamp < m.placed :=
      fun y hy => h.stamped lock.lane y (hitems ▸ List.mem_cons_of_mem _ hy)
    refine ⟨_, _, .deferred (h.lockedLane_ok hl) hitems,
      h.place hwf rfl (fun other => ?_) fun y hy => ?_⟩
    · rw [laneAt_nextSequence, laneAt_setLane]
      have hmap : (items.map fun y => (⟨y.item, Keyed.key y.item, y.priority, number y.stamp⟩ :
          Entry τ)) = items.map fun y =>
            ⟨y.item, Keyed.key y.item, y.priority, extend number q m y.stamp⟩ :=
        List.map_congr_left fun y hy => by rw [extend_of_lt (hold y hy)]
      rw [hmap]
      simp [Line.toLane, movedEntry, extend]
    · rcases List.mem_append.1 hy with hy | hy
      · exact Nat.lt_succ_of_lt (hold y hy)
      · rw [List.mem_singleton.1 hy]
        exact Nat.lt_succ_self _

/-- `Queue.sweep` follows the model, which leaves the order of the answer open. -/
theorem sweep (h : Simulates number q m) (r : Call.Reading) :
    Follows m r .sweep (Memory.answerQueue q r .sweep) := by
  unfold Memory.answerQueue
  refine ⟨number, _, .swept (h.wf.sweep_nodup r.now) fun x => ?_, ?_⟩
  · rw [h.wf.mem_sweep, h.lease_laneAt, Lease.isExpiredAt, decide_eq_true_eq]
    simp only [Option.map_eq_some_iff, Prod.exists]
    constructor
    · rintro ⟨⟨token, expiry, hline, hx⟩, hexp⟩
      rw [← hx]
      exact ⟨hline, by rwa [← hx] at hexp⟩
    · rintro ⟨hline, hexp⟩
      exact ⟨⟨_, _, hline, rfl⟩, hexp⟩
  · refine ⟨h.wf.sweep r.now, fun name => ?_, h.stamped, h.ordered, h.below⟩
    rw [h.wf.laneAt_sweep, h.lane, sweepLane_toLane]

/-- Whatever the queue answers, the model `Follows`. -/
theorem answer (h : Simulates number q m) (r : Call.Reading) (c : QueueCall τ) :
    Follows m r c (Memory.answerQueue q r c) := by
  cases c with
  | enqueue name item priority => exact h.enqueue r name item priority
  | lease => exact h.lease r
  | renew lock => exact h.renew r lock
  | release lock => exact h.release r lock
  | acknowledge lock => exact h.acknowledge r lock
  | defer lock priority => exact h.defer r lock priority
  | sweep => exact h.sweep r
  | isQueued name key =>
    refine ⟨number, m, .isQueued ?_, h⟩
    rw [isQueued_eq, h.hasKey_iff]

/-- A transcript of the queue is a `Reference.Run`. By induction on the calls, each by `answer`. -/
theorem run (h : Simulates number q m) (calls : List (Call.Reading × QueueCall τ)) :
    ∃ number' m', Reference.Run m (q.transcript calls) m' ∧
      Simulates number' (q.after calls) m' := by
  induction calls generalizing number q m with
  | nil => exact ⟨number, m, .nil m, h⟩
  | cons call rest ih =>
    obtain ⟨number', m', ha, h'⟩ := h.answer call.1 call.2
    obtain ⟨number'', m'', hrun, h''⟩ := ih h'
    exact ⟨number'', m'', .cons ha hrun, h''⟩

end Simulates

/-- **The queue refines its reference model.** Whatever an empty queue answers to calls, in whatever
order each sweep answers its leases, is a run of the model. The model has no other runs: its answers
to the calls are the queue's, up to these orders. -/
theorem reference_run_iff_transcript (xs : List (Exchange τ)) :
    (∃ m, Reference.Run {} xs m) ↔
      List.Forall₂ Exchange.Agrees xs
        ((Queue.empty : Queue τ).transcript (xs.map Exchange.request)) := by
  obtain ⟨_, m', hrun', -⟩ := Simulates.fresh.run (τ := τ) (xs.map Exchange.request)
  constructor
  · rintro ⟨m, hrun⟩
    exact hrun.unique hrun' (transcript_map_request ..).symm
  · intro h
    exact ⟨m', hrun'.agree h⟩

end EventRelay.Queue
