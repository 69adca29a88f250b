import EventRelay.Proofs.Queue.Lanes

/-!
# What the operations of a queue do to its lanes

For each operation, what it answers and which lane it puts in place of which, said through
`laneAt`; and that each of them keeps what every queue has (`WF.answer`).
-/

namespace EventRelay.Queue

variable {τ : Type}

/-! ## Order of entries -/

/-- The first entry is handed out before the second, if both can be: by priority, then by sequence
number. -/
def Entry.Before (a b : Entry τ) : Prop :=
  a.priority < b.priority ∨ (a.priority = b.priority ∧ a.sequence < b.sequence)

theorem Candidate.before_iff {a b : Candidate τ} :
    a.before b = true ↔ Entry.Before a.head b.head := by
  simp [Candidate.before, Entry.Before]

theorem best?_eq_none_iff {cs : List (Candidate τ)} : best? cs = none ↔ cs = [] := by
  cases cs with
  | nil => simp [best?]
  | cons c rest =>
    simp only [best?, reduceCtorEq, iff_false]
    split
    · simp
    · split <;> simp

theorem best?_mem {cs : List (Candidate τ)} {c : Candidate τ} (h : best? cs = some c) :
    c ∈ cs := by
  induction cs generalizing c with
  | nil => cases h
  | cons d rest ih =>
    simp only [best?] at h
    split at h
    · obtain rfl := Option.some.inj h
      exact List.mem_cons_self
    · next e he =>
      split at h
      · obtain rfl := Option.some.inj h
        exact List.mem_cons_of_mem _ (ih he)
      · obtain rfl := Option.some.inj h
        exact List.mem_cons_self

/-- Nothing comes before what `best?` picks. By induction on the candidates. -/
theorem not_before_best? {cs : List (Candidate τ)} {c d : Candidate τ} (h : best? cs = some c)
    (hd : d ∈ cs) : ¬ Entry.Before d.head c.head := by
  induction cs generalizing c with
  | nil => cases hd
  | cons e rest ih =>
    simp only [best?] at h
    split at h
    · next hn =>
      obtain rfl := Option.some.inj h
      rw [best?_eq_none_iff.1 hn] at hd
      obtain rfl := List.mem_singleton.1 hd
      simp [Entry.Before]
    · next b hb =>
      -- the best of the rest against the first one
      split at h
      · next hlt =>
        obtain rfl := Option.some.inj h
        rcases List.mem_cons.1 hd with rfl | hd
        · have := Candidate.before_iff.1 hlt
          simp only [Entry.Before] at this ⊢
          omega
        · exact ih hb hd
      · next hlt =>
        obtain rfl := Option.some.inj h
        rw [Candidate.before_iff] at hlt
        rcases List.mem_cons.1 hd with rfl | hd
        · simp [Entry.Before]
        · have := ih hb hd
          simp only [Entry.Before] at this hlt ⊢
          omega

section

variable [Keyed τ] {q : Queue τ} {now : Instant} {expiration : Duration} {fresh : Uuid}
  {lock : Lock}

/-! ## Locks -/

/-- What `lockedLane` comes to: a lock opens its lane, which has an entry then and a live lease with
the token, or it is refused for the first of three reasons that holds. -/
theorem WF.lockedLane_eq (h : q.WF) (lock : Lock) (now : Instant) :
    q.lockedLane lock now =
      if (q.laneAt lock.lane).entries = [] then .error (.itemNotFound lock.lane)
      else
        match (q.laneAt lock.lane).lease with
        | none => .error (.itemNotLocked lock.lane)
        | some lease =>
          if lease.isExpiredAt now then .error (.itemNotLocked lock.lane)
          else if lease.token = lock.token then .ok (q.laneAt lock.lane)
          else .error (.tokenMismatch lock.lane) := by
  unfold lockedLane
  cases hq : q.lane? lock.lane with
  | none => simp [laneAt, hq]
  | some l =>
    have hlane : q.laneAt lock.lane = l := laneAt_eq_of_lane? hq
    have hentries : l.entries ≠ [] := h.occupied _ _ hq
    cases hlease : l.lease with
    | none => simp only [hlane, if_neg hentries, hlease]
    | some lease => simp only [hlane, if_neg hentries, hlease]

/-- `lockedLane` refuses a lock, or it is that of a live lease on a lane with a head. -/
theorem WF.lockedLane_cases (h : q.WF) (lock : Lock) (now : Instant) :
    (∃ e, q.lockedLane lock now = .error e) ∨
      ∃ head rest lease, (q.laneAt lock.lane).entries = head :: rest ∧
        (q.laneAt lock.lane).lease = some lease ∧ lease.isExpiredAt now = false ∧
        lease.lock = lock ∧ q.lockedLane lock now = .ok (q.laneAt lock.lane) := by
  rw [h.lockedLane_eq]
  split
  · exact .inl ⟨_, rfl⟩
  · next hne =>
    obtain ⟨head, rest, he⟩ := List.exists_cons_of_ne_nil hne
    split
    · exact .inl ⟨_, rfl⟩
    · next lease hl =>
      split
      · exact .inl ⟨_, rfl⟩
      · next hexp =>
        split
        · next htok =>
          refine .inr ⟨head, rest, lease, he, hl, by simpa using hexp, ?_, rfl⟩
          rw [Lease.lock, (h.lane _).leased _ hl, htok]
        · exact .inl ⟨_, rfl⟩

/-- The lock of a live lease opens its lane. -/
theorem WF.lockedLane_ok (h : q.WF) {head : Entry τ} {rest : List (Entry τ)} {lease : Lease}
    (he : (q.laneAt lock.lane).entries = head :: rest)
    (hl : (q.laneAt lock.lane).lease = some lease) (hlive : lease.isExpiredAt now = false)
    (htok : lease.token = lock.token) : q.lockedLane lock now = .ok (q.laneAt lock.lane) := by
  rw [h.lockedLane_eq, if_neg (by simp [he]), hl]
  simp [hlive, htok]

/-! ## Enqueueing -/

theorem enqueue_of_hasKey {lane : String} {item : τ} (priority : Int)
    (hk : (q.laneAt lane).hasKey (Keyed.key item) = true) :
    q.enqueue lane item priority = (.error (.itemAlreadyQueued lane (Keyed.key item)), q) := by
  unfold laneAt at hk
  simp [enqueue, hk]

/-- The entry that an item becomes at the end of a lane. -/
def nextEntry (q : Queue τ) (item : τ) (priority : Int) : Entry τ :=
  ⟨item, Keyed.key item, priority, q.nextSequence⟩

/-- The `Lane` of a name with another entry at its end. -/
def appended (q : Queue τ) (lane : String) (e : Entry τ) : Lane τ :=
  { q.laneAt lane with entries := (q.laneAt lane).entries ++ [e] }

/-- An item with a new key becomes `nextEntry` at the end of its lane. -/
theorem enqueue_of_not_hasKey {lane : String} {item : τ} (priority : Int)
    (hk : (q.laneAt lane).hasKey (Keyed.key item) = false) :
    q.enqueue lane item priority = (.ok (),
      { q.setLane lane (q.appended lane (q.nextEntry item priority)) with
        nextSequence := q.nextSequence + 1 }) := by
  unfold laneAt at hk
  simp [enqueue, hk, appended, nextEntry, laneAt]

/-- `enqueue` keeps a queue `WF`, whether or not it takes the item. -/
theorem WF.enqueue (h : q.WF) (lane : String) (item : τ) (priority : Int) :
    (q.enqueue lane item priority).2.WF := by
  cases hk : (q.laneAt lane).hasKey (Keyed.key item) with
  | true => rw [enqueue_of_hasKey priority hk]; exact h
  | false =>
    rw [enqueue_of_not_hasKey priority hk]
    refine h.setLane (by simp [appended]) (Nat.le_succ _) ((h.lane lane).append rfl hk rfl) ?_
    intro e he
    rcases List.mem_append.1 he with he | he
    · exact .inl ⟨e, he, rfl⟩
    · obtain rfl := List.mem_singleton.1 he
      exact .inr (Nat.le_refl _)

/-! ## Leasing -/

/-- The `candidates` are the heads of the lanes that can be leased. -/
theorem WF.mem_candidates (h : q.WF) {c : Candidate τ} :
    c ∈ q.candidates now ↔ c.lane = q.laneAt c.name ∧ c.lane.isLeasableAt now = true ∧
      c.lane.entries.head? = some c.head := by
  simp only [candidates, List.mem_filterMap, Prod.exists]
  constructor
  · rintro ⟨name, l, hm, hc⟩
    split at hc
    · next hl =>
      obtain ⟨head, hh, rfl⟩ := Option.map_eq_some_iff.1 hc
      exact ⟨(laneAt_eq_of_lane? (h.ascending.mem_iff.1 hm)).symm, hl, hh⟩
    · cases hc
  · rintro ⟨hl, hfree, hh⟩
    have hne : (q.laneAt c.name).entries ≠ [] := by
      rw [← hl]
      intro hnil
      rw [hnil] at hh
      cases hh
    have hq : q.lane? c.name = some c.lane := hl ▸ lane?_eq_of_entries hne
    exact ⟨c.name, c.lane, h.ascending.mem_iff.2 hq, by simp [hfree, hh]⟩

/-- `lease` grants the lane whose head comes before those of all other lanes that can be leased, or
no lane can be. -/
theorem WF.lease_cases (h : q.WF) (now : Instant) (expiration : Duration) (fresh : Uuid) :
    (q.lease now expiration fresh = (none, q) ∧
      ∀ name, (q.laneAt name).entries ≠ [] → (q.laneAt name).isLeasableAt now = false) ∨
    ∃ name head rest, (q.laneAt name).entries = head :: rest ∧
      (q.laneAt name).isLeasableAt now = true ∧
      (∀ other head', other ≠ name → (q.laneAt other).entries.head? = some head' →
        (q.laneAt other).isLeasableAt now = true → Entry.Before head head') ∧
      q.lease now expiration fresh =
        (some ⟨head.item, head.priority, Lease.grant name fresh now expiration⟩,
          q.setLane name
            { q.laneAt name with lease := some (Lease.grant name fresh now expiration) }) := by
  unfold Queue.lease
  cases hb : best? (q.candidates now) with
  | none =>
    refine .inl ⟨rfl, fun name hne => ?_⟩
    obtain ⟨head, rest, he⟩ := List.exists_cons_of_ne_nil hne
    rw [Bool.eq_false_iff]
    intro hfree
    have hm : (⟨name, q.laneAt name, head⟩ : Candidate τ) ∈ q.candidates now :=
      h.mem_candidates.2 ⟨rfl, hfree, by simp [he]⟩
    rw [best?_eq_none_iff.1 hb] at hm
    cases hm
  | some c =>
    obtain ⟨hl, hfree, hh⟩ := h.mem_candidates.1 (best?_mem hb)
    obtain ⟨rest, he⟩ := List.head?_eq_some_iff.1 hh
    refine .inr ⟨c.name, c.head, rest, hl ▸ he, hl ▸ hfree, fun other head' hne hh' hfree' => ?_,
      by simp [hl]⟩
    have hm : (⟨other, q.laneAt other, head'⟩ : Candidate τ) ∈ q.candidates now :=
      h.mem_candidates.2 ⟨rfl, hfree', hh'⟩
    have hmin : ¬ Entry.Before head' c.head := not_before_best? hb hm
    have happart : c.head.sequence ≠ head'.sequence :=
      h.apart c.name other hne.symm c.head (by rw [← hl, he]; exact List.mem_cons_self) head'
        (List.mem_of_head? hh')
    simp only [Entry.Before] at hmin ⊢
    omega

/-- `lease` keeps a queue `WF`. -/
theorem WF.lease (h : q.WF) (now : Instant) (expiration : Duration) (fresh : Uuid) :
    (q.lease now expiration fresh).2.WF := by
  rcases h.lease_cases now expiration fresh with ⟨hq, -⟩ | ⟨name, head, rest, he, -, -, hq⟩
  · rw [hq]; exact h
  · rw [hq]
    refine h.setLease (by simp [he]) fun x hx => ?_
    obtain rfl := Option.some.inj hx
    rfl

/-! ## What a lock opens -/

theorem WF.renew (h : q.WF) (lock : Lock) (now : Instant) (expiration : Duration) :
    (q.renew lock now expiration).2.WF := by
  rcases h.lockedLane_cases lock now with ⟨e, hl⟩ | ⟨head, rest, lease, he, hlease, -, hlock, hl⟩
  · simpa only [Queue.renew, hl] using h
  · simp only [Queue.renew, hl]
    refine h.setLease (by simp [he]) fun x hx => ?_
    rw [hlease] at hx
    obtain rfl := Option.some.inj hx
    exact (h.lane _).leased lease hlease

theorem WF.release (h : q.WF) (lock : Lock) (now : Instant) : (q.release lock now).2.WF := by
  rcases h.lockedLane_cases lock now with ⟨e, hl⟩ | ⟨head, rest, lease, he, -, -, -, hl⟩
  · simpa only [Queue.release, hl] using h
  · simp only [Queue.release, hl]
    exact h.setLease (by simp [he]) fun x hx => by cases hx

omit [Keyed τ] in
theorem acknowledge_ok {head : Entry τ} {rest : List (Entry τ)}
    (he : (q.laneAt lock.lane).entries = head :: rest)
    (hl : q.lockedLane lock now = .ok (q.laneAt lock.lane)) :
    q.acknowledge lock now =
      (.ok head.item, q.setOrDrop lock.lane { entries := rest, lease := none }) := by
  simp only [Queue.acknowledge, hl, he]

/-- `acknowledge` keeps a queue `WF`: a lane that comes to be empty is dropped. -/
theorem WF.acknowledge (h : q.WF) (lock : Lock) (now : Instant) :
    (q.acknowledge lock now).2.WF := by
  rcases h.lockedLane_cases lock now with ⟨e, hl⟩ | ⟨head, rest, lease, he, -, -, -, hl⟩
  · simpa only [Queue.acknowledge, hl] using h
  · rw [acknowledge_ok he hl]
    have hrest : ∀ e ∈ rest, e ∈ (q.laneAt lock.lane).entries :=
      fun e hx => he ▸ List.mem_cons_of_mem _ hx
    have hat := fun other => laneAt_setOrDrop h.ascending lock.lane other { entries := rest }
    refine h.update ?_ (fun n x hx => ?_) hat (Nat.le_of_eq (setOrDrop_nextSequence ..).symm) ?_
      fun e hx => .inl ⟨e, hrest e hx, rfl⟩
    · unfold setOrDrop
      split
      · exact h.ascending.erase _
      · exact h.ascending.insert _ _
    · simp only [setOrDrop, Option.isNone_none, Bool.and_true] at hx
      split at hx
      · by_cases hn : n = lock.lane
        · subst hn
          have := h.ascending.find?_erase_self lock.lane
          rw [lane?, this] at hx
          cases hx
        · exact h.occupied n x (by rwa [lane?, ByName.find?_erase_of_ne hn] at hx)
      · next hne =>
        rw [lane?_setLane] at hx
        split at hx
        · obtain rfl := Option.some.inj hx
          simpa using hne
        · exact h.occupied n x hx
    · rw [setOrDrop_nextSequence]
      exact (h.lane _).tail he

/-- The head as it goes to the end of its lane with another priority and the next sequence
number. -/
def movedEntry (q : Queue τ) (head : Entry τ) (priority : Int) : Entry τ :=
  { head with priority := priority, sequence := q.nextSequence }

omit [Keyed τ] in
theorem defer_ok {head : Entry τ} {rest : List (Entry τ)} (priority : Int)
    (he : (q.laneAt lock.lane).entries = head :: rest)
    (hl : q.lockedLane lock now = .ok (q.laneAt lock.lane)) :
    q.defer lock priority now = (.ok (),
      { q.setLane lock.lane { entries := rest ++ [q.movedEntry head priority], lease := none } with
        nextSequence := q.nextSequence + 1 }) := by
  simp only [Queue.defer, hl, he]
  rfl

/-- A sequence number that is used up for nothing does no harm. -/
theorem WF.burn (h : q.WF) : ({ q with nextSequence := q.nextSequence + 1 } : Queue τ).WF where
  ascending := h.ascending
  occupied := h.occupied
  lane name := (h.lane name).mono (Nat.le_succ _)
  apart := h.apart

/-- `defer` keeps a queue `WF`. If it is refused a sequence number is used up. -/
theorem WF.defer (h : q.WF) (lock : Lock) (priority : Int) (now : Instant) :
    (q.defer lock priority now).2.WF := by
  rcases h.lockedLane_cases lock now with ⟨e, hl⟩ | ⟨head, rest, lease, he, -, -, -, hl⟩
  · simpa only [Queue.defer, hl] using h.burn
  · rw [defer_ok priority he hl]
    have hkey := (h.lane lock.lane).head_key_not_mem he
    have hmoved : ({ entries := rest ++ [q.movedEntry head priority] } : Lane τ).WF lock.lane
        (q.nextSequence + 1) :=
      ((h.lane lock.lane).tail he).append ((h.lane lock.lane).keyed head (by simp [he]))
        hkey rfl
    refine h.setLane (List.append_ne_nil_of_right_ne_nil _ (by simp)) (Nat.le_succ _) hmoved
      fun e hx => ?_
    rcases List.mem_append.1 hx with hx | hx
    · exact .inl ⟨e, he ▸ List.mem_cons_of_mem _ hx, rfl⟩
    · obtain rfl := List.mem_singleton.1 hx
      exact .inr (Nat.le_refl _)

/-! ## Sweeping -/

omit [Keyed τ] in
theorem sweepLane_entries (now : Instant) (l : Lane τ) : (sweepLane now l).entries = l.entries := by
  unfold sweepLane
  split <;> rfl

omit [Keyed τ] in
theorem sweepLane_lease (now : Instant) (l : Lane τ) :
    (sweepLane now l).lease = l.lease.filter fun lease => !lease.isExpiredAt now := by
  unfold sweepLane expiredLease?
  cases h : l.lease with
  | none => simp [h]
  | some lease => cases he : lease.isExpiredAt now <;> simp [Option.filter_some, h, he]

/-- Every lane that is kept has an entry, so `sweep` drops none. -/
theorem WF.sweep_lanes (h : q.WF) (now : Instant) :
    (q.sweep now).2.lanes = q.lanes.map fun (name, l) => (name, sweepLane now l) := by
  refine List.filter_eq_self.2 fun ⟨name, l⟩ hm => ?_
  obtain ⟨⟨n, l'⟩, hm', heq⟩ := List.mem_map.1 hm
  obtain ⟨rfl, rfl⟩ := Prod.mk.inj heq
  have hne := h.occupied n l' (h.ascending.mem_iff.1 hm')
  simp [sweepLane_entries, hne]

theorem WF.lane?_sweep (h : q.WF) (now : Instant) (name : String) :
    (q.sweep now).2.lane? name = (q.lane? name).map (sweepLane now) := by
  rw [lane?, h.sweep_lanes]
  exact ByName.find?_map ..

/-- `sweep` does `sweepLane` to every lane. -/
theorem WF.laneAt_sweep (h : q.WF) (now : Instant) (name : String) :
    (q.sweep now).2.laneAt name = sweepLane now (q.laneAt name) := by
  rw [laneAt, h.lane?_sweep, laneAt]
  cases q.lane? name <;> rfl

theorem WF.sweep (h : q.WF) (now : Instant) : (q.sweep now).2.WF where
  ascending := by
    rw [h.sweep_lanes]
    exact h.ascending.map _
  occupied name l hl := by
    rw [h.lane?_sweep] at hl
    obtain ⟨l', hl', rfl⟩ := Option.map_eq_some_iff.1 hl
    rw [sweepLane_entries]
    exact h.occupied name l' hl'
  lane name := by
    have hw := h.lane name
    rw [h.laneAt_sweep]
    obtain ⟨hk, hd, ha, hb, hl⟩ := hw
    constructor <;> simp only [sweepLane_entries, sweepLane_lease]
    · exact hk
    · exact hd
    · exact ha
    · exact hb
    · exact fun lease hx => hl lease (Option.filter_eq_some_iff.1 hx).1
  apart name other hne := by
    simp only [h.laneAt_sweep, sweepLane_entries]
    exact h.apart name other hne

/-- `sweep` answers just the leases that have run out. -/
theorem WF.mem_sweep (h : q.WF) {now : Instant} {lease : Lease} :
    lease ∈ (q.sweep now).1 ↔
      (q.laneAt lease.lane).lease = some lease ∧ lease.isExpiredAt now = true := by
  simp only [Queue.sweep, List.mem_filterMap, Prod.exists, expiredLease?,
    Option.filter_eq_some_iff]
  constructor
  · rintro ⟨name, l, hm, hl, hexp⟩
    have hat := laneAt_eq_of_lane? (h.ascending.mem_iff.1 hm)
    rw [← hat] at hl
    rw [(h.lane name).leased lease hl]
    exact ⟨hl, hexp⟩
  · rintro ⟨hl, hexp⟩
    have hq := lane?_eq_of_entries (h.entries_ne_nil_of_lease hl)
    exact ⟨lease.lane, _, h.ascending.mem_iff.2 hq, hl, hexp⟩

/-- `sweep` changes nothing where no lease has run out. -/
theorem WF.sweep_eq (h : q.WF) {now : Instant} (hlive : ∀ name lease,
    (q.laneAt name).lease = some lease → lease.isExpiredAt now = false) :
    q.sweep now = ([], q) := by
  have hnone : ∀ x ∈ q.lanes, expiredLease? now x.2 = none := by
    rintro ⟨name, l⟩ hm
    rw [expiredLease?, Option.filter_eq_none_iff]
    intro lease hl
    rw [← laneAt_eq_of_lane? (h.ascending.mem_iff.1 hm)] at hl
    simp [hlive name lease hl]
  have hkept : (q.sweep now).2.lanes = q.lanes := by
    rw [h.sweep_lanes]
    refine (List.map_congr_left fun x hm => ?_).trans (List.map_id q.lanes)
    simp [sweepLane, hnone x hm]
  apply Prod.ext
  · exact List.filterMap_eq_nil_iff.2 hnone
  · exact congrArg (fun lanes => ({ q with lanes := lanes } : Queue τ)) hkept

/-- A `sweep` answers no lease twice, for it answers at most one of each lane. -/
theorem WF.sweep_nodup (h : q.WF) (now : Instant) : (q.sweep now).1.Nodup := by
  simp only [Queue.sweep]
  rw [List.Nodup, List.pairwise_filterMap]
  have hasc : q.lanes.Pairwise fun a b => a.1 < b.1 := List.pairwise_map.1 h.ascending
  refine hasc.imp_of_mem fun {a b} ha hb hlt x hx y hy => ?_
  have hlane : ∀ {p : String × Lane τ} {z : Lease}, p ∈ q.lanes →
      expiredLease? now p.2 = some z → z.lane = p.1 := by
    intro p z hp hz
    refine (h.lane p.1).leased z ?_
    rw [laneAt_eq_of_lane? (h.ascending.mem_iff.1 hp)]
    exact (Option.filter_eq_some_iff.1 hz).1
  rintro rfl
  rw [← hlane ha hx, hlane hb hy] at hlt
  exact String.lt_irrefl _ hlt

/-! ## Questions -/

omit [Keyed τ] in
theorem isQueued_eq (q : Queue τ) (lane key : String) :
    q.isQueued lane key = (q.laneAt lane).hasKey key := by
  unfold isQueued laneAt
  cases q.lane? lane <;> rfl

/-- Every operation keeps a queue `WF`. -/
theorem WF.answer (h : q.WF) (r : Call.Reading) (c : QueueCall τ) :
    (Memory.answerQueue q r c).2.WF := by
  cases c with
  | enqueue lane item priority => exact h.enqueue lane item priority
  | lease => exact h.lease r.now r.expiration r.fresh
  | renew lock => exact h.renew lock r.now r.expiration
  | release lock => exact h.release lock r.now
  | acknowledge lock => exact h.acknowledge lock r.now
  | defer lock priority => exact h.defer lock priority r.now
  | sweep => exact h.sweep r.now
  | isQueued lane key => exact h

end

end EventRelay.Queue
