import EventRelay.Proofs.Broker.Tasks
import EventRelay.Proofs.Recovery.Handled

/-!
# Draining the lanes

One worker leases and acknowledges until nothing can be leased. Where no lane is leased to anybody
else every round takes one entry, whichever its lane, so the number of entries is the number of
rounds, and each event that waited is settled in the end.
-/

namespace EventRelay

namespace Queue

variable {τ : Type}

/-! ## Counting entries -/

/-- A lane in the place of another changes the number of entries by the difference of the two. -/
theorem length_flatMap_insert {lanes : List (String × Lane τ)} (h : ByName.Ascending lanes)
    (name : String) (l : Lane τ) :
    ((ByName.insert name l lanes).flatMap fun x => x.2.entries).length +
        ((ByName.find? name lanes).getD {}).entries.length =
      (lanes.flatMap fun x => x.2.entries).length + l.entries.length := by
  induction lanes with
  | nil => simp [ByName.insert, ByName.find?]
  | cons entry rest ih =>
    obtain ⟨other, old⟩ := entry
    unfold ByName.insert ByName.find?
    by_cases heq : name = other
    · rw [if_pos heq, if_pos heq]
      simp only [List.flatMap_cons, List.length_append, Option.getD_some]
      omega
    · rw [if_neg heq, if_neg heq]
      by_cases hlt : name < other
      · have hnone : ByName.find? name rest = none := by
          rw [ByName.find?_eq_none_iff]
          intro hmem
          exact String.lt_asymm hlt (h.head_lt hmem)
        rw [if_pos hlt, hnone]
        simp only [List.flatMap_cons, List.length_append, Option.getD_none, List.length_nil]
        omega
      · have ih := ih h.tail
        rw [if_neg hlt]
        simp only [List.flatMap_cons, List.length_append]
        omega

theorem length_flatMap_erase (lanes : List (String × Lane τ)) (name : String) :
    ((ByName.erase name lanes).flatMap fun x => x.2.entries).length +
        ((ByName.find? name lanes).getD {}).entries.length =
      (lanes.flatMap fun x => x.2.entries).length := by
  induction lanes with
  | nil => rfl
  | cons entry rest ih =>
    obtain ⟨other, old⟩ := entry
    unfold ByName.erase ByName.find?
    by_cases heq : name = other
    · rw [if_pos heq, if_pos heq]
      simp only [List.flatMap_cons, List.length_append, Option.getD_some]
      omega
    · rw [if_neg heq, if_neg heq]
      simp only [List.flatMap_cons, List.length_append]
      omega

/-- `setLane` changes the length by the difference of the lanes. -/
theorem length_setLane {q : Queue τ} (h : ByName.Ascending q.lanes) (name : String) (l : Lane τ) :
    (q.setLane name l).length + (q.laneAt name).entries.length = q.length + l.entries.length :=
  length_flatMap_insert h name l

theorem length_setOrDrop {q : Queue τ} (h : ByName.Ascending q.lanes) (name : String) (l : Lane τ) :
    (q.setOrDrop name l).length + (q.laneAt name).entries.length = q.length + l.entries.length := by
  unfold setOrDrop
  split
  · next hdrop =>
    have hnil : l.entries = [] := List.isEmpty_iff.1 (Bool.and_eq_true_iff.1 hdrop).1
    rw [hnil, List.length_nil, Nat.add_zero]
    exact length_flatMap_erase q.lanes name
  · exact length_setLane h name l

variable [Keyed τ] {q : Queue τ}

theorem WF.length_eq_zero (h : q.WF) (hnil : ∀ name, (q.laneAt name).entries = []) :
    q.length = 0 := by
  have hlanes : q.lanes = [] := by
    rw [List.eq_nil_iff_forall_not_mem]
    intro ⟨name, l⟩ hmem
    have hlane := h.ascending.mem_iff.1 hmem
    exact h.occupied name l hlane (laneAt_eq_of_lane? hlane ▸ hnil name)
  unfold length entries
  rw [hlanes]
  rfl

/-! ## One round -/

omit [Keyed τ] in
theorem Unleased.isLeasableAt (h : Unleased q) (name : String) (now : Instant) :
    (q.laneAt name).isLeasableAt now = true := by
  unfold Lane.isLeasableAt
  rw [h name]

/-- Where no lane is leased, `lease` is refused only if there is no entry. Otherwise its lock takes
the entry off before it runs out. -/
theorem WF.lease_acknowledge (h : q.WF) (hu : Unleased q) (r : Call.Reading) :
    (q.lease r.now r.expiration r.fresh = (none, q) ∧ ∀ name, (q.laneAt name).entries = []) ∨
    ∃ name head rest leased q', (q.laneAt name).entries = head :: rest ∧
      q.lease r.now r.expiration r.fresh = (some leased, q') ∧ leased.lease.lock.lane = name ∧
      ∀ now, ¬ r.now.addSaturating r.expiration ≤ now →
        ∃ q'', q'.acknowledge leased.lease.lock now = (.ok head.item, q'') ∧ Unleased q'' ∧
          q''.length + 1 = q.length ∧
          ∀ other, q''.items other = if other = name then rest.map (·.item) else q.items other := by
  rcases h.lease_cases r.now r.expiration r.fresh with
    ⟨hq, hnone⟩ | ⟨name, head, rest, he, -, -, hq⟩
  · refine .inl ⟨hq, fun name => ?_⟩
    by_contra hne
    have hfree := hnone name hne
    rw [hu.isLeasableAt] at hfree
    cases hfree
  · have hwf := h.lease r.now r.expiration r.fresh
    obtain ⟨grant, hgrant⟩ : ∃ grant, Lease.grant name r.fresh r.now r.expiration = grant :=
      ⟨_, rfl⟩
    have hlock : grant.lock.lane = name := by
      rw [← hgrant]
      rfl
    rw [hgrant] at hq
    rw [hq] at hwf
    refine .inr ⟨name, head, rest, _, _, he, hq, hlock, fun now hlive => ?_⟩
    obtain ⟨q', hq'⟩ : ∃ q', q.setLane name { q.laneAt name with lease := some grant } = q' :=
      ⟨_, rfl⟩
    have hat : ∀ other, q'.laneAt other =
        if other = name then { q.laneAt name with lease := some grant } else q.laneAt other := by
      intro other
      rw [← hq', laneAt_setLane]
    rw [hq'] at hwf ⊢
    have he' : (q'.laneAt grant.lock.lane).entries = head :: rest := by
      rw [hlock, hat, if_pos rfl, he]
    have hl' : (q'.laneAt grant.lock.lane).lease = some grant := by
      rw [hlock, hat, if_pos rfl]
    have hexp : grant.isExpiredAt now = false := by
      rw [← hgrant]
      exact decide_eq_false hlive
    refine ⟨_, acknowledge_ok he' (hwf.lockedLane_ok he' hl' hexp rfl), fun other => ?_, ?_, ?_⟩
    · rw [laneAt_setOrDrop hwf.ascending]
      split
      · rfl
      · next hne =>
        rw [hat, if_neg (hlock ▸ hne)]
        exact hu other
    · have h1 := length_setOrDrop hwf.ascending grant.lock.lane { entries := rest, lease := none }
      have h2 := length_setLane h.ascending name { q.laneAt name with lease := some grant }
      rw [he', List.length_cons] at h1
      rw [hq'] at h2
      simp only at h1 h2
      change (q'.setOrDrop grant.lock.lane { entries := rest, lease := none }).length + 1 = q.length
      omega
    · intro other
      unfold items
      rw [laneAt_setOrDrop hwf.ascending, hlock]
      split
      · rfl
      · next hne => rw [hat, if_neg hne]

end Queue

/-! ## Rounds of a worker -/

namespace Recovery

/-- A worker leases and acknowledges until nothing can be leased, with clocks for the leasing and
for the acknowledging of each round; `n` counts the rounds from the `i`th on. -/
inductive Drain (clock : Nat → Clock × Clock) : Nat → Memory → Nat → Memory → Prop
  | dry {i : Nat} {m m' : Memory} : Work.alone (clock i).1 Dispatch.attempt m = (.ok none, m') →
      Drain clock i m 0 m'
  | round {i n : Nat} {m m₁ m₂ m' : Memory} {leased : LeasedItem Event} {e : Event} :
      Work.alone (clock i).1 Dispatch.attempt m = (.ok (some leased), m₁) →
      Work.alone (clock i).2 (Dispatch.acknowledge leased.lease.lock) m₁ = (.ok e, m₂) →
      Drain clock (i + 1) m₂ n m' → Drain clock i m (n + 1) m'

variable {registry : Registry} {m : Memory} {r : Call.Reading}

/-- `Dispatch.attempt` comes to nothing where `Queue.lease` gives nothing. -/
theorem comes_attempt_none {q : Queue Event}
    (h : m.queue.lease r.now r.expiration r.fresh = (none, q)) :
    Comes r Dispatch.attempt m (.ok none) { m with queue := q } := by
  refine (Comes.queue _).bind fun _ => ?_
  simp only [Memory.answerQueue, h]
  exact Comes.pure _

/-- `Dispatch.attempt` comes to what `Queue.lease` gives. -/
theorem comes_attempt_some {q : Queue Event} {leased : LeasedItem Event}
    (h : m.queue.lease r.now r.expiration r.fresh = (some leased, q)) :
    Comes r Dispatch.attempt m (.ok (some leased)) { m with queue := q } := by
  refine (Comes.queue _).bind fun _ => ?_
  simp only [Memory.answerQueue, h]
  exact (Comes.note _).bind fun _ => Comes.pure _

/-- `Dispatch.acknowledge` records what it took off. -/
theorem comes_acknowledge {lock : Lock} {q : Queue Event} {e : Event}
    (h : m.queue.acknowledge lock r.now = (.ok e, q)) :
    Comes r (Dispatch.acknowledge lock) m (.ok e) { m with
      queue := q
      progress := m.progress.record lock.lane e.aggregateId e.revision } := by
  refine (Comes.queue _).bind fun _ => ?_
  simp only [Memory.answerQueue, h]
  refine Comes.wake.bind fun _ => (Comes.progress _).bind fun _ => ?_
  exact (Comes.note _).bind fun _ => Comes.pure _

theorem comes_acknowledge_error {lock : Lock} {q : Queue Event} {e : QueueError}
    (h : m.queue.acknowledge lock r.now = (.error e, q)) :
    Comes r (Dispatch.acknowledge lock) m (.error e) { m with queue := q } := by
  refine (Comes.queue _).bind fun _ => ?_
  simp only [Memory.answerQueue, h]
  exact .pure _

/-- `Dispatch.release` comes to what `Queue.release` answers. -/
theorem comes_release (lock : Lock) (m : Memory) :
    Comes r (Dispatch.release lock) m (m.queue.release lock r.now).1
      { m with queue := (m.queue.release lock r.now).2 } := by
  refine (Comes.queue _).bind fun _ => ?_
  simp only [Memory.answerQueue]
  cases (m.queue.release lock r.now).1 with
  | ok => exact Comes.wake.bind fun _ => .pure _
  | error => exact .pure _

/-- A round takes one entry and settles it, and leaves all others `Handled`. -/
theorem round_spec {w : World registry} (hu : w.memory.queue.Unleased) {clock later : Clock}
    (hlive : ¬ (clock 0).now.addSaturating (clock 0).expiration ≤ (later 0).now) :
    (Work.alone clock Dispatch.attempt w.memory = (.ok none, w.memory) ∧
      ∀ name, (w.memory.queue.laneAt name).entries = []) ∨
    ∃ leased m₁ e, ∃ w₂ : World registry,
      Work.alone clock Dispatch.attempt w.memory = (.ok (some leased), m₁) ∧
      Work.alone later (Dispatch.acknowledge leased.lease.lock) m₁ = (.ok e, w₂.memory) ∧
      w ≤ w₂ ∧ w₂.memory.log = w.memory.log ∧ w₂.memory.queue.Unleased ∧
      w₂.memory.queue.length + 1 = w.memory.queue.length ∧
      ∀ flow, ∀ x ∈ w.memory.queue.items flow, Handled w₂.memory flow x := by
  rcases w.lawful.stocked.wf.lease_acknowledge hu (clock 0) with
    ⟨hlease, hnil⟩ | ⟨name, head, rest, leased, q₁, he, hlease, hlane, hack⟩
  · exact .inl ⟨comes_attempt_none hlease clock rfl, hnil⟩
  · obtain ⟨q₂, hack, hu₂, hlen, hitems⟩ := hack (later 0).now hlive
    have h1 := comes_attempt_some (m := w.memory) hlease clock rfl
    have h2 := comes_acknowledge (m := { w.memory with queue := q₁ }) hack later rfl
    obtain ⟨w₁, hle₁, hm₁, -⟩ := ((Task.lease).sound w).alone clock
    obtain ⟨w₂, hle₂, hm₂, -⟩ := ((Task.acknowledge leased.lease.lock).sound w₁).alone later
    have hm₁' : w₁.memory = { w.memory with queue := q₁ } := hm₁.trans (congrArg Prod.snd h1)
    rw [hm₁'] at hm₂
    have hm₂' := hm₂.trans (congrArg Prod.snd h2)
    refine .inr ⟨leased, _, head.item, w₂, h1, ?_, hle₁.trans hle₂, ?_, ?_, ?_, ?_⟩
    · rw [h2, hm₂']
    · rw [hm₂']
    · rw [hm₂']
      exact hu₂
    · rw [hm₂']
      exact hlen
    · intro flow x hx
      rw [hm₂']
      by_cases hf : flow = name
      · subst hf
        unfold Queue.items at hx
        rw [he, List.map_cons, List.mem_cons] at hx
        rcases hx with rfl | hx
        · left
          rw [hlane]
          exact ProgressTable.settled_record.2 (.inr ⟨rfl, rfl, rfl⟩)
        · right
          simp only [hitems, if_true]
          exact hx
      · right
        simp only [hitems, if_neg hf]
        exact hx

/-- Each lease is acknowledged before it runs out. -/
def InTime (clock : Nat → Clock × Clock) : Prop :=
  ∀ i, ¬ ((clock i).1 0).now.addSaturating ((clock i).1 0).expiration ≤ ((clock i).2 0).now

variable {clock : Nat → Clock × Clock}

/-- Draining ends, after as many rounds as there were entries. By induction on their number. -/
theorem exists_drain (hclock : InTime clock) (i : Nat) {w : World registry}
    (hu : w.memory.queue.Unleased) : ∃ m', Drain clock i w.memory w.memory.queue.length m' := by
  -- each round takes one entry and leaves all lanes without leases
  induction hlen : w.memory.queue.length generalizing i w with
  | zero =>
    rcases round_spec hu (hclock i) with ⟨hnone, -⟩ | ⟨_, _, _, w₂, -, -, -, -, -, hlen₂, -⟩
    · exact ⟨_, .dry hnone⟩
    · omega
  | succ n ih =>
    rcases round_spec hu (hclock i) with
      ⟨-, hnil⟩ | ⟨leased, m₁, e, w₂, hlease, hack, -, -, hu₂, hlen₂, -⟩
    · rw [w.lawful.stocked.wf.length_eq_zero hnil] at hlen
      cases hlen
    · obtain ⟨m', hd⟩ := ih (i + 1) hu₂ (by omega)
      exact ⟨m', .round hlease hack hd⟩

/-- Every `Drain` takes as many rounds as there were entries, and what waited is settled. -/
theorem Drain.spec (hclock : InTime clock) {i n : Nat} {m m' : Memory} (hd : Drain clock i m n m')
    {w : World registry} (hw : w.memory = m) (hu : m.queue.Unleased) :
    n = m.queue.length ∧ ∃ w' : World registry, w ≤ w' ∧ w'.memory = m' ∧ m'.log = m.log ∧
      ∀ flow, ∀ x ∈ m.queue.items flow, m'.progress.Settled flow x.aggregateId x.revision := by
  -- what `round_spec` finds is what the rounds are given, since work done alone has one outcome
  induction hd generalizing w with
  | @dry i m m' hnone =>
    subst hw
    rcases round_spec hu (hclock i) with ⟨hnone', hnil⟩ | ⟨_, _, _, _, hlease, -⟩
    · obtain ⟨-, rfl⟩ := Prod.mk.inj (hnone'.symm.trans hnone)
      have hzero := w.lawful.stocked.wf.length_eq_zero hnil
      refine ⟨hzero.symm, w, le_rfl, rfl, rfl, fun flow x hx => ?_⟩
      unfold Queue.items at hx
      rw [hnil flow] at hx
      cases hx
    · rw [hnone] at hlease
      cases (Prod.mk.inj hlease).1
  | @round i n m m₁ m₂ m' leased e hlease hack _ ih =>
    subst hw
    rcases round_spec hu (hclock i) with
      ⟨hnone, -⟩ | ⟨leased', m₁', e', w₂, hlease', hack', hle₂, hlog₂, hu₂, hlen₂, hkeep⟩
    · rw [hnone] at hlease
      cases (Prod.mk.inj hlease).1
    · obtain ⟨hout, rfl⟩ := Prod.mk.inj (hlease'.symm.trans hlease)
      obtain rfl := Option.some.inj (Except.ok.inj hout)
      obtain ⟨-, rfl⟩ := Prod.mk.inj (hack'.symm.trans hack)
      obtain ⟨hn, w', hle', hw', hlog', hsettled⟩ := ih rfl hu₂
      refine ⟨by omega, w', hle₂.trans hle', hw', hlog'.trans hlog₂, fun flow x hx => ?_⟩
      rcases hkeep flow x hx with hs | hx₂
      · exact hw' ▸ hle'.settled _ _ _ hs
      · exact hsettled flow x hx₂

end Recovery

end EventRelay
