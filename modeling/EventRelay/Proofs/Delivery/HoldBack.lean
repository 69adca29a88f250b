import EventRelay.Proofs.Broker.Troubled
import EventRelay.Proofs.Queue.Filling
import EventRelay.Publish
import Mathlib.Data.Prod.Basic

/-!
# Holding back after a failure

Publishing offers each stored event to the lanes of its owners. Once an offer fails, the later
events of the aggregate are kept from that lane, and from no other. So what a lane gets of an
aggregate is what was to be offered up to the first failure.
-/

namespace EventRelay.Publish

open Queue (meantFor deliveries meantFor_deliveries)

variable {registry : Registry} {faults : Faults} {flow : String} {a : Uuid} {e : Event}
  {m : Memory}

/-! ## Offers that are made -/

/-- What an offer is held back with: the lane and the aggregate. -/
def pairOf (offer : String × Event) : String × Uuid := (offer.1, offer.2.aggregateId)

/-- The offer does not fail, by these `Faults`. -/
def isFine (faults : Faults) (offer : String × Event) : Bool := (faults offer.1 offer.2).isNone

/-- The offers that are made and do not fail, with what is held back at first. -/
def spared (faults : Faults) : HeldBack → List (String × Event) → List (String × Event)
  | _, [] => []
  | held, offer :: rest =>
    if held.contains (pairOf offer) then spared faults held rest
    else if isFine faults offer then offer :: spared faults held rest
    else spared faults (pairOf offer :: held) rest

/-- What is held back after the offers: what was, and the `pairOf` of each that failed. -/
def heldAfter (faults : Faults) (held : HeldBack) (offers : List (String × Event)) : HeldBack :=
  offers.foldl (fun held offer =>
    if held.contains (pairOf offer) || isFine faults offer then held else pairOf offer :: held) held

/-- `spared` goes on behind a list of offers with what `heldAfter` holds back there. -/
theorem spared_append (held : HeldBack) (offers offers' : List (String × Event)) :
    spared faults held (offers ++ offers') =
      spared faults held offers ++ spared faults (heldAfter faults held offers) offers' := by
  induction offers generalizing held with
  | nil => rfl
  | cons offer rest ih =>
    rw [List.cons_append, spared, spared, heldAfter, List.foldl_cons]
    by_cases hheld : held.contains (pairOf offer) = true
    · simp only [hheld, if_true, Bool.true_or]
      exact ih held
    · by_cases hfine : isFine faults offer = true
      · simp only [hheld, hfine, if_true, Bool.or_true, Bool.false_eq_true, if_false]
        exact congrArg (offer :: ·) (ih held)
      · simp only [hheld, hfine, Bool.or_self, Bool.false_eq_true, if_false]
        exact ih (pairOf offer :: held)

theorem heldAfter_append (held : HeldBack) (offers offers' : List (String × Event)) :
    heldAfter faults held (offers ++ offers') =
      heldAfter faults (heldAfter faults held offers) offers' := List.foldl_append

theorem spared_sublist (faults : Faults) (held : HeldBack) (offers : List (String × Event)) :
    (spared faults held offers).Sublist offers := by
  induction offers generalizing held with
  | nil => exact .slnil
  | cons offer rest ih =>
    unfold spared
    split
    · exact (ih held).cons offer
    · split
      · exact (ih held).cons_cons offer
      · exact (ih _).cons offer

/-- Of a lane and an aggregate the offers up to the first failure are `spared`, or none if they are
held back at first. No other offers matter to that. -/
theorem filter_spared (faults : Faults) (held : HeldBack) (offers : List (String × Event))
    (pair : String × Uuid) :
    (spared faults held offers).filter (fun offer => pairOf offer == pair) =
      if pair ∈ held then []
      else (offers.filter fun offer => pairOf offer == pair).takeWhile (isFine faults) := by
  induction offers generalizing held with
  | nil => simp [spared]
  | cons offer rest ih =>
    unfold spared
    by_cases hpair : pairOf offer = pair
    · subst hpair
      by_cases hheld : pairOf offer ∈ held
      · simp [hheld, ih]
      · by_cases hfine : isFine faults offer = true <;> simp [hheld, hfine, ih]
    · by_cases hheld : pairOf offer ∈ held
      · simp [hheld, hpair, ih]
      · by_cases hfine : isFine faults offer = true <;>
          simp [hheld, hfine, hpair, Ne.symm hpair, ih]

/-! ## What is meant for a lane -/

/-- The offers of a lane and an aggregate are `meantFor` that lane. -/
theorem filter_pairOf (offers : List (String × Event)) (flow : String) (a : Uuid) :
    offers.filter (fun offer => pairOf offer == (flow, a)) =
      ((meantFor flow offers).filter fun e => e.aggregateId == a).map fun e => (flow, e) := by
  induction offers with
  | nil => rfl
  | cons offer rest ih =>
    obtain ⟨name, e⟩ := offer
    by_cases hname : name = flow
    · subst hname
      by_cases hagg : e.aggregateId = a
      · simpa [meantFor, pairOf, hagg] using ih
      · simpa [meantFor, pairOf, hagg] using ih
    · simpa [meantFor, pairOf, hname] using ih

/-- `filter_spared` with nothing held back at first: a lane gets of an aggregate what is meant for
it up to the first failure there. -/
theorem filter_meantFor_spared (offers : List (String × Event)) (flow : String) (a : Uuid) :
    (meantFor flow (spared faults [] offers)).filter (fun e => e.aggregateId == a) =
      ((meantFor flow offers).filter fun e => e.aggregateId == a).takeWhile
        fun e => (faults flow e).isNone := by
  have hpair := filter_spared faults [] offers (flow, a)
  rw [if_neg List.not_mem_nil, filter_pairOf, filter_pairOf, List.takeWhile_map] at hpair
  exact List.map_injective_iff.2 (Prod.mk_right_injective flow) hpair

theorem meantFor_sublist {offers offers' : List (String × Event)} (h : offers.Sublist offers')
    (flow : String) : (meantFor flow offers).Sublist (meantFor flow offers') :=
  (h.filter _).map _

/-! ## The procedure comes to this -/

/-- One offer: it is made and does not fail, or fails, or is held back. -/
theorem bears_enqueueFor (e : Event) (held : HeldBack) (flow : String) (m : Memory) :
    Bears faults (enqueueFor e held flow) m (heldAfter faults held [(flow, e)])
      { m with queue := m.queue.putAll (spared faults held [(flow, e)]) } := by
  unfold enqueueFor
  by_cases hheld : held.contains (flow, e.aggregateId) = true
  · simp only [heldAfter, spared, pairOf, hheld, List.foldl_cons, List.foldl_nil, Bool.true_or,
      if_true]
    exact (Bears.note _).bind (.pure _)
  · cases hfault : faults flow e with
    | none =>
      simp only [heldAfter, spared, pairOf, isFine, hheld, hfault, List.foldl_cons, List.foldl_nil,
        Option.isNone_none, Bool.or_true, Bool.false_eq_true, if_true, if_false]
      refine (Bears.enqueue hfault e.timestamp).bind ?_
      cases hk : (m.queue.laneAt flow).hasKey (Keyed.key e) with
      | true =>
        simp only [Queue.enqueue_of_hasKey _ hk, Queue.putAll, List.foldl_cons, List.foldl_nil]
        exact .pure _
      | false =>
        simp only [Queue.enqueue_of_not_hasKey _ hk, Queue.putAll, List.foldl_cons, List.foldl_nil]
        exact (Bears.note _).bind (.pure _)
    | some reason =>
      simp only [heldAfter, spared, pairOf, isFine, hheld, hfault, List.foldl_cons, List.foldl_nil,
        Option.isNone_some, Bool.or_self, Bool.false_eq_true, if_false]
      refine (Bears.enqueue_failed hfault e.timestamp).bind ?_
      exact (Bears.note _).bind (.pure _)

theorem bears_enqueueForAll (e : Event) (flows : List String) (held : HeldBack) (m : Memory) :
    Bears faults (enqueueForAll e flows held) m
      (heldAfter faults held (flows.map fun flow => (flow, e)))
      { m with
        queue := m.queue.putAll (spared faults held (flows.map fun flow => (flow, e))) } := by
  induction flows generalizing held m with
  | nil => exact .pure _
  | cons flow flows ih =>
    have hfirst : (flow :: flows).map (fun flow => (flow, e)) =
        [(flow, e)] ++ flows.map fun flow => (flow, e) := rfl
    rw [hfirst, spared_append, heldAfter_append, Queue.putAll_append]
    exact (bears_enqueueFor e held flow m).bind (ih _ _)

/-- The offers of a batch are its `deliveries`, event by event. -/
theorem bears_enqueueBatch (batch : List Event) (held : HeldBack) (m : Memory) :
    Bears faults (enqueueBatch registry batch held) m ()
      { m with queue := m.queue.putAll (spared faults held (deliveries registry batch)) } := by
  induction batch generalizing held m with
  | nil => exact .pure _
  | cons e rest ih =>
    have hfirst : deliveries registry (e :: rest) =
        ((registry.owners e).map fun flow => (flow, e)) ++ deliveries registry rest := rfl
    rw [hfirst, spared_append, Queue.putAll_append]
    exact (bears_enqueueForAll e (registry.owners e) held m).bind (ih _ _)

/-- Publishing succeeds whatever fails, and puts into the lanes the `deliveries` that are
`spared`. -/
theorem bears_publish (registry : Registry) {batch : List Event} {l : EventLog}
    (h : m.log.append batch = .ok l) (faults : Faults) :
    Bears faults (publish registry batch) m (.ok ()) { m with
      log := l
      queue := m.queue.putAll (spared faults [] (deliveries registry batch)) } := by
  have hcall := Bears.log faults m (.append batch)
  simp only [Memory.answerLog, h] at hcall
  refine hcall.bind ?_
  exact (bears_enqueueBatch batch [] { m with log := l }).bind (.pure _)

theorem spared_none (offers : List (String × Event)) :
    spared (fun _ _ => none) [] offers = offers := by
  induction offers with
  | nil => rfl
  | cons offer rest ih => simp [spared, isFine, ih]

theorem offerAll_eq_putAll (registry : Registry) (batch : List Event) (q : Queue Event) :
    offerAll registry batch q = q.putAll (deliveries registry batch) := by
  simp only [offerAll, offer, Queue.putAll, deliveries, List.foldl_flatMap, List.foldl_map]

/-- Without failures all `deliveries` are put into the lanes. -/
theorem comes_publish_ok {r : Call.Reading} {batch : List Event} {l : EventLog}
    (h : m.log.append batch = .ok l) : Comes r (publish registry batch) m (.ok ())
      { m with log := l, queue := offerAll registry batch m.queue } := by
  rw [offerAll_eq_putAll, ← spared_none (deliveries registry batch)]
  exact (bears_publish registry h fun _ _ => none).comes

/-! ## What is in the lanes then -/

/-- What a flow wants of an aggregate in a batch. -/
def wanted (registry : Registry) (batch : List Event) (flow : String) (a : Uuid) : List Event :=
  batch.filter fun e => e.aggregateId == a && registry.routesTo e flow

/-- What a publication of a batch does where `Faults` are in force. -/
structure Offered (registry : Registry) (faults : Faults) (batch : List Event) (m m' : Memory) :
    Prop where
  log : m.log.append batch = .ok m'.log
  progress : m'.progress = m.progress
  /-- Of each aggregate a lane gets what its flow wants up to the first failure there. -/
  lanes : ∀ flow, ∃ added, (m.queue.laneAt flow).Grown added (m'.queue.laneAt flow) ∧
    added.Sublist batch ∧ ∀ a, added.filter (fun e => e.aggregateId == a) =
      (wanted registry batch flow a).takeWhile fun e => (faults flow e).isNone

/-- Events with new ids get to the ends of the lanes, unless they are held back. -/
theorem offered (hreg : registry.Built) (hq : m.queue.WF) {batch : List Event} {l : EventLog}
    (happend : m.log.append batch = .ok l) (hids : (batch.map (·.id)).Nodup)
    (hnew : ∀ flow, ∀ x ∈ m.queue.items flow, ∀ e ∈ batch, x.id ≠ e.id) (faults : Faults) :
    Offered registry faults batch m { m with
      log := l
      queue := m.queue.putAll (spared faults [] (deliveries registry batch)) } where
  log := happend
  progress := rfl
  lanes flow := by
    have hsub := meantFor_sublist
      (spared_sublist faults [] (deliveries registry batch)) flow
    rw [meantFor_deliveries hreg] at hsub
    have hbatch := hsub.trans List.filter_sublist
    have hfresh := fresh_eq_self (m.queue.laneAt flow).ids
      (hids.sublist (hbatch.map (·.id))) fun e he hmem => by
        obtain ⟨x, hx, hid⟩ := List.mem_map.1 hmem
        exact hnew flow x.item (List.mem_map_of_mem hx) e (hbatch.subset he) hid
    refine ⟨_, hfresh ▸ hq.grown_putAll _ flow, hbatch, fun a => ?_⟩
    rw [filter_meantFor_spared, meantFor_deliveries hreg, List.filter_filter]
    rfl

end EventRelay.Publish
