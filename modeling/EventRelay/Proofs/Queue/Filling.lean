import EventRelay.Proofs.Delivery.Lanes
import EventRelay.Proofs.Flow.Built

/-!
# Filling lanes

Publishing, recoveries and replays all put events into lanes one after the other, under their own
times. What that does to a lane is told from the ids that are in it and from the events that are
meant for it: behind the entries it has it gets one for each event whose id is not there by then.
-/

namespace EventRelay

/-- The events whose ids are not known, each becoming known as it comes. -/
def fresh (known : List Uuid) : List Event → List Event
  | [] => []
  | e :: rest =>
    if e.id ∈ known then fresh known rest else e :: fresh (known ++ [e.id]) rest

/-- Sorted by different keys, what has a key is what was put under it. -/
theorem filter_flatMap_of_nodup {α β : Type} [DecidableEq β] (key : α → β) {keys : List β}
    (h : keys.Nodup) {f : β → List α} (hf : ∀ k, ∀ x ∈ f k, key x = k) {k : β} :
    (keys.flatMap f).filter (fun x => key x == k) = if k ∈ keys then f k else [] := by
  induction keys with
  | nil => rfl
  | cons first rest ih =>
    obtain ⟨hnot, hrest⟩ := List.nodup_cons.1 h
    rw [List.flatMap_cons, List.filter_append, ih hrest]
    by_cases heq : first = k
    · subst heq
      have hall : (f first).filter (fun x => key x == first) = f first := by
        rw [List.filter_eq_self]
        exact fun x hx => beq_iff_eq.2 (hf first x hx)
      simp [hall, hnot]
    · have hnone : (f first).filter (fun x => key x == k) = [] := by
        rw [List.filter_eq_nil_iff]
        intro x hx
        rw [hf first x hx, beq_iff_eq]
        exact heq
      simp [hnone, Ne.symm heq]

/-- What is to be kept of `fresh` events, where those before it have other ids: only the ids that
are known from the start count. -/
theorem filter_fresh {p : Event → Bool} {known : List Uuid} {es : List Event}
    (h : es.Pairwise fun x y => p y = true → y.id ∉ known → x.id ≠ y.id) :
    (fresh known es).filter p = es.filter fun e => p e && decide (e.id ∉ known) := by
  induction es generalizing known with
  | nil => rfl
  | cons e rest ih =>
    obtain ⟨hfirst, hrest⟩ := List.pairwise_cons.1 h
    unfold fresh
    split
    · next hknown => rw [ih hrest, List.filter_cons_of_neg (by simp [hknown])]
    · next hnew =>
      have hlater : rest.filter (fun y => p y && decide (y.id ∉ known ++ [e.id])) =
          rest.filter fun y => p y && decide (y.id ∉ known) := by
        apply List.filter_congr
        intro y hy
        by_cases hp : p y = true
        · by_cases hy' : y.id ∈ known
          · simp [hy']
          · simp [hp, hy', (hfirst y hy hp hy').symm]
        · simp [hp]
      have hrest' : rest.Pairwise fun x y => p y = true → y.id ∉ known ++ [e.id] → x.id ≠ y.id :=
        hrest.imp fun hxy hp hy => hxy hp fun hmem => hy (List.mem_append_left _ hmem)
      rw [List.filter_cons, List.filter_cons, ih hrest', hlater]
      simp [hnew]

/-- Where no id comes twice, `fresh` looks only at those known from the start. -/
theorem fresh_eq_filter {known : List Uuid} {es : List Event} (h : (es.map (·.id)).Nodup) :
    fresh known es = es.filter fun e => decide (e.id ∉ known) := by
  have hpairs : es.Pairwise fun x y => true = true → y.id ∉ known → x.id ≠ y.id :=
    (List.pairwise_map.1 h).imp fun hne _ _ => hne
  simpa using filter_fresh (p := fun _ => true) hpairs

theorem fresh_sublist (known : List Uuid) (es : List Event) : (fresh known es).Sublist es := by
  induction es generalizing known with
  | nil => exact .slnil
  | cons e rest ih =>
    unfold fresh
    split
    · exact (ih known).cons e
    · exact (ih _).cons_cons e

theorem fresh_eq_self (known : List Uuid) {es : List Event} (h : (es.map (·.id)).Nodup)
    (hnew : ∀ e ∈ es, e.id ∉ known) : fresh known es = es := by
  rw [fresh_eq_filter h, List.filter_eq_self]
  exact fun e he => decide_eq_true (hnew e he)

namespace Lane

variable {l l' l'' : Lane Event} {es es' : List Event}

/-- The ids of the events in a lane. -/
def ids (l : Lane Event) : List Uuid := l.entries.map (·.item.id)

/-- The lane kept its entries, and got one behind them for each of the events, under its own
time. -/
def Gains (l : Lane Event) (es : List Event) (l' : Lane Event) : Prop :=
  ∃ new, l'.entries = l.entries ++ new ∧
    new.map (fun x => (x.item, x.key, x.priority)) = es.map fun e => (e, toString e.id, e.timestamp)

/-- What waits in a lane that `Gains` events are its items and then these. -/
theorem Gains.items (h : l.Gains es l') :
    l'.entries.map (·.item) = l.entries.map (·.item) ++ es := by
  obtain ⟨new, hl, hnew⟩ := h
  have hitems := congrArg (List.map Prod.fst) hnew
  simp only [List.map_map, Function.comp_def, List.map_id'] at hitems
  rw [hl, List.map_append, hitems]

/-- The lane `Gains` events, and kept its lease. -/
structure Grown (l : Lane Event) (es : List Event) (l' : Lane Event) : Prop where
  gains : l.Gains es l'
  lease : l'.lease = l.lease

namespace Grown

theorem refl (l : Lane Event) : l.Grown [] l := ⟨⟨[], by simp⟩, rfl⟩

/-- What is `Grown` by some events and then by others has grown by all of them. -/
theorem trans (h : l.Grown es l') (h' : l'.Grown es' l'') : l.Grown (es ++ es') l'' where
  gains := by
    obtain ⟨new, hl, hnew⟩ := h.gains
    obtain ⟨new', hl', hnew'⟩ := h'.gains
    refine ⟨new ++ new', ?_, ?_⟩
    · rw [hl', hl, List.append_assoc]
    · rw [List.map_append, hnew, hnew', List.map_append]
  lease := h'.lease.trans h.lease

end Grown

end Lane

namespace Queue

variable {q : Queue Event} {flow : String} {e : Event} {jobs : List (String × Event)}

/-- In a queue that is `WF`, an event is found in a lane by its id. -/
theorem WF.hasKey_eq_true_iff (h : q.WF) :
    (q.laneAt flow).hasKey (Keyed.key e) = true ↔ e.id ∈ (q.laneAt flow).ids := by
  rw [Lane.hasKey_iff, Lane.ids, List.mem_map]
  refine exists_congr fun x => and_congr_right fun hx => ?_
  rw [(h.lane flow).keyed x hx]
  exact ⟨fun hkey => Uuid.toString_inj hkey, fun hid => congrArg toString hid⟩

/-- `enqueue` puts an event with a new key behind the entries of its lane. -/
theorem laneAt_enqueue (priority : Int) (hk : (q.laneAt flow).hasKey (Keyed.key e) = false)
    (name : String) : (q.enqueue flow e priority).2.laneAt name =
      if name = flow then q.appended flow (q.nextEntry e priority) else q.laneAt name := by
  rw [enqueue_of_not_hasKey priority hk]
  exact laneAt_setLane q flow name _

/-- The lane is `Grown` by the event unless its id is there; no other lane gets anything. -/
theorem WF.grown_enqueue (h : q.WF) (flow : String) (e : Event) (name : String) :
    (q.laneAt name).Grown
      (fresh (q.laneAt name).ids (if flow = name then [e] else []))
      ((q.enqueue flow e e.timestamp).2.laneAt name) := by
  by_cases hname : flow = name
  · subst hname
    rw [if_pos rfl]
    unfold fresh
    split
    · next hknown =>
      rw [enqueue_of_hasKey _ (h.hasKey_eq_true_iff.2 hknown)]
      exact .refl _
    · next hnew =>
      have hk := Bool.eq_false_iff.2 (mt h.hasKey_eq_true_iff.1 hnew)
      rw [laneAt_enqueue _ hk, if_pos rfl]
      exact ⟨⟨[q.nextEntry e e.timestamp], rfl, rfl⟩, rfl⟩
  · rw [if_neg hname]
    cases hk : (q.laneAt flow).hasKey (Keyed.key e) with
    | true =>
      rw [enqueue_of_hasKey _ hk]
      exact .refl _
    | false =>
      rw [laneAt_enqueue _ hk, if_neg (Ne.symm hname)]
      exact .refl _

/-! ## One event after the other -/

/-- The queue after events were put into lanes by `enqueue`, one after the other, each under its own
time. -/
def putAll (jobs : List (String × Event)) (q : Queue Event) : Queue Event :=
  jobs.foldl (fun q job => (q.enqueue job.1 job.2 job.2.timestamp).2) q

/-- The events that are meant for a lane. -/
def meantFor (name : String) (jobs : List (String × Event)) : List Event :=
  (jobs.filter fun job => job.1 == name).map (·.2)

theorem meantFor_append (name : String) (jobs jobs' : List (String × Event)) :
    meantFor name (jobs ++ jobs') = meantFor name jobs ++ meantFor name jobs' := by
  simp [meantFor]

theorem meantFor_flatMap {β : Type} (name : String) (xs : List β) (f : β → List (String × Event)) :
    meantFor name (xs.flatMap f) = xs.flatMap fun x => meantFor name (f x) := by
  simp [meantFor, List.filter_flatMap, List.map_flatMap]

/-- Where each of different lanes is to get events, `meantFor` a lane are its own. -/
theorem meantFor_of_nodup {names : List String} (h : names.Nodup) (name : String)
    (f : String → List Event) : meantFor name (names.flatMap fun n => (f n).map fun e => (n, e)) =
      if name ∈ names then f name else [] := by
  unfold meantFor
  rw [filter_flatMap_of_nodup Prod.fst h fun n job hjob => ?_]
  · split <;> simp [Function.comp_def]
  · obtain ⟨e, -, rfl⟩ := List.mem_map.1 hjob
    rfl

/-- Events with the lanes of their `Registry.owners`. -/
def deliveries (registry : Registry) (es : List Event) : List (String × Event) :=
  es.flatMap fun e => (registry.owners e).map fun flow => (flow, e)

/-- Of the `deliveries` those are meant for a flow that are routed to it. -/
theorem meantFor_deliveries {registry : Registry} (hreg : registry.Built) (flow : String)
    (es : List Event) :
    meantFor flow (deliveries registry es) = es.filter fun e => registry.routesTo e flow := by
  induction es with
  | nil => rfl
  | cons e rest ih =>
    have hfirst : meantFor flow ((registry.owners e).map fun flow => (flow, e)) =
        if flow ∈ registry.owners e then [e] else [] := by
      rw [List.map_eq_flatMap]
      exact meantFor_of_nodup (hreg.nodup_owners e) flow fun _ => [e]
    have hstep : deliveries registry (e :: rest) =
        ((registry.owners e).map fun flow => (flow, e)) ++ deliveries registry rest := rfl
    rw [hstep, meantFor_append, ih, hfirst]
    by_cases hroute : registry.routesTo e flow = true
    · rw [if_pos (hreg.mem_owners_iff.2 hroute)]
      simp [hroute]
    · rw [if_neg (mt hreg.mem_owners_iff.1 hroute)]
      simp [hroute]

theorem putAll_cons (job : String × Event) (rest : List (String × Event)) (q : Queue Event) :
    putAll (job :: rest) q = putAll rest (q.enqueue job.1 job.2 job.2.timestamp).2 := rfl

theorem putAll_append (jobs jobs' : List (String × Event)) (q : Queue Event) :
    putAll (jobs ++ jobs') q = putAll jobs' (putAll jobs q) := List.foldl_append

theorem WF.putAll (h : q.WF) (jobs : List (String × Event)) : (Queue.putAll jobs q).WF := by
  induction jobs generalizing q with
  | nil => exact h
  | cons job rest ih => exact ih (h.enqueue job.1 job.2 job.2.timestamp)

/-- The first event is `fresh` or not, and makes its id known to the rest. -/
theorem fresh_cons (known : List Uuid) (e : Event) (es : List Event) :
    fresh known (e :: es) =
      fresh known [e] ++ fresh (known ++ (fresh known [e]).map (·.id)) es := by
  by_cases hknown : e.id ∈ known <;> simp [fresh, hknown]

/-- **What filling does to a lane** is told from its ids and the events that are `meantFor` it. By
induction on the offers, each by `WF.grown_enqueue`. -/
theorem WF.grown_putAll (h : q.WF) (jobs : List (String × Event)) (name : String) :
    (q.laneAt name).Grown (fresh (q.laneAt name).ids (meantFor name jobs))
      ((Queue.putAll jobs q).laneAt name) := by
  induction jobs generalizing q with
  | nil => exact .refl _
  | cons job rest ih =>
    obtain ⟨flow, e⟩ := job
    have hfirst := h.grown_enqueue flow e name
    have hrest := ih (h.enqueue flow e e.timestamp)
    have hids : ((q.enqueue flow e e.timestamp).2.laneAt name).ids =
        (q.laneAt name).ids ++
          (fresh (q.laneAt name).ids (if flow = name then [e] else [])).map (·.id) := by
      have hitems := congrArg (List.map (·.id)) hfirst.gains.items
      simpa [Lane.ids, Function.comp_def] using hitems
    rw [hids] at hrest
    have hboth := hfirst.trans hrest
    by_cases hname : flow = name
    · simp only [hname, if_true] at hboth
      rw [← fresh_cons] at hboth
      simpa [meantFor, putAll_cons, hname] using hboth
    · simpa [meantFor, putAll_cons, hname, fresh] using hboth

/-- The number of entries and the sequence numbers go up together. -/
theorem WF.length_enqueue (h : q.WF) (flow : String) (e : Event) (priority : Int) :
    (q.enqueue flow e priority).2.length + q.nextSequence =
      q.length + (q.enqueue flow e priority).2.nextSequence := by
  cases hk : (q.laneAt flow).hasKey (Keyed.key e) with
  | true => rw [enqueue_of_hasKey _ hk]
  | false =>
    have hlen := length_setLane h.ascending flow (q.appended flow (q.nextEntry e priority))
    rw [enqueue_of_not_hasKey _ hk]
    have hlane : (q.appended flow (q.nextEntry e priority)).entries.length =
        (q.laneAt flow).entries.length + 1 := by
      simp [appended]
    change (q.setLane flow (q.appended flow (q.nextEntry e priority))).length + q.nextSequence =
      q.length + (q.nextSequence + 1)
    omega

theorem WF.length_putAll (h : q.WF) (jobs : List (String × Event)) :
    (Queue.putAll jobs q).length + q.nextSequence =
      q.length + (Queue.putAll jobs q).nextSequence := by
  induction jobs generalizing q with
  | nil => rfl
  | cons job rest ih =>
    have hfirst := h.length_enqueue job.1 job.2 job.2.timestamp
    have hrest := ih (h.enqueue job.1 job.2 job.2.timestamp)
    rw [putAll_cons]
    omega

end Queue

theorem Sample.registry_built : Sample.registry.Built := by
  have hmail : Registry.empty.register "mail" ["*.*.*"] = .ok Sample.registry := rfl
  exact .register .empty hmail

end EventRelay
