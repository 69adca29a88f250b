import EventRelay.Proofs.Broker.Alone
import EventRelay.Proofs.Broker.Tasks

/-!
# The progress record never lies

Every system that can be reached is in a world, and every step leads to a later one. So whatever
holds of worlds holds of the broker under any interleaving: a wanted event is settled exactly if an
acknowledgement of it has completed, and what is settled stays settled.
-/

namespace EventRelay.System

variable {registry : Registry} {s s' : System} {w : World registry}

/-- The `World` that a system is in: its memory, the acknowledgements that its parties completed,
and nothing that is left for them to do is unsound. -/
structure InWorld (s : System) (w : World registry) : Prop where
  memory : w.memory = s.memory
  completed : ∀ flow a r, w.completed flow a r ↔ s.Completed flow a r
  sound : ∀ p ∈ s.parties, Sound p.rest p.said (fun _ _ => True) w

theorem inWorld_initial : InWorld {} (World.initial : World registry) where
  memory := rfl
  completed flow a r := by simp [World.initial, Completed]
  sound p hp := by cases hp

/-- A step goes to a later world: a new task is sound by `Task.sound`, and an answer is what `Sound`
says of a call. -/
theorem InWorld.step (h : InWorld s w) (hs : Step registry s s') :
    ∃ w', w ≤ w' ∧ InWorld s' w' := by
  cases hs with
  | start _ t =>
    refine ⟨w, le_rfl, h.memory, fun flow a r => ?_, fun p hp => ?_⟩
    · rw [h.completed, completed_start]
    · rcases List.mem_append.1 hp with hp | hp
      · exact h.sound p hp
      · rw [List.mem_singleton.1 hp]
        exact t.sound w
  | @call m m' t c a before next said after hans =>
    have hmem : ⟨t, .call c next, said⟩ ∈ before ++ (⟨t, .call c next, said⟩ : Party) :: after :=
      List.mem_append_right _ List.mem_cons_self
    have hans' : Answers w.memory c a m' := h.memory ▸ hans
    obtain ⟨w₂, hle, hm, hcomp, hnext⟩ := h.sound _ hmem w le_rfl a m' hans'
    refine ⟨w₂, hle, hm, fun flow b r => ?_, fun p hp => ?_⟩
    · rw [hcomp, h.completed, completed_call]
    · -- the others go on as they were, in a later world
      have hother : ∀ q ∈ before ++ (⟨t, .call c next, said⟩ : Party) :: after,
          Sound q.rest q.said (fun _ _ => True) w₂ := fun q hq => (h.sound q hq).mono hle
      rcases List.mem_append.1 hp with hp | hp
      · exact hother p (List.mem_append_left _ hp)
      · rcases List.mem_cons.1 hp with rfl | hp
        · exact hnext
        · exact hother p (List.mem_append_right _ (List.mem_cons_of_mem _ hp))

theorem InWorld.leads (h : InWorld s w) (hs : Leads registry s s') :
    ∃ w', w ≤ w' ∧ InWorld s' w' := by
  induction hs with
  | refl => exact ⟨w, le_rfl, h⟩
  | tail _ hstep ih =>
    obtain ⟨w₁, hle₁, h₁⟩ := ih
    obtain ⟨w₂, hle₂, h₂⟩ := h₁.step hstep
    exact ⟨w₂, hle₁.trans hle₂, h₂⟩

/-- Every reachable system is in a `World`. -/
theorem Reachable.exists_world (hs : Reachable registry s) : ∃ w : World registry, InWorld s w := by
  obtain ⟨w, -, h⟩ := inWorld_initial.leads hs
  exact ⟨w, h⟩

/-- What is stored stays stored, at its place, along `Leads`. -/
theorem Reachable.events_prefix (hs : Reachable registry s) (h : Leads registry s s') :
    s.memory.log.events <+: s'.memory.log.events := by
  obtain ⟨w, hw⟩ := hs.exists_world
  obtain ⟨w', hle, hw'⟩ := hw.leads h
  rw [← hw.memory, ← hw'.memory]
  exact hle.stored

/-- **The progress record never lies.** However publishers, workers, replays and recoveries
interleave: a stored event that a flow wants is settled exactly if an acknowledgement of its
aggregate and revision on that flow's lane has completed, the watermark is never over one that was
not acknowledged, and what is settled stays settled. -/
theorem settled_iff_completed (hs : Reachable registry s) :
    (∀ flow, ∀ e ∈ s.memory.log.events, registry.routesTo e flow = true →
      (s.memory.progress.Settled flow e.aggregateId e.revision ↔
        s.Completed flow e.aggregateId e.revision)) ∧
    (∀ flow, ∀ e ∈ s.memory.log.events, registry.routesTo e flow = true →
      e.revision ≤ (s.memory.progress.get flow e.aggregateId).watermark →
        s.Completed flow e.aggregateId e.revision) ∧
    ∀ s', Leads registry s s' → ∀ flow a r, s.memory.progress.Settled flow a r →
      s'.memory.progress.Settled flow a r := by
  obtain ⟨w, hw⟩ := hs.exists_world
  have hiff : ∀ flow, ∀ e ∈ s.memory.log.events, registry.routesTo e flow = true →
      (s.memory.progress.Settled flow e.aggregateId e.revision ↔
        s.Completed flow e.aggregateId e.revision) := by
    intro flow e he hroute
    rw [← hw.memory] at he ⊢
    rw [← hw.completed]
    exact w.settled_iff he hroute
  refine ⟨hiff, fun flow e he hroute hle => ?_, fun s' hs' flow a r hr => ?_⟩
  · exact (hiff flow e he hroute).1 (Progress.isSettled_iff.2 (.inl hle))
  · obtain ⟨w', hle, hw'⟩ := hw.leads hs'
    rw [← hw'.memory]
    exact hle.settled flow a r (hw.memory ▸ hr)

/-- Of two published events one is acknowledged, and only this one is `System.Completed`. -/
theorem settled_iff_completed_of_two :
    ∃ s, Reachable Sample.registry s ∧ s.memory.log.events.length = 2 ∧
      s.Completed "mail" (.ofNat 7) 1 ∧ ¬ s.Completed "mail" (.ofNat 7) 2 := by
  obtain ⟨s, hs, hm⟩ := exists_leads_carryOut Sample.registry
    [(.publish [Sample.placed 1, Sample.placed 2], Sample.clockAt 1),
      (.lease, Sample.clockAt 2), (.acknowledge ⟨"mail", .ofNat 2⟩, Sample.clockAt 3)] {}
  have h := (settled_iff_completed hs).1 "mail"
  rw [hm] at h
  refine ⟨s, hs, hm ▸ by decide, (h (Sample.placed 1) ?_ (by decide)).1 (by decide), fun hc => ?_⟩
  · exact List.mem_cons_self
  · have hstored : Sample.placed 2 ∈ [Sample.placed 1, Sample.placed 2] :=
      List.mem_cons_of_mem _ List.mem_cons_self
    have hsettled := (h (Sample.placed 2) hstored (by decide)).2 hc
    revert hsettled
    decide

end EventRelay.System
