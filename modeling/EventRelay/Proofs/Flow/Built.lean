import EventRelay.Flow.Registry
import EventRelay.Proofs.ByName

/-!
# Registries that were built

A registry comes out of the empty one by registering flows. So each name stands in it once, and the
owners of an event are just the flows that it is routed to.
-/

namespace EventRelay.Registry

/-- A `Registry` that flows were registered in one after the other, and nothing else was done to. -/
inductive Built : Registry → Prop
  | empty : Built Registry.empty
  | register {r r' : Registry} {name : String} {patterns : List String} :
      Built r → r.register name patterns = .ok r' → Built r'

variable {r r' : Registry} {flow : String} {e : Event}

theorem register_eq_ok {name : String} {patterns : List String}
    (h : r.register name patterns = .ok r') : ∃ ps, r' = ⟨ByName.insert name ps r.flows⟩ := by
  unfold register at h
  split at h
  · cases h
  · cases hparse : parsePatterns patterns with
    | error e =>
      rw [hparse] at h
      cases h
    | ok ps =>
      rw [hparse] at h
      exact ⟨ps, (Except.ok.inj h).symm⟩

/-- A registry that is `Built` is so after more flows were registered. -/
theorem Built.registerAll {flows : List (String × List String)} (h : r.Built)
    (hok : r.registerAll flows = .ok r') : r'.Built := by
  induction flows generalizing r with
  | nil =>
    obtain rfl := Except.ok.inj hok
    exact h
  | cons flow rest ih =>
    unfold Registry.registerAll at hok
    split at hok
    · next hstep => exact ih (h.register hstep) hok
    · cases hok

/-- What `ofJson` reads of a configuration is `Built`. -/
theorem built_of_ofJson {text : String} (h : ofJson text = .ok r) : r.Built := by
  unfold ofJson at h
  split at h
  · exact Built.empty.registerAll h
  · cases h

namespace Built

theorem ascending (h : r.Built) : ByName.Ascending r.flows := by
  induction h with
  | empty => exact ByName.Ascending.nil
  | register _ hstep ih =>
    obtain ⟨ps, rfl⟩ := register_eq_ok hstep
    exact ih.insert _ ps

/-- No name stands twice in a registry that is `Built`. -/
theorem nodup_names (h : r.Built) : r.names.Nodup := by
  apply List.Pairwise.imp _ h.ascending
  rintro name _ hlt rfl
  exact String.lt_irrefl name hlt

theorem owners_sublist (r : Registry) (e : Event) : (r.owners e).Sublist r.names :=
  List.filter_sublist.map _

theorem nodup_owners (h : r.Built) (e : Event) : (r.owners e).Nodup :=
  h.nodup_names.sublist (owners_sublist r e)

/-- The `owners` of an event are the flows that it is routed to. -/
theorem mem_owners_iff (h : r.Built) : flow ∈ r.owners e ↔ r.routesTo e flow = true := by
  unfold owners routesTo
  constructor
  · intro hmem
    obtain ⟨⟨name, ps⟩, hentry, rfl⟩ := List.mem_map.1 hmem
    obtain ⟨hflow, haccepts⟩ := List.mem_filter.1 hentry
    rw [h.ascending.mem_iff.1 hflow]
    exact haccepts
  · intro hroute
    split at hroute
    · next ps hfind =>
      exact List.mem_map.2 ⟨_, List.mem_filter.2 ⟨h.ascending.mem_iff.2 hfind, hroute⟩, rfl⟩
    · cases hroute

end Built

end EventRelay.Registry
