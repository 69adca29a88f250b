import EventRelay.Proofs.Recovery.Drain
import Mathlib.Data.List.Induction

/-!
# What a publication does to the lanes

A publication that is done alone puts each event of the batch that it stores at the end of the lanes
of its owners, once.
-/

namespace EventRelay

namespace Queue

variable {q : Queue Event} {flow : String} {e : Event}

/-- In a well-formed queue the key of what waits in a lane is among its keys. -/
theorem WF.hasKey_of_mem_items (h : q.WF) (he : e ∈ q.items flow) :
    (q.laneAt flow).hasKey (Keyed.key e) = true := by
  obtain ⟨x, hx, rfl⟩ := List.mem_map.1 he
  rw [Lane.hasKey_iff]
  exact ⟨x, hx, (h.lane flow).keyed x hx⟩

theorem WF.hasKey_eq_false (h : q.WF) (hne : ∀ x ∈ q.items flow, x.id ≠ e.id) :
    (q.laneAt flow).hasKey (Keyed.key e) = false := by
  rw [Bool.eq_false_iff, ne_eq, Lane.hasKey_iff]
  rintro ⟨x, hx, hkey⟩
  rw [(h.lane flow).keyed x hx] at hkey
  exact hne x.item (List.mem_map_of_mem hx) (Uuid.toString_inj hkey)

end Queue

namespace Publish

variable {registry : Registry} {r : Call.Reading} {m : Memory} {q : Queue Event}

/-- The queue after an event was put into the lanes of flows, by `Queue.enqueue`. -/
def offer (e : Event) (flows : List String) (q : Queue Event) : Queue Event :=
  flows.foldl (fun q flow => (q.enqueue flow e e.timestamp).2) q

/-- The queue after the events of a batch were put into the lanes of their `Registry.owners`. -/
def offerAll (registry : Registry) (batch : List Event) (q : Queue Event) : Queue Event :=
  batch.foldl (fun q e => offer e (registry.owners e) q) q

/-! ## The procedure comes to this -/

theorem comes_publish_error {batch : List Event} {e : LogError}
    (h : m.log.append batch = .error e) : Comes r (publish registry batch) m (.error e) m := by
  have hcall := Comes.log (r := r) (m := m) (.append batch)
  simp only [Memory.answerLog, h] at hcall
  exact hcall.bind fun r => .pure _

/-! ## What is in the lanes then -/

/-- An event that is in no lane gets to the end of those of the flows, also if one is named twice:
`Queue.enqueue` refuses it the second time. -/
theorem items_offer {e : Event} (hq : q.WF) (hnew : ∀ flow, ∀ x ∈ q.items flow, x.id ≠ e.id)
    (flows : List String) : (offer e flows q).WF ∧ ∀ name, (offer e flows q).items name =
      if name ∈ flows then q.items name ++ [e] else q.items name := by
  induction flows using List.reverseRecOn with
  | nil => exact ⟨hq, fun name => by simp [offer]⟩
  | append_singleton flows flow ih =>
    obtain ⟨hwf, hitems⟩ := ih
    have hstep : offer e (flows ++ [flow]) q =
        ((offer e flows q).enqueue flow e e.timestamp).2 := by
      simp [offer]
    rw [hstep]
    refine ⟨hwf.enqueue flow e e.timestamp, ?_⟩
    intro name
    by_cases hmem : flow ∈ flows
    · have hk : ((offer e flows q).laneAt flow).hasKey (Keyed.key e) = true := by
        apply hwf.hasKey_of_mem_items
        simp [hitems, hmem]
      rw [Queue.enqueue_of_hasKey _ hk, hitems]
      by_cases heq : name = flow
      · simp [heq, hmem]
      · simp [heq]
    · have hk : ((offer e flows q).laneAt flow).hasKey (Keyed.key e) = false := by
        apply hwf.hasKey_eq_false
        intro x hx
        rw [hitems, if_neg hmem] at hx
        exact hnew flow x hx
      rw [Queue.items_enqueue _ hk, hitems, hitems]
      by_cases heq : name = flow
      · simp [heq, hmem]
      · simp [heq]

/-- The events of a batch get to the ends of the lanes of their `Registry.owners`, in their
order. -/
theorem items_offerAll {batch seen : List Event} (hq : q.WF)
    (hseen : ∀ flow, ∀ x ∈ q.items flow, x ∈ seen)
    (hids : ((seen ++ batch).map (·.id)).Nodup) :
    (offerAll registry batch q).WF ∧ ∀ name, (offerAll registry batch q).items name =
      q.items name ++ batch.filter fun e => decide (name ∈ registry.owners e) := by
  induction batch generalizing q seen with
  | nil => exact ⟨hq, fun name => by simp [offerAll]⟩
  | cons e rest ih =>
    have hnew : ∀ flow, ∀ x ∈ q.items flow, x.id ≠ e.id := by
      intro flow x hx
      rw [List.map_append, List.nodup_append] at hids
      exact hids.2.2 _ (List.mem_map_of_mem (hseen flow x hx)) _ (by simp)
    obtain ⟨hwf, hitems⟩ := items_offer hq hnew (registry.owners e)
    have hseen' : ∀ flow, ∀ x ∈ (offer e (registry.owners e) q).items flow, x ∈ seen ++ [e] := by
      intro flow x hx
      rw [hitems] at hx
      split at hx
      · rcases List.mem_append.1 hx with hx | hx
        · exact List.mem_append_left _ (hseen flow x hx)
        · exact List.mem_append_right _ hx
      · exact List.mem_append_left _ (hseen flow x hx)
    obtain ⟨hwf', hitems'⟩ := ih hwf hseen' (by simpa using hids)
    refine ⟨hwf', ?_⟩
    intro name
    have hstep : offerAll registry (e :: rest) q =
        offerAll registry rest (offer e (registry.owners e) q) := rfl
    rw [hstep, hitems', hitems]
    by_cases hmem : name ∈ registry.owners e
    · simp [hmem]
    · simp [hmem]

end Publish

end EventRelay
