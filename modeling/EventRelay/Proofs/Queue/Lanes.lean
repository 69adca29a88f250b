import EventRelay.Memory
import EventRelay.Proofs.ByName

/-!
# The lanes of a queue

A queue is known by its lanes, looked up by name. `laneAt` answers an empty lane without a lease
where the queue keeps none, so that keeping such a lane or dropping it makes no difference, and
every operation puts one lane in place of another or leaves all of them as they are.

`WF` is what every queue has that comes out of an empty one: no lane is kept without an entry, the
keys within a lane are distinct, and sequence numbers ascend in each lane and are never used twice.
-/

namespace EventRelay

namespace Lane

variable {τ : Type} [Keyed τ]

omit [Keyed τ] in
@[ext] theorem ext {a b : Lane τ} (he : a.entries = b.entries) (hl : a.lease = b.lease) :
    a = b := by
  cases a
  cases b
  cases he
  cases hl
  rfl

omit [Keyed τ] in
theorem hasKey_iff {l : Lane τ} {key : String} :
    l.hasKey key = true ↔ ∃ e ∈ l.entries, e.key = key := by
  simp [hasKey]

/-- A lane of a name whose entries were numbered below `bound`, each under its key and in order. -/
structure WF (name : String) (bound : Nat) (l : Lane τ) : Prop where
  keyed : ∀ e ∈ l.entries, e.key = Keyed.key e.item
  distinct : (l.entries.map (·.key)).Nodup
  ascending : (l.entries.map (·.sequence)).Pairwise (· < ·)
  below : ∀ e ∈ l.entries, e.sequence < bound
  leased : ∀ lease, l.lease = some lease → lease.lane = name

namespace WF

variable {name : String} {bound bound' : Nat} {l : Lane τ} {head : Entry τ} {rest : List (Entry τ)}

theorem empty : ({} : Lane τ).WF name bound where
  keyed _ he := by cases he
  distinct := List.nodup_nil
  ascending := List.Pairwise.nil
  below _ he := by cases he
  leased _ h := by cases h

theorem mono (h : l.WF name bound) (hb : bound ≤ bound') : l.WF name bound' :=
  { h with below := fun e he => Nat.lt_of_lt_of_le (h.below e he) hb }

/-- `update` by a lane with another lease. -/
theorem setLease (h : l.WF name bound) {lease : Option Lease}
    (hl : ∀ x, lease = some x → x.lane = name) :
    ({ l with lease := lease } : Lane τ).WF name bound :=
  { h with leased := hl }

/-- An entry with a new key and the next number goes to the end. -/
theorem append (h : l.WF name bound) {e : Entry τ} (hk : e.key = Keyed.key e.item)
    (hn : l.hasKey e.key = false) (hs : e.sequence = bound) :
    ({ l with entries := l.entries ++ [e] } : Lane τ).WF name (bound + 1) where
  keyed x hx := by
    rcases List.mem_append.1 hx with hx | hx
    · exact h.keyed x hx
    · rw [List.mem_singleton.1 hx, hk]
  distinct := by
    rw [List.map_append, List.nodup_append]
    refine ⟨h.distinct, List.pairwise_singleton .., fun k hk' k' hk'' heq => ?_⟩
    obtain ⟨x, hx, rfl⟩ := List.mem_map.1 hk'
    have hkey : x.key = e.key := heq.trans (List.mem_singleton.1 hk'')
    rw [hasKey_iff.2 ⟨x, hx, hkey⟩] at hn
    cases hn
  ascending := by
    rw [List.map_append, List.pairwise_append]
    refine ⟨h.ascending, List.pairwise_singleton .., fun n hn' m hm => ?_⟩
    obtain ⟨x, hx, rfl⟩ := List.mem_map.1 hn'
    obtain rfl := List.mem_singleton.1 hm
    exact Nat.lt_of_lt_of_eq (h.below x hx) hs.symm
  below x hx := by
    rcases List.mem_append.1 hx with hx | hx
    · exact Nat.lt_succ_of_lt (h.below x hx)
    · rw [List.mem_singleton.1 hx, hs]
      exact Nat.lt_succ_self _
  leased := h.leased

/-- Without its head and its lease a lane is `WF`. -/
theorem tail (h : l.WF name bound) (he : l.entries = head :: rest) :
    ({ entries := rest } : Lane τ).WF name bound where
  keyed e hx := h.keyed e (he ▸ List.mem_cons_of_mem _ hx)
  distinct := by
    have hd := h.distinct
    rw [he] at hd
    exact (List.nodup_cons.1 hd).2
  ascending := by
    have ha := h.ascending
    rw [he] at ha
    exact (List.pairwise_cons.1 ha).2
  below e hx := h.below e (he ▸ List.mem_cons_of_mem _ hx)
  leased _ hl := by cases hl

/-- The head can go to the end: no other entry has its key. -/
theorem head_key_not_mem (h : l.WF name bound) (he : l.entries = head :: rest) :
    ({ entries := rest } : Lane τ).hasKey head.key = false := by
  have hd := h.distinct
  rw [he] at hd
  have hnot := (List.nodup_cons.1 hd).1
  rw [Bool.eq_false_iff, ne_eq, hasKey_iff]
  rintro ⟨e, hx, hk⟩
  exact hnot (List.mem_map.2 ⟨e, hx, hk⟩)

end WF

end Lane

namespace Queue

variable {τ : Type}

/-- The lane of a name, empty and without a lease where `lane?` keeps none. -/
def laneAt (q : Queue τ) (name : String) : Lane τ := (q.lane? name).getD {}

theorem laneAt_eq_of_lane? {q : Queue τ} {name : String} {l : Lane τ} (h : q.lane? name = some l) :
    q.laneAt name = l := by
  simp [laneAt, h]

theorem lane?_eq_of_entries {q : Queue τ} {name : String} (h : (q.laneAt name).entries ≠ []) :
    q.lane? name = some (q.laneAt name) := by
  unfold laneAt at h ⊢
  cases hl : q.lane? name with
  | none => simp [hl] at h
  | some l => rfl

/-- `setLane` is seen under its name, and under no other. -/
theorem lane?_setLane (q : Queue τ) (name other : String) (l : Lane τ) :
    (q.setLane name l).lane? other = if other = name then some l else q.lane? other := by
  split
  · next h => subst h; exact ByName.find?_insert_self ..
  · next h => exact ByName.find?_insert_of_ne h ..

@[simp] theorem laneAt_setLane (q : Queue τ) (name other : String) (l : Lane τ) :
    (q.setLane name l).laneAt other = if other = name then l else q.laneAt other := by
  simp only [laneAt, lane?_setLane]
  split <;> rfl

@[simp] theorem laneAt_nextSequence (q : Queue τ) (n : Nat) :
    ({ q with nextSequence := n } : Queue τ).laneAt = q.laneAt := rfl

@[simp] theorem setOrDrop_nextSequence (q : Queue τ) (name : String) (l : Lane τ) :
    (q.setOrDrop name l).nextSequence = q.nextSequence := by
  unfold setOrDrop
  split <;> rfl

theorem Lane.eq_empty {l : Lane τ} (he : l.entries.isEmpty = true) (hl : l.lease.isNone = true) :
    l = {} := by
  exact Lane.ext (List.isEmpty_iff.1 he) (Option.isNone_iff_eq_none.1 hl)

/-- A lane is seen as it is after `setOrDrop`, kept or dropped. -/
theorem laneAt_setOrDrop {q : Queue τ} (h : ByName.Ascending q.lanes) (name other : String)
    (l : Lane τ) :
    (q.setOrDrop name l).laneAt other = if other = name then l else q.laneAt other := by
  unfold setOrDrop
  split
  · next hdrop =>
    obtain ⟨he, hl⟩ := Bool.and_eq_true_iff.1 hdrop
    simp only [laneAt, lane?]
    split
    · next heq => subst heq; rw [h.find?_erase_self, Lane.eq_empty he hl]; rfl
    · next hne => rw [ByName.find?_erase_of_ne hne]
  · exact laneAt_setLane ..

/-! ## What every queue has -/

/-- What is so of a `Queue` that comes out of an empty one. -/
structure WF [Keyed τ] (q : Queue τ) : Prop where
  ascending : ByName.Ascending q.lanes
  occupied : ∀ name l, q.lane? name = some l → l.entries ≠ []
  lane : ∀ name, (q.laneAt name).WF name q.nextSequence
  apart : ∀ name other, name ≠ other → ∀ e ∈ (q.laneAt name).entries,
    ∀ e' ∈ (q.laneAt other).entries, e.sequence ≠ e'.sequence

namespace WF

variable [Keyed τ] {q q' : Queue τ}

theorem empty : (Queue.empty : Queue τ).WF where
  ascending := ByName.Ascending.nil
  occupied _ _ h := by cases h
  lane _ := Lane.WF.empty
  apart _ _ _ _ he := by cases he

theorem entries_ne_nil_of_lease (h : q.WF) {name : String} {lease : Lease}
    (hl : (q.laneAt name).lease = some lease) : (q.laneAt name).entries ≠ [] := by
  cases hq : q.lane? name with
  | none => simp [laneAt, hq] at hl
  | some l => rw [laneAt_eq_of_lane? hq]; exact h.occupied name l hq

/-- Another lane in the place of one, with entries that were there or are numbered anew, keeps a
queue `WF`. -/
theorem update (h : q.WF) {name : String} {l : Lane τ} (hasc : ByName.Ascending q'.lanes)
    (hocc : ∀ n x, q'.lane? n = some x → x.entries ≠ [])
    (hat : ∀ n, q'.laneAt n = if n = name then l else q.laneAt n)
    (hnext : q.nextSequence ≤ q'.nextSequence) (hl : l.WF name q'.nextSequence)
    (hfrom : ∀ e ∈ l.entries, (∃ e' ∈ (q.laneAt name).entries, e'.sequence = e.sequence) ∨
      q.nextSequence ≤ e.sequence) : q'.WF := by
  -- an entry of the new lane against one of another: old numbers were apart, new ones are above
  have hnew : ∀ other, other ≠ name → ∀ e ∈ l.entries, ∀ e' ∈ (q.laneAt other).entries,
      e.sequence ≠ e'.sequence := by
    intro other hne e he e' he'
    rcases hfrom e he with ⟨e₀, he₀, heq⟩ | hle
    · rw [← heq]
      exact h.apart name other hne.symm e₀ he₀ e' he'
    · have := (h.lane other).below e' he'
      omega
  refine ⟨hasc, hocc, fun n => ?_, fun n other hne e he e' he' => ?_⟩
  · rw [hat]
    split
    · next heq => subst heq; exact hl
    · exact (h.lane n).mono hnext
  · rw [hat] at he he'
    split at he <;> split at he'
    · next h1 h2 => exact absurd (h1.trans h2.symm) hne
    · next h1 h2 => exact hnew other h2 e he e' he'
    · next h1 h2 => exact (hnew n h1 e' he' e he).symm
    · exact h.apart n other hne e he e' he'

/-- `update` by a lane that has entries. -/
theorem setLane (h : q.WF) {name : String} {l : Lane τ} {n : Nat} (hne : l.entries ≠ [])
    (hnext : q.nextSequence ≤ n) (hl : l.WF name n)
    (hfrom : ∀ e ∈ l.entries, (∃ e' ∈ (q.laneAt name).entries, e'.sequence = e.sequence) ∨
      q.nextSequence ≤ e.sequence) :
    ({ q.setLane name l with nextSequence := n } : Queue τ).WF := by
  refine h.update (h.ascending.insert name l) (fun other x hx => ?_)
    (fun other => laneAt_setLane q name other l) hnext hl hfrom
  rw [show ({ q.setLane name l with nextSequence := n } : Queue τ).lane? other =
    (q.setLane name l).lane? other from rfl, lane?_setLane] at hx
  split at hx
  · obtain rfl := Option.some.inj hx
    exact hne
  · exact h.occupied other x hx

theorem setLease (h : q.WF) {name : String} {lease : Option Lease}
    (hne : (q.laneAt name).entries ≠ []) (hl : ∀ x, lease = some x → x.lane = name) :
    (q.setLane name { q.laneAt name with lease := lease }).WF :=
  h.setLane (n := q.nextSequence) hne (Nat.le_refl _) ((h.lane name).setLease hl)
    fun e he => .inl ⟨e, he, rfl⟩

end WF

end Queue

end EventRelay
