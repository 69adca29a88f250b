import EventRelay.Progress

/-!
# What is settled

Progress is a set of revisions in a canonical form, and here only the set counts: settling a
revision adds it, advancing adds everything up to a revision, and absorbing changes the form alone.
-/

namespace EventRelay

namespace Progress

theorem isSettled_iff {p : Progress} {r : Nat} :
    p.isSettled r = true ↔ r ≤ p.watermark ∨ r ∈ p.acknowledged := by
  simp [isSettled]

theorem mem_insertAscending {n m : Nat} {ns : List Nat} :
    m ∈ insertAscending n ns ↔ m = n ∨ m ∈ ns := by
  induction ns with
  | nil => simp [insertAscending]
  | cons k rest ih =>
    unfold insertAscending
    split
    · exact List.mem_cons
    · split
      · next heq => simp [heq]
      · rw [List.mem_cons, ih, List.mem_cons]
        exact or_left_comm

/-- `absorb` moves settled revisions below the watermark and settles no others. -/
theorem isSettled_absorb {w r : Nat} {ns : List Nat} :
    (absorb w ns).isSettled r = true ↔ r ≤ w ∨ r ∈ ns := by
  induction ns generalizing w with
  | nil => simp [absorb, isSettled_iff]
  | cons n rest ih =>
    unfold absorb
    split
    · next heq =>
      rw [ih, List.mem_cons, ← or_assoc, heq, Nat.le_succ_iff]
    · exact isSettled_iff

/-- The watermark never goes down. -/
theorem le_watermark_absorb (w : Nat) (ns : List Nat) : w ≤ (absorb w ns).watermark := by
  induction ns generalizing w with
  | nil => exact Nat.le_refl w
  | cons n rest ih =>
    unfold absorb
    split
    · next heq =>
      have hle := ih n
      omega
    · exact Nat.le_refl w

/-- `acknowledge` settles its revision and no other. -/
theorem isSettled_acknowledge {p : Progress} {n r : Nat} :
    (p.acknowledge n).2.isSettled r = true ↔ p.isSettled r = true ∨ r = n := by
  unfold acknowledge
  split
  · next hn =>
    constructor
    · exact .inl
    · rintro (hr | rfl)
      · exact hr
      · exact hn
  · rw [isSettled_absorb, mem_insertAscending, isSettled_iff, or_assoc, or_comm (b := r = n)]

/-- `advanceTo` settles what is up to its revision, and no other. -/
theorem isSettled_advanceTo {p : Progress} {n r : Nat} :
    (p.advanceTo n).isSettled r = true ↔ p.isSettled r = true ∨ r ≤ n := by
  unfold advanceTo
  split
  · next hle =>
    refine ⟨.inl, fun h => h.elim id fun hr => ?_⟩
    exact isSettled_iff.2 (.inl (Nat.le_trans hr hle))
  · rw [isSettled_absorb, List.mem_filter, isSettled_iff, decide_eq_true_eq]
    constructor
    · rintro (hr | ⟨hr, -⟩)
      · exact .inr hr
      · exact .inl (.inr hr)
    · rintro ((hr | hr) | hr)
      · exact .inl (by omega)
      · rcases Nat.lt_or_ge n r with hlt | hge
        · exact .inr ⟨hr, hlt⟩
        · exact .inl hge
      · exact .inl hr

theorem le_watermark_advanceTo (p : Progress) (n : Nat) : n ≤ (p.advanceTo n).watermark := by
  unfold advanceTo
  split
  · assumption
  · exact le_watermark_absorb n _

theorem watermark_le_advanceTo (p : Progress) (n : Nat) :
    p.watermark ≤ (p.advanceTo n).watermark := by
  unfold advanceTo
  split
  · exact Nat.le_refl _
  · next hlt => exact Nat.le_trans (Nat.le_of_not_le hlt) (le_watermark_absorb n _)

theorem isSettled_watermark (p : Progress) : p.isSettled p.watermark = true :=
  isSettled_iff.2 (.inl (Nat.le_refl _))

end Progress

namespace ProgressTable

theorem lookup_cons_eq {key other : String × Uuid} {p : Progress}
    {records : List ((String × Uuid) × Progress)} :
    ((key, p) :: records).lookup other = if other = key then some p else records.lookup other := by
  rw [List.lookup_cons]
  split
  · next h => rw [if_pos (beq_iff_eq.1 h)]
  · next h => rw [if_neg (beq_eq_false_iff_ne.1 h)]

/-- `replace` puts a record under its key, and leaves what is under others. -/
theorem lookup_replace (key other : String × Uuid) (p : Progress)
    (records : List ((String × Uuid) × Progress)) :
    (replace key p records).lookup other =
      if other = key then some p else records.lookup other := by
  induction records with
  | nil => exact lookup_cons_eq
  | cons entry rest ih =>
    obtain ⟨first, old⟩ := entry
    unfold replace
    by_cases hk : key = first
    · rw [if_pos hk, lookup_cons_eq, lookup_cons_eq, ← hk]
      split <;> rfl
    · rw [if_neg hk, lookup_cons_eq, lookup_cons_eq, ih]
      by_cases h : other = first
      · rw [if_pos h, if_pos h, if_neg fun hkey => hk (hkey.symm.trans h)]
      · rw [if_neg h, if_neg h]

/-- `set` is seen by the flow and the aggregate that it is for, and by no other. -/
theorem get_set (t : ProgressTable) (flow other : String) (aggregate aggregate' : Uuid)
    (p : Progress) :
    (t.set flow aggregate p).get other aggregate' =
      if other = flow ∧ aggregate' = aggregate then p else t.get other aggregate' := by
  simp only [get, set, lookup_replace, Prod.mk.injEq]
  split <;> rfl

/-- `advance` is `Progress.advanceTo` for the flow and the aggregate, and leaves the others as they
are. -/
theorem get_advance (t : ProgressTable) (flow other : String) (aggregate aggregate' : Uuid)
    (n : Nat) :
    (t.advance flow aggregate n).get other aggregate' =
      if other = flow ∧ aggregate' = aggregate then (t.get flow aggregate).advanceTo n
      else t.get other aggregate' :=
  get_set t flow other aggregate aggregate' _

/-- A flow has settled a revision of an aggregate, by its progress in the table. -/
abbrev Settled (t : ProgressTable) (flow : String) (aggregate : Uuid) (revision : Nat) : Prop :=
  (t.get flow aggregate).isSettled revision = true

variable {t : ProgressTable} {flow other : String} {aggregate aggregate' : Uuid} {n r : Nat}

/-- `record` settles the one revision, for the one flow and aggregate. -/
theorem settled_record :
    (t.record flow aggregate n).Settled other aggregate' r ↔
      t.Settled other aggregate' r ∨ (other = flow ∧ aggregate' = aggregate ∧ r = n) := by
  unfold Settled record
  rw [get_set]
  split
  · next h =>
    obtain ⟨rfl, rfl⟩ := h
    simp [Progress.isSettled_acknowledge]
  · next h =>
    constructor
    · exact .inl
    · rintro (hr | ⟨rfl, rfl, -⟩)
      · exact hr
      · exact absurd ⟨rfl, rfl⟩ h

/-- `advance` settles what is up to the revision, for the one flow and aggregate. -/
theorem settled_advance :
    (t.advance flow aggregate n).Settled other aggregate' r ↔
      t.Settled other aggregate' r ∨ (other = flow ∧ aggregate' = aggregate ∧ r ≤ n) := by
  unfold Settled advance
  rw [get_set]
  split
  · next h =>
    obtain ⟨rfl, rfl⟩ := h
    simp [Progress.isSettled_advanceTo]
  · next h =>
    constructor
    · exact .inl
    · rintro (hr | ⟨rfl, rfl, -⟩)
      · exact hr
      · exact absurd ⟨rfl, rfl⟩ h

end ProgressTable

end EventRelay
