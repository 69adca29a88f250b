import EventRelay.Memory
import EventRelay.Proofs.Progress
import Mathlib.Order.Bounds.Basic
import Mathlib.Order.MinMax

/-!
# Progress is determined by what is settled

However revisions come to be settled, one by one and out of order or all up to one, the progress in
the end depends on the settled revisions alone: its watermark goes up to right below the first that
is not settled, and what it keeps apart are those above. It has a single form because the revision
right above the watermark is never kept apart.
-/

namespace EventRelay

namespace Progress

variable {p p' : Progress} {n r w : Nat} {ns : List Nat}

/-- Revisions kept apart ascend, and there is a gap between them and the watermark. -/
structure Tidy (p : Progress) : Prop where
  ascending : p.acknowledged.Pairwise (· < ·)
  gap : ∀ n ∈ p.acknowledged, p.watermark + 1 < n

theorem tidy_empty : Tidy {} := ⟨.nil, fun _ hn => by cases hn⟩

theorem pairwise_insertAscending (h : ns.Pairwise (· < ·)) :
    (insertAscending n ns).Pairwise (· < ·) := by
  induction ns with
  | nil => exact List.pairwise_singleton _ _
  | cons m rest ih =>
    obtain ⟨hfirst, hrest⟩ := List.pairwise_cons.1 h
    unfold insertAscending
    split
    · next hlt =>
      refine List.pairwise_cons.2 ⟨fun k hk => ?_, h⟩
      rcases List.mem_cons.1 hk with rfl | hk
      · exact hlt
      · exact Nat.lt_trans hlt (hfirst k hk)
    · split
      · exact h
      · refine List.pairwise_cons.2 ⟨fun k hk => ?_, ih hrest⟩
        rcases mem_insertAscending.1 hk with rfl | hk
        · omega
        · exact hfirst k hk

/-- `absorb` leaves a gap: it stops where the next revision is not kept. By induction on what is
kept. -/
theorem tidy_absorb (hasc : ns.Pairwise (· < ·)) (habove : ∀ n ∈ ns, w < n) :
    Tidy (absorb w ns) := by
  induction ns generalizing w with
  | nil => exact ⟨.nil, fun _ hn => by cases hn⟩
  | cons n rest ih =>
    obtain ⟨hfirst, hrest⟩ := List.pairwise_cons.1 hasc
    unfold absorb
    split
    · exact ih hrest hfirst
    · next hne =>
      have hgap : w + 1 < n := Nat.lt_of_le_of_ne (habove n List.mem_cons_self) (Ne.symm hne)
      refine ⟨hasc, fun k hk => ?_⟩
      rcases List.mem_cons.1 hk with rfl | hk
      · exact hgap
      · exact Nat.lt_trans hgap (hfirst k hk)

namespace Tidy

/-- `acknowledge` keeps progress `Tidy`. -/
theorem acknowledge (h : p.Tidy) (n : Nat) : (p.acknowledge n).2.Tidy := by
  unfold Progress.acknowledge
  split
  · exact h
  · next hn =>
    rw [isSettled_iff, not_or] at hn
    apply tidy_absorb (pairwise_insertAscending h.ascending)
    intro m hm
    rcases mem_insertAscending.1 hm with rfl | hm
    · exact Nat.lt_of_not_le hn.1
    · exact Nat.lt_of_succ_lt (h.gap m hm)

/-- `advanceTo` keeps progress `Tidy`. -/
theorem advanceTo (h : p.Tidy) (n : Nat) : (p.advanceTo n).Tidy := by
  unfold Progress.advanceTo
  split
  · exact h
  · apply tidy_absorb (h.ascending.filter _)
    intro m hm
    simpa using (List.mem_filter.1 hm).2

/-- The revision after the watermark is in the gap. -/
theorem not_settled_succ (h : p.Tidy) : p.isSettled (p.watermark + 1) = false := by
  rw [Bool.eq_false_iff, ne_eq, isSettled_iff, not_or]
  refine ⟨Nat.not_succ_le_self _, fun hmem => ?_⟩
  exact Nat.lt_irrefl _ (h.gap _ hmem)

/-- The watermark is the greatest revision up to which all are settled, where progress is `Tidy`. -/
theorem isGreatest_watermark (h : p.Tidy) :
    IsGreatest {w | ∀ n, 0 < n → n ≤ w → p.isSettled n = true} p.watermark := by
  refine ⟨fun n _ hn => isSettled_iff.2 (.inl hn), fun w hw => ?_⟩
  by_contra hlt
  have hnext := hw (p.watermark + 1) (Nat.succ_pos _) (Nat.lt_of_not_le hlt)
  rw [h.not_settled_succ] at hnext
  cases hnext

theorem mem_acknowledged_iff (h : p.Tidy) :
    n ∈ p.acknowledged ↔ p.isSettled n = true ∧ p.watermark < n := by
  rw [isSettled_iff]
  constructor
  · intro hn
    exact ⟨.inr hn, Nat.lt_of_succ_lt (h.gap n hn)⟩
  · rintro ⟨hle | hn, hlt⟩
    · omega
    · exact hn

/-- What is settled tells which progress it is, among those that are `Tidy`. -/
theorem ext (h : p.Tidy) (h' : p'.Tidy)
    (hs : ∀ n, p.isSettled n = true ↔ p'.isSettled n = true) : p = p' := by
  have hw : p.watermark = p'.watermark := by
    apply h.isGreatest_watermark.unique
    simp only [hs]
    exact h'.isGreatest_watermark
  have hmem : ∀ n, n ∈ p.acknowledged ↔ n ∈ p'.acknowledged := by
    intro n
    rw [h.mem_acknowledged_iff, h'.mem_acknowledged_iff, hs, hw]
  have hperm : p.acknowledged.Perm p'.acknowledged :=
    (List.perm_ext_iff_of_nodup (h.ascending.imp Nat.ne_of_lt)
      (h'.ascending.imp Nat.ne_of_lt)).2 hmem
  have heq : p.acknowledged = p'.acknowledged :=
    hperm.eq_of_pairwise (fun _ _ _ _ hlt hgt => absurd hlt (Nat.lt_asymm hgt))
      h.ascending h'.ascending
  cases p
  cases p'
  simp only at hw heq
  rw [hw, heq]

end Tidy

/-! ## Changes one after the other -/

/-- One change of progress: a revision is acknowledged, or every revision up to one is settled. -/
inductive Change where
  | acknowledge (revision : Nat)
  | advance (revision : Nat)

/-- The revision of a change. -/
def Change.revision : Change → Nat
  | acknowledge n | advance n => n

/-- The progress after a `Change`. -/
def Change.apply (p : Progress) : Change → Progress
  | acknowledge n => (p.acknowledge n).2
  | advance n => p.advanceTo n

/-- The progress after changes, if nothing was settled before: `Change.apply`, one after the
other. -/
def after (changes : List Change) : Progress := changes.foldl Change.apply {}

/-- The greatest revision that was advanced to; 0 if none was. -/
def highest : List Change → Nat
  | [] => 0
  | .acknowledge _ :: rest => highest rest
  | .advance n :: rest => max n (highest rest)

/-- A revision is settled by changes: it was acknowledged, or it is not above the `highest` that was
advanced to, as revision 0 never is. -/
def SettledBy (changes : List Change) (n : Nat) : Prop :=
  n ≤ highest changes ∨ .acknowledge n ∈ changes

theorem tidy_foldl (h : p.Tidy) (changes : List Change) : (changes.foldl Change.apply p).Tidy := by
  induction changes generalizing p with
  | nil => exact h
  | cons c rest ih =>
    cases c with
    | acknowledge n => exact ih (h.acknowledge n)
    | advance n => exact ih (h.advanceTo n)

theorem tidy_after (changes : List Change) : (after changes).Tidy := tidy_foldl tidy_empty changes

/-- Changes settle what is `SettledBy` them, beside what was settled before. By induction on the
changes. -/
theorem isSettled_foldl (p : Progress) (changes : List Change) :
    (changes.foldl Change.apply p).isSettled n = true ↔
      p.isSettled n = true ∨ SettledBy changes n := by
  induction changes generalizing p with
  | nil =>
    simp only [List.foldl_nil, SettledBy, highest, Nat.le_zero_eq, List.not_mem_nil, or_false]
    refine ⟨.inl, fun h => h.elim id ?_⟩
    rintro rfl
    exact isSettled_iff.2 (.inl (Nat.zero_le _))
  | cons c rest ih =>
    rw [List.foldl_cons, ih]
    cases c with
    | acknowledge m =>
      rw [Change.apply, isSettled_acknowledge]
      simp only [SettledBy, highest, List.mem_cons, Change.acknowledge.injEq]
      rw [or_assoc, or_left_comm (b := n ≤ _)]
    | advance m =>
      rw [Change.apply, isSettled_advanceTo]
      simp only [SettledBy, highest, List.mem_cons, reduceCtorEq, false_or, le_max_iff, or_assoc]

theorem isSettled_after (changes : List Change) :
    (after changes).isSettled n = true ↔ SettledBy changes n := by
  rw [after, isSettled_foldl]
  refine ⟨fun h => h.elim (fun hzero => .inl ?_) id, .inr⟩
  have hle : n ≤ 0 := by simpa [isSettled_iff] using hzero
  exact Nat.le_trans hle (Nat.zero_le _)

theorem highest_le {bound : Nat} {changes : List Change}
    (h : ∀ c ∈ changes, c.revision ≤ bound) : highest changes ≤ bound := by
  induction changes with
  | nil => exact Nat.zero_le _
  | cons c rest ih =>
    have hrest := ih fun c hc => h c (List.mem_cons_of_mem _ hc)
    cases c with
    | acknowledge n => exact hrest
    | advance n => exact Nat.max_le.2 ⟨h _ List.mem_cons_self, hrest⟩

/-! ## The table of all flows -/

/-- What a `ProgressCall` changes for a flow on an aggregate. -/
def Change.ofCall? (flow : String) (aggregate : Uuid) : ProgressCall → Option Change
  | .get .. => none
  | .record other aggregate' n =>
    if flow = other ∧ aggregate = aggregate' then some (.acknowledge n) else none
  | .advance other aggregate' n =>
    if flow = other ∧ aggregate = aggregate' then some (.advance n) else none

/-- A call on the table does to the progress of each flow on each aggregate what `Change.ofCall?`
says it changes there. -/
theorem get_answerProgress (t : ProgressTable) (c : ProgressCall) (flow : String)
    (aggregate : Uuid) : (Memory.answerProgress t c).2.get flow aggregate =
      (Change.ofCall? flow aggregate c).toList.foldl Change.apply (t.get flow aggregate) := by
  cases c with
  | get => rfl
  | record other aggregate' n =>
    simp only [Memory.answerProgress, ProgressTable.record, ProgressTable.get_set, Change.ofCall?]
    split
    · next h =>
      obtain ⟨rfl, rfl⟩ := h
      rfl
    · rfl
  | advance other aggregate' n =>
    simp only [Memory.answerProgress, ProgressTable.get_advance, Change.ofCall?]
    split
    · next h =>
      obtain ⟨rfl, rfl⟩ := h
      rfl
    · rfl

theorem get_foldl_answerProgress (t : ProgressTable) (calls : List ProgressCall) (flow : String)
    (aggregate : Uuid) :
    (calls.foldl (fun t c => (Memory.answerProgress t c).2) t).get flow aggregate =
      (calls.filterMap (Change.ofCall? flow aggregate)).foldl Change.apply
        (t.get flow aggregate) := by
  induction calls generalizing t with
  | nil => rfl
  | cons c rest ih =>
    rw [List.foldl_cons, ih, get_answerProgress, List.filterMap_cons]
    cases Change.ofCall? flow aggregate c <;> rfl

/-- The `ProgressTable` after calls, if nothing was settled before. -/
def tableAfter (calls : List ProgressCall) : ProgressTable :=
  calls.foldl (fun t c => (Memory.answerProgress t c).2) .empty

/-- A record of the table is told from the calls for its flow and aggregate. -/
theorem get_tableAfter (calls : List ProgressCall) (flow : String) (aggregate : Uuid) :
    (tableAfter calls).get flow aggregate =
      after (calls.filterMap (Change.ofCall? flow aggregate)) :=
  get_foldl_answerProgress .empty calls flow aggregate

/-! ## The canonical form -/

/-- The progress that settles what is `SettledBy` the changes, in its only form. -/
structure Canonical (changes : List Change) (p : Progress) : Prop where
  settled : ∀ n, p.isSettled n = true ↔ SettledBy changes n
  watermark : IsGreatest {w | ∀ n, 0 < n → n ≤ w → SettledBy changes n} p.watermark
  acknowledged : ∀ n, n ∈ p.acknowledged ↔ .acknowledge n ∈ changes ∧ p.watermark < n
  ascending : p.acknowledged.Pairwise (· < ·)

theorem canonical_after (changes : List Change) : Canonical changes (after changes) where
  settled _ := isSettled_after changes
  watermark := by
    have h := (tidy_after changes).isGreatest_watermark
    simpa only [isSettled_after] using h
  acknowledged n := by
    rw [(tidy_after changes).mem_acknowledged_iff, isSettled_after, SettledBy]
    refine and_congr_left fun hlt => ⟨fun h => h.resolve_left fun hle => ?_, .inr⟩
    -- everything up to the greatest that was advanced to is settled, so it is below the watermark
    have hbelow := (tidy_after changes).isGreatest_watermark.2 fun m _ hm =>
      (isSettled_after changes).2 (.inl hm)
    omega
  ascending := (tidy_after changes).ascending

/-- **Progress is a canonical form of the settled revisions.** After any changes the watermark is
the greatest revision up to which each was acknowledged or advanced over, and what is kept apart are
the acknowledged ones above it. An acknowledgement answers whether its revision was not settled yet,
the watermark never goes down and never beyond the revisions it was given, and changes that settle
the same revisions, in whatever order and however often, come to the same progress. Of a table each
record depends in this way on the calls for its flow and aggregate. -/
theorem canonical_form (changes : List Change) :
    Canonical changes (after changes) ∧
    (∀ n, ((after changes).acknowledge n).1 = true ↔ ¬ SettledBy changes n) ∧
    (∀ more, (after changes).watermark ≤ (after (changes ++ more)).watermark) ∧
    (∀ bound, (∀ c ∈ changes, c.revision ≤ bound) → (after changes).watermark ≤ bound) ∧
    (∀ changes', (∀ n, SettledBy changes' n ↔ SettledBy changes n) →
      after changes' = after changes) ∧
    ∀ calls flow aggregate, (tableAfter calls).get flow aggregate =
      after (calls.filterMap (Change.ofCall? flow aggregate)) := by
  refine ⟨canonical_after changes, fun n => ?_, fun more => ?_, fun bound hbound => ?_,
    fun changes' hsame => ?_, get_tableAfter⟩
  · rw [← isSettled_after, acknowledge]
    split <;> simp_all
  · apply (tidy_after (changes ++ more)).isGreatest_watermark.2
    intro n _ hn
    rw [after, List.foldl_append, isSettled_foldl]
    exact .inl (isSettled_iff.2 (.inl hn))
  · rcases (isSettled_after changes).1 (isSettled_watermark _) with hle | hmem
    · exact Nat.le_trans hle (highest_le hbound)
    · exact hbound _ hmem
  · apply (tidy_after changes').ext (tidy_after changes)
    intro n
    rw [isSettled_after, isSettled_after, hsame]

/-- Revision 3 is acknowledged first and waits for the gap below it to close. -/
theorem canonical_form_of_gap :
    after [.acknowledge 3, .acknowledge 1] = ⟨1, [3]⟩ ∧
    (∀ n, SettledBy [.acknowledge 3, .acknowledge 1, .advance 2] n ↔
      SettledBy [.advance 2, .acknowledge 3] n) ∧
    after [.acknowledge 3, .acknowledge 1, .advance 2] = after [.advance 2, .acknowledge 3] ∧
    (after [.advance 2, .acknowledge 3]).watermark = 3 := by
  have hsame : ∀ n, SettledBy [.acknowledge 3, .acknowledge 1, .advance 2] n ↔
      SettledBy [.advance 2, .acknowledge 3] n := by
    intro n
    simp [SettledBy, highest]
    omega
  obtain ⟨-, -, -, -, hdetermined, -⟩ := canonical_form [.advance 2, .acknowledge 3]
  exact ⟨by decide, hsame, hdetermined _ hsame, by decide⟩

end Progress

end EventRelay
