import EventRelay.Instant
import Mathlib.Tactic.SplitIfs

/-!
# The order of instants

Instants are ordered by second and then by nanosecond. Outside of inserted seconds that is the order
of the nanoseconds that have passed, and there an earlier instant stays the earlier one when the
same length of time is added to both. Within an inserted second this fails, for what is left of it
runs on before the next second begins. Saturating sums of instants in range are the earlier of the
sum and the last instant.
-/

namespace EventRelay.Instant

variable {i j k : Instant} {d d' : Duration}

/-- Instants compare by their seconds and then by what follows. Only here and in `lt_iff` is the
order unfolded. -/
theorem le_iff : i ≤ j ↔ i.second < j.second ∨ (i.second = j.second ∧ i.nano ≤ j.nano) := by
  change le i j = true ↔ _
  simp [le]

protected theorem le_refl (i : Instant) : i ≤ i := by
  rw [le_iff]
  omega

protected theorem le_trans (h : i ≤ j) (h' : j ≤ k) : i ≤ k := by
  rw [le_iff] at h h' ⊢
  omega

theorem lt_iff : i < j ↔ ¬ j ≤ i := by
  change le j i = false ↔ ¬ le j i = true
  simp

instance : Min Instant := minOfLe

theorem min_eq_left (h : i ≤ j) : min i j = i := if_pos h

theorem min_eq_right_of_not_le (h : ¬ i ≤ j) : min i j = j := if_neg h

theorem le_min_iff : k ≤ min i j ↔ k ≤ i ∧ k ≤ j := by
  change k ≤ (if i ≤ j then i else j) ↔ _
  simp only [le_iff]
  split_ifs <;> omega

/-! ## Sums -/

/-- The instant lies in no inserted second. -/
def Regular (i : Instant) : Prop := i.nano < 1000000000

instance (i : Instant) : Decidable i.Regular := inferInstanceAs (Decidable (_ < _))

theorem Regular.add_eq (h : i.Regular) (d : Duration) :
    i.add d = ⟨i.second + ((i.nano + d.nanos) / 1000000000 : Nat),
      (i.nano + d.nanos) % 1000000000⟩ := by
  unfold Regular at h
  unfold add
  rw [if_neg (by omega), if_neg (by omega)]

/-- `Instant.add` keeps the order of instants, unless the earlier lies in the second that another
one was inserted after, and the later in that. -/
theorem add_le_add (hi : i.nano < 2000000000) (hj : j.nano < 2000000000) (h : i ≤ j)
    (hregular : i.second = j.second → i.Regular → j.Regular) (d : Duration) :
    i.add d ≤ j.add d := by
  rw [le_iff] at h ⊢
  unfold Regular at hregular
  simp only [add]
  split_ifs <;> dsimp only <;> omega

/-- Where no second was inserted `Instant.add` keeps the order. -/
theorem Regular.add_le_add (hi : i.Regular) (hj : j.Regular) (h : i ≤ j) (d : Duration) :
    i.add d ≤ j.add d := by
  unfold Regular at hi hj
  exact Instant.add_le_add (by omega) (by omega) h (fun _ _ => hj) d

/-- A second added within an inserted second, and to its start. -/
example : (⟨0, 999999999⟩ : Instant) ≤ ⟨0, 1000000000⟩ ∧
    ¬ (⟨0, 999999999⟩ : Instant).add (.ofMillis 1000) ≤ add ⟨0, 1000000000⟩ (.ofMillis 1000) := by
  decide

/-- A longer duration leads to a later instant, also from an inserted second. -/
theorem add_le_add_left (hi : i.nano < 2000000000) (h : d.nanos ≤ d'.nanos) :
    i.add d ≤ i.add d' := by
  simp only [add, le_iff]
  split_ifs <;> dsimp only <;> omega

theorem lt_add (hi : i.nano < 2000000000) (h : 0 < d.nanos) : i < i.add d := by
  simp only [lt_iff, add, le_iff]
  split_ifs <;> dsimp only <;> omega

theorem le_add (hi : i.nano < 2000000000) (d : Duration) : i ≤ i.add d := by
  simp only [add, le_iff]
  split_ifs <;> dsimp only <;> omega

/-- A sum whose second is in range is not after `last`. -/
theorem Regular.add_le_last (hi : i.Regular) {d : Duration}
    (h : (i.add d).second ≤ last.second) : i.add d ≤ last := by
  rw [hi.add_eq] at h ⊢
  have hnano : (i.nano + d.nanos) % 1000000000 < 1000000000 := Nat.mod_lt _ (by decide)
  rw [le_iff]
  simp only [last] at h ⊢
  omega

theorem Regular.addSaturating_le_addSaturating (hi : i.Regular) (hj : j.Regular) (h : i ≤ j)
    (d : Duration) : i.addSaturating d ≤ j.addSaturating d := by
  have hadd := hi.add_le_add hj h d
  have hsecond : (i.add d).second ≤ (j.add d).second := by
    rw [le_iff] at hadd
    omega
  unfold addSaturating checkedAdd?
  by_cases hd : d.millis ≤ Duration.greatest.millis
  · by_cases hj' : (j.add d).second ≤ last.second
    · have hi' : (i.add d).second ≤ last.second := Int.le_trans hsecond hj'
      simpa [hd, hi', hj'] using hadd
    · by_cases hi' : (i.add d).second ≤ last.second
      · have hlast := hi.add_le_last hi'
        simpa [hd, hi', hj'] using hlast
      · simpa [hd, hi', hj'] using Instant.le_refl last
  · simpa [hd] using Instant.le_refl last

/-! ## Nanoseconds -/

/-- Nanoseconds from the start of 1970, of an instant that is `Regular`. -/
def nanos (i : Instant) : Int := i.second * 1000000000 + i.nano

/-- Instants that are `Regular` compare by their `nanos`. -/
theorem Regular.le_iff_nanos (hi : i.Regular) (hj : j.Regular) : i ≤ j ↔ i.nanos ≤ j.nanos := by
  unfold Regular at hi hj
  rw [le_iff, nanos, nanos]
  omega

theorem Regular.add (hi : i.Regular) (d : Duration) : (i.add d).Regular := by
  rw [hi.add_eq]
  exact Nat.mod_lt _ (by decide)

/-- `Instant.add` adds nanoseconds, where no second was inserted. -/
theorem Regular.nanos_add (hi : i.Regular) (d : Duration) :
    (i.add d).nanos = i.nanos + d.nanos := by
  rw [hi.add_eq]
  simp only [nanos]
  omega

theorem regular_last : last.Regular := by decide

theorem Regular.nanos_min (hi : i.Regular) (hj : j.Regular) :
    (min i j).nanos = min i.nanos j.nanos := by
  by_cases h : i ≤ j
  · rw [min_eq_left h, Int.min_eq_left ((hi.le_iff_nanos hj).1 h)]
  · have hlt := mt (hi.le_iff_nanos hj).2 h
    rw [min_eq_right_of_not_le h, Int.min_eq_right (by omega)]

/-! ## The range -/

/-- An instant from `first` to `last`; at most one second is inserted after another. -/
structure InRange (i : Instant) : Prop where
  nano_lt : i.nano < 2000000000
  first_le : first ≤ i
  le_last : i ≤ last

namespace InRange

theorem add_le_last_iff (h : i.InRange) (d : Duration) :
    i.add d ≤ last ↔ (i.add d).second ≤ last.second := by
  have hlast := h.le_last
  simp only [le_iff, add, last] at hlast ⊢
  split_ifs <;> dsimp only <;> omega

/-- What is longer than `Duration.greatest` leads past the last instant, even from the first. -/
theorem not_add_le_last (h : i.InRange) (hd : Duration.greatest.nanos < d.nanos) :
    ¬ i.add d ≤ last := by
  have hfirst := h.first_le
  have hgreatest : Duration.greatest.nanos = 9223372036854775807000000 := by decide
  rw [hgreatest] at hd
  simp only [le_iff, add, last, first] at hfirst ⊢
  split_ifs <;> dsimp only <;> omega

/-- `addSaturating` is the sum, or the last instant if that comes first. -/
theorem addSaturating_eq_min (h : i.InRange) (d : Duration) :
    i.addSaturating d = min (i.add d) last := by
  unfold addSaturating checkedAdd?
  by_cases hle : i.add d ≤ last
  · have hd : d.millis ≤ Duration.greatest.millis := by
      apply Nat.div_le_div_right
      exact Nat.le_of_not_lt fun hlt => h.not_add_le_last hlt hle
    rw [if_pos ⟨hd, (h.add_le_last_iff d).1 hle⟩, min_eq_left hle]
    rfl
  · rw [if_neg fun hand => hle ((h.add_le_last_iff d).2 hand.2), min_eq_right_of_not_le hle]
    rfl

end InRange

end EventRelay.Instant
