import EventRelay.Lease
import EventRelay.Proofs.Instant

/-!
# When a lease runs out

A lease runs out its length after the instant it was granted or renewed at, or at the last instant
if that comes first. The sum fails in two ways: the length may be too long to be added to anything,
and the sum may lie past the last instant. Both failures are answered by the last instant. That is
right for the first one too, for a length that is too long leads past the last instant from any
other, even from the first.
-/

namespace EventRelay

/-- The length, unless it is longer than `Duration.greatest` and so too long to be added to any
instant. -/
def Duration.addend? (d : Duration) : Option Duration :=
  if d.nanos ≤ greatest.nanos then some d else none

/-- The instant `d` later, unless that is past `Instant.last`. -/
def Instant.later? (i : Instant) (d : Duration) : Option Instant :=
  if i.add d ≤ last then some (i.add d) else none

namespace Instant.InRange

variable {i : Instant}

/-- Either failure of a sum, of `Duration.addend?` or of `Instant.later?`, is one that is past the
last instant. -/
theorem getD_later? (h : i.InRange) (d : Duration) :
    (d.addend?.bind i.later?).getD last = min (i.add d) last := by
  unfold Duration.addend?
  split
  · change (i.later? d).getD last = _
    unfold later?
    split
    · next hle => exact (min_eq_left hle).symm
    · next hlt => exact (min_eq_right_of_not_le hlt).symm
  · next hd =>
    have hlt := h.not_add_le_last (Nat.lt_of_not_le hd)
    exact (min_eq_right_of_not_le hlt).symm

/-- A sum by `Instant.addSaturating` is in range. -/
theorem addSaturating (h : i.InRange) (d : Duration) : (i.addSaturating d).InRange := by
  rw [h.addSaturating_eq_min]
  have hmin := le_min_iff.1 (Instant.le_refl (min (i.add d) last))
  refine ⟨?_, le_min_iff.2 ⟨?_, by decide⟩, hmin.2⟩
  · have hnano := h.nano_lt
    have hlast := hmin.2
    by_cases hle : i.add d ≤ last
    · rw [min_eq_left hle]
      simp only [add]
      split_ifs <;> dsimp only <;> omega
    · rw [min_eq_right_of_not_le hle]
      decide
  · exact Instant.le_trans h.first_le (le_add h.nano_lt d)

end Instant.InRange

/-- The lease runs out `d` after `now`, or at `Instant.last` if that comes first. -/
structure Lease.RunsOut (now : Instant) (d : Duration) (l : Lease) : Prop where
  expiry : l.expiresAt = min (now.add d) Instant.last
  /-- Of instants in no inserted second it is the sum of the nanoseconds. -/
  nanos : now.Regular → l.expiresAt.Regular ∧
    l.expiresAt.nanos = min (now.nanos + d.nanos) Instant.last.nanos
  /-- It is found in two steps, `Duration.addend?` and `Instant.later?`, each of which may fail. -/
  steps : l.expiresAt = (d.addend?.bind now.later?).getD Instant.last
  inRange : l.expiresAt.InRange
  expired : ∀ t, l.isExpiredAt t = true ↔ min (now.add d) Instant.last ≤ t

namespace Lease

variable {now : Instant}

/-- What ends at `Instant.addSaturating` is `Lease.RunsOut`. -/
theorem runsOut (h : now.InRange) {d : Duration} {l : Lease}
    (hl : l.expiresAt = now.addSaturating d) : l.RunsOut now d where
  expiry := hl.trans (h.addSaturating_eq_min d)
  nanos hnow := by
    rw [hl, h.addSaturating_eq_min]
    have hsum := hnow.add d
    refine ⟨?_, ?_⟩
    · by_cases hle : now.add d ≤ Instant.last
      · rwa [Instant.min_eq_left hle]
      · rw [Instant.min_eq_right_of_not_le hle]
        exact Instant.regular_last
    · rw [hsum.nanos_min Instant.regular_last, hnow.nanos_add]
  steps := by rw [hl, h.getD_later?, h.addSaturating_eq_min]
  inRange := hl ▸ h.addSaturating d
  expired t := by rw [isExpiredAt, decide_eq_true_iff, hl, h.addSaturating_eq_min]

/-- **The end of a lease saturates.** From any instant in range on and for any length, a lease that
is granted or renewed runs out that length later, or at the last instant if that comes first. It
runs out no earlier if it is longer or granted later, where a grant in an inserted second does not
count as later than one in the second before. And a lease of positive length that is granted before
the last instant is not over at its start. -/
theorem expiry_saturates (lane : String) (token : Uuid) (h : now.InRange) (d : Duration) :
    (grant lane token now d).RunsOut now d ∧
    (∀ l : Lease, (l.renew now d).RunsOut now d ∧ (l.renew now d).lock = l.lock) ∧
    (∀ d' : Duration, d.nanos ≤ d'.nanos →
      (grant lane token now d).expiresAt ≤ (grant lane token now d').expiresAt) ∧
    (∀ later : Instant, later.InRange → now ≤ later →
      (now.second = later.second → now.Regular → later.Regular) →
      (grant lane token now d).expiresAt ≤ (grant lane token later d).expiresAt) ∧
    (now < Instant.last → 0 < d.nanos → (grant lane token now d).isExpiredAt now = false) := by
  have hgrant : ∀ {i : Instant}, i.InRange → ∀ d', (grant lane token i d').RunsOut i d' :=
    fun hi _ => runsOut hi rfl
  -- the earlier of a sum and the last instant goes up with the sum
  have hmono : ∀ {i j : Instant}, i ≤ j → min i Instant.last ≤ min j Instant.last := by
    intro i j hij
    have hmin := Instant.le_min_iff.1 (Instant.le_refl (min i Instant.last))
    exact Instant.le_min_iff.2 ⟨Instant.le_trans hmin.1 hij, hmin.2⟩
  refine ⟨hgrant h d, fun l => ⟨runsOut h rfl, rfl⟩, fun d' hd => ?_,
    fun later hlater hle hregular => ?_, fun hlast hd => ?_⟩
  · rw [(hgrant h d).expiry, (hgrant h d').expiry]
    exact hmono (Instant.add_le_add_left h.nano_lt hd)
  · rw [(hgrant h d).expiry, (hgrant hlater d).expiry]
    exact hmono (Instant.add_le_add h.nano_lt hlater.nano_lt hle hregular d)
  · rw [Bool.eq_false_iff, ne_eq, (hgrant h d).expired]
    by_cases hsum : now.add d ≤ Instant.last
    · rw [Instant.min_eq_left hsum]
      exact Instant.lt_iff.1 (Instant.lt_add h.nano_lt hd)
    · rw [Instant.min_eq_right_of_not_le hsum]
      exact Instant.lt_iff.1 hlast

/-- The longest `Lease` there is, granted at the first instant. -/
theorem expiry_saturates_at_first :
    let l := grant "mail" (.ofNat 1) Instant.first ⟨UInt64.size * 1000000000 - 1⟩
    l.expiresAt = Instant.last ∧ l.isExpiredAt Instant.first = false := by
  have hrange : Instant.first.InRange := ⟨by decide, by decide, by decide⟩
  obtain ⟨hout, -, -, -, hstart⟩ :=
    expiry_saturates "mail" (.ofNat 1) hrange ⟨UInt64.size * 1000000000 - 1⟩
  exact ⟨hout.expiry.trans (by decide), hstart (by decide) (by decide)⟩

/-- A lease of 30 seconds from the start of the second that was inserted after 2016 runs out before
one from the last nanosecond of 2016, for the sum leaves out what has passed of an inserted
second. -/
theorem expires_earlier_from_inserted_second :
    let early : Instant := ⟨1483228799, 999999999⟩
    let late : Instant := ⟨1483228799, 1000000000⟩
    early.InRange ∧ late.InRange ∧ early < late ∧
      (grant "mail" (.ofNat 1) late (.ofMillis 30000)).expiresAt <
        (grant "mail" (.ofNat 1) early (.ofMillis 30000)).expiresAt :=
  ⟨⟨by decide, by decide, by decide⟩, ⟨by decide, by decide, by decide⟩, by decide, by decide⟩

end Lease

end EventRelay
