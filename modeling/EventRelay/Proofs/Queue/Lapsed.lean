import EventRelay.Proofs.Queue.Exclusion
import EventRelay.Proofs.Queue.Items

/-!
# Locks that have lapsed

A lock has lapsed once its lease is off the lane or has run out. Under a clock that does not go back
it opens the lane no more, whatever else is done with the queue, unless it is granted again. Giving
a lease back leaves its lock lapsed whether or not it succeeds: it is refused where the lock opened
nothing any more.
-/

namespace EventRelay.Queue

open Reference

variable {τ : Type} [Keyed τ] {q : Queue τ} {lock : Lock} {now now' : Instant} {r : Call.Reading}

/-- By now the lane has no lease with the token of the lock, or one that has run out. -/
def Lapsed (q : Queue τ) (lock : Lock) (now : Instant) : Prop :=
  ∀ lease, (q.laneAt lock.lane).lease = some lease → lease.token = lock.token →
    lease.expiresAt ≤ now

/-- A lock is `Over` in the model exactly if it has `Lapsed` in the queue. -/
theorem Simulates.over_iff {number : Nat → Nat} {m : Model τ} (h : Simulates number q m) :
    Over m lock now ↔ q.Lapsed lock now := by
  unfold Over Lapsed
  rw [h.lease_laneAt]
  constructor
  · intro hover lease hl htoken
    obtain ⟨⟨token, expiry⟩, hl', rfl⟩ := Option.map_eq_some_iff.1 hl
    obtain rfl : token = lock.token := htoken
    exact hover expiry hl'
  · intro hlapsed expiry hl
    exact hlapsed ⟨lock.lane, lock.token, expiry⟩ (by rw [hl]; rfl) rfl

omit [Keyed τ] in
theorem Lapsed.mono (h : q.Lapsed lock now) (hle : now ≤ now') : q.Lapsed lock now' :=
  fun lease hl htoken => Instant.le_trans (h lease hl htoken) hle

/-- A lock that has `Lapsed` opens nothing any more. -/
theorem Lapsed.not_opens (h : q.Lapsed lock now) (hq : q.WF) (hnow : now ≤ r.now) :
    ¬ q.Opens lock r := by
  rintro ⟨c, haccepted⟩
  obtain ⟨_, m', hallows, -⟩ := hq.simulates.answer r c
  exact (hq.simulates.over_iff.2 h).accepted?_ne hallows hnow haccepted

theorem Reference.Allows.token_of_granted? {m m' : Model τ} {c : QueueCall τ} {a : c.Answer}
    (h : Allows m r c a m') (hg : Exchange.granted? ⟨r, c, a⟩ = some lock) :
    lock.token = r.fresh := by
  cases h <;> simp only [Exchange.granted?, Exchange.handed?, Option.map_none, Option.map_some,
    reduceCtorEq, Option.some.injEq] at hg
  subst hg
  rfl

/-- A lock that has `Lapsed` stays so whatever is called, unless its token comes fresh again. -/
theorem Lapsed.answer (h : q.Lapsed lock now) (hq : q.WF) (hnow : now ≤ r.now)
    (hfresh : lock.token ≠ r.fresh) (c : QueueCall τ) :
    (Memory.answerQueue q r c).2.Lapsed lock now := by
  obtain ⟨_, m', hallows, hsim⟩ := hq.simulates.answer r c
  rw [← hsim.over_iff]
  apply (hq.simulates.over_iff.2 h).step hallows hnow
  intro hgranted
  exact hfresh (hallows.token_of_granted? hgranted)

/-- Whether or not a lock can be given back, it has `Lapsed` afterwards. -/
theorem WF.lapsed_release (hq : q.WF) (lock : Lock) (now : Instant) :
    (q.release lock now).2.Lapsed lock now := by
  rcases hq.lockedLane_cases lock now with ⟨e, hl⟩ | ⟨_, _, _, -, -, -, -, hl⟩
  · simp only [Queue.release, hl]
    intro lease hlease htoken
    by_contra hlive
    obtain ⟨head, rest, hentries⟩ :=
      List.exists_cons_of_ne_nil (hq.entries_ne_nil_of_lease hlease)
    -- a live lease with the token would have let the lock open its lane
    have hopen : q.lockedLane lock now = .ok (q.laneAt lock.lane) :=
      hq.lockedLane_ok hentries hlease (decide_eq_false hlive) htoken
    rw [hl] at hopen
    cases hopen
  · intro lease hlease
    simp [Queue.release, hl] at hlease

end EventRelay.Queue
