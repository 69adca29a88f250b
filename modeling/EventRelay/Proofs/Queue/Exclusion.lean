import EventRelay.Proofs.Instant
import EventRelay.Proofs.Queue.Tokens

/-!
# One lease at a time

Under a clock that does not go back a lane is granted again only after its lease was ended by the
holder or has run out, as its holder last renewed it. Granting, presenting a token and sweeping
agree on the instant from which on a lease counts as run out, so from the granting on the clock
alone tells whether a lock that was not ended opens its lane.

All of it follows a single lease through the reference model (`Allows.lease_after`): an exchange
keeps it, its holder renews or ends it, or it had run out.
-/

namespace EventRelay

namespace Exchange

variable {τ : Type}

/-- The lock whose lease was renewed, if the exchange was a `QueueCall.renew` that was accepted. -/
def renewed? : Exchange τ → Option Lock
  | ⟨_, .renew lock, .ok _⟩ => some lock
  | _ => none

/-- The lock that was presented and refused, and the `QueueError` it was refused with. -/
def refused? : Exchange τ → Option (Lock × QueueError)
  | ⟨_, .renew lock, .error e⟩ | ⟨_, .release lock, .error e⟩ | ⟨_, .acknowledge lock, .error e⟩
  | ⟨_, .defer lock _, .error e⟩ => some (lock, e)
  | _ => none

theorem eq_of_renewed? {x : Exchange τ} {lock : Lock} (h : x.renewed? = some lock) :
    x = ⟨x.reading, .renew lock, .ok ()⟩ := by
  unfold renewed? at h
  split at h
  · obtain rfl := Option.some.inj h
    rfl
  · cases h

theorem accepted?_of_renewed? {x : Exchange τ} {lock : Lock} (h : x.renewed? = some lock) :
    x.accepted? = some lock := by
  unfold renewed? at h
  split at h <;> simp_all [accepted?]

theorem presented?_of_refused? {x : Exchange τ} {lock : Lock} {e : QueueError}
    (h : x.refused? = some (lock, e)) : x.presented? = some lock := by
  unfold refused? at h
  split at h <;> simp_all [presented?]

theorem granted?_of_presented? {x : Exchange τ} {lock : Lock} (h : x.presented? = some lock) :
    x.granted? = none := by
  unfold presented? at h
  split at h <;> simp_all [granted?, handed?]

end Exchange

/-- When a lease of this lock is over that was to end at `expiry`, after exchanges in which its
holder may have renewed it. -/
def Lock.endAfter {τ : Type} (lock : Lock) (expiry : Instant) : List (Exchange τ) → Instant
  | [] => expiry
  | x :: rest =>
    lock.endAfter (if x.renewed? = some lock then
      x.reading.now.addSaturating x.reading.expiration else expiry) rest

namespace Queue

open Reference Sample

variable {τ : Type}

/-- Readings of a clock that does not go back, for leases that all run as long. -/
structure Steady (expiration : Duration) (xs : List (Exchange τ)) : Prop where
  ascending : xs.Pairwise fun x y => x.reading.now ≤ y.reading.now
  fixed : ∀ x ∈ xs, x.reading.expiration = expiration

variable [Keyed τ]

/-- Some `QueueCall` that presents the lock is accepted. -/
def Opens (q : Queue τ) (lock : Lock) (r : Call.Reading) : Prop :=
  ∃ c : QueueCall τ, Exchange.accepted? ⟨r, c, (Memory.answerQueue q r c).1⟩ = some lock

section

variable {m m' : Model τ} {r : Call.Reading} {c : QueueCall τ} {a : c.Answer} {lock : Lock}
  {now expiry : Instant}

/-! ## A lease in the course of an exchange -/

omit [Keyed τ] in
/-- Of a lane with items the lock of the lease is refused only if the lease has run out. -/
theorem le_of_refusal?_eq_some {e : QueueError} (h : m.refusal? lock now = some e)
    (hitems : (m.line lock.lane).items ≠ [])
    (hl : (m.line lock.lane).lease = some (lock.token, expiry)) : expiry ≤ now := by
  by_contra hlive
  have hopen : m.refusal? lock now = none := refusal?_eq_none_iff.2 ⟨hitems, expiry, hl, hlive⟩
  rw [h] at hopen
  cases hopen

omit [Keyed τ] in
/-- What `offer?` gives has no lease, or one that has run out. -/
theorem le_of_offer? {name : String} {x : Placed τ} (h : (m.line name).offer? now = some x)
    {token : Uuid} (hl : (m.line name).lease = some (token, expiry)) : expiry ≤ now := by
  by_contra hlive
  simp [Line.offer?, Line.token?, hl, hlive] at h

/-- What is `accepted?` the model has no `refusal?` for. -/
theorem Reference.Allows.refusal?_of_accepted? (ha : Allows m r c a m')
    (h : Exchange.accepted? ⟨r, c, a⟩ = some lock) : m.refusal? lock r.now = none := by
  cases ha <;> simp only [Exchange.accepted?, reduceCtorEq, Option.some.injEq] at h
  all_goals
    subst h
    assumption

theorem Reference.Allows.refusal?_of_refused? (ha : Allows m r c a m') {e : QueueError}
    (h : Exchange.refused? ⟨r, c, a⟩ = some (lock, e)) : m.refusal? lock r.now = some e := by
  cases ha <;>
    simp only [Exchange.refused?, reduceCtorEq, Option.some.injEq, Prod.mk.injEq] at h
  all_goals
    obtain ⟨rfl, rfl⟩ := h
    assumption

/-- What is `presented?`, and has no `refusal?`, is accepted. -/
theorem Reference.Allows.accepted?_of_refusal? (ha : Allows m r c a m')
    (hp : Exchange.presented? ⟨r, c, a⟩ = some lock) (h : m.refusal? lock r.now = none) :
    Exchange.accepted? ⟨r, c, a⟩ = some lock := by
  cases ha <;> simp only [Exchange.presented?, reduceCtorEq, Option.some.injEq] at hp <;>
    subst hp
  case renewRefused h' | releaseRefused h' | acknowledgeRefused h' | deferRefused h' =>
    simp [h] at h'
  all_goals rfl

/-- What is `granted?` is a lane whose lease has run out. -/
theorem Reference.Allows.le_of_granted? (ha : Allows m r c a m')
    (h : Exchange.granted? ⟨r, c, a⟩ = some lock) {token : Uuid}
    (hl : (m.line lock.lane).lease = some (token, expiry)) : expiry ≤ r.now := by
  cases ha <;> simp only [Exchange.granted?, Exchange.handed?, Option.map_none, Option.map_some,
    reduceCtorEq, Option.some.injEq] at h
  next hx hmin =>
    subst h
    exact le_of_offer? hx hl

omit [Keyed τ] in
/-- Of the locks of a lane one is accepted, that of its lease. -/
theorem lock_eq_of_refusal?_eq_none {lock' : Lock} (h : m.refusal? lock' now = none)
    (hl : (m.line lock.lane).lease = some (lock.token, expiry)) (hlane : lock.lane = lock'.lane) :
    lock' = lock := by
  obtain ⟨-, expiry', hl', -⟩ := refusal?_eq_none_iff.1 h
  rw [← hlane, hl] at hl'
  have htoken : lock.token = lock'.token := (Prod.mk.inj (Option.some.inj hl')).1
  cases lock
  cases lock'
  simp_all

/-- What may become of a lease: the exchange keeps it, or its holder renews it; its holder ends it;
or it had run out, and its lane is granted anew or it is swept. -/
theorem Reference.Allows.lease_fate (ha : Allows m r c a m')
    (hl : (m.line lock.lane).lease = some (lock.token, expiry)) :
    (m'.line lock.lane).lease = some (lock.token, lock.endAfter expiry [⟨r, c, a⟩]) ∨
    Exchange.ended? ⟨r, c, a⟩ = some lock ∨
    (lock.endAfter expiry [⟨r, c, a⟩] ≤ r.now ∧
      ((∃ l, Exchange.granted? ⟨r, c, a⟩ = some l ∧ l.lane = lock.lane) ∨
        ∃ lease ∈ Exchange.swept ⟨r, c, a⟩, lease.lock = lock)) := by
  cases ha with
  | @enqueued name item priority hn =>
    left
    rw [Model.lease_place]
    exact hl
  | @leased name x hx hmin =>
    by_cases heq : lock.lane = name
    · -- the lane could be leased, so what it had ran out
      have hexp : expiry ≤ r.now := le_of_offer? hx (heq ▸ hl)
      exact .inr (.inr ⟨hexp, .inl ⟨_, rfl, heq.symm⟩⟩)
    · left
      simpa [heq, Lock.endAfter, Exchange.renewed?] using hl
  | @renewed lock' h =>
    left
    by_cases heq : lock.lane = lock'.lane
    · obtain rfl := lock_eq_of_refusal?_eq_none h hl heq
      simp [Lock.endAfter, Exchange.renewed?]
    · have hne : lock' ≠ lock := by
        rintro rfl
        exact heq rfl
      simpa [heq, Lock.endAfter, Exchange.renewed?, hne] using hl
  | @released lock' h | @acknowledged lock' x rest h hx | @deferred lock' priority x rest h hx =>
    by_cases heq : lock.lane = lock'.lane
    · right
      left
      obtain rfl := lock_eq_of_refusal?_eq_none h hl heq
      rfl
    · left
      simpa [heq, Lock.endAfter, Exchange.renewed?] using hl
  | swept hasc hmem =>
    by_cases hexp : expiry ≤ r.now
    · exact .inr (.inr ⟨hexp, .inr ⟨⟨lock.lane, lock.token, expiry⟩, (hmem _).2 ⟨hl, hexp⟩, rfl⟩⟩)
    · left
      simp [Line.sweep, hl, hexp, Option.filter_some, Lock.endAfter, Exchange.renewed?]
  | alreadyQueued | nothing | renewRefused | releaseRefused | acknowledgeRefused | deferRefused
  | isQueued =>
    left
    exact hl

/-- A lease is kept or ended by its holder, or it had run out, and then the lane is `Shut` to its
lock unless that was granted again. -/
theorem Reference.Allows.lease_after (ha : Allows m r c a m')
    (hl : (m.line lock.lane).lease = some (lock.token, expiry)) :
    (m'.line lock.lane).lease = some (lock.token, lock.endAfter expiry [⟨r, c, a⟩]) ∨
    Exchange.ended? ⟨r, c, a⟩ = some lock ∨
    (lock.endAfter expiry [⟨r, c, a⟩] ≤ r.now ∧
      (Exchange.granted? ⟨r, c, a⟩ = some lock ∨ Shut m' lock)) := by
  rcases ha.lease_fate hl with hkept | hended | ⟨hexp, ⟨l, hgrant, hlane⟩ | ⟨lease, hswept, rfl⟩⟩
  · exact .inl hkept
  · exact .inr (.inl hended)
  · refine .inr (.inr ⟨hexp, ?_⟩)
    by_cases htoken : l.token = lock.token
    · left
      rw [hgrant, show l = lock from by cases l; cases lock; simp_all]
    · right
      intro expiry' hl'
      obtain ⟨_, hl''⟩ := ha.lease_of_granted? hgrant
      rw [hlane, hl'] at hl''
      exact htoken (Prod.mk.inj (Option.some.inj hl'')).1.symm
  · refine .inr (.inr ⟨hexp, .inr fun expiry' hl' => ?_⟩)
    obtain ⟨-, hnone⟩ := ha.lease_of_mem_swept hswept
    rw [show lease.lock.lane = lease.lane from rfl, hnone] at hl'
    cases hl'

/-- A lease is on its lane still, or it is over by `now` and, unless the lock was granted again,
opens the lane no more. -/
def Followed (m : Model τ) (lock : Lock) (expiry now : Instant) (regranted : Prop) : Prop :=
  (m.line lock.lane).lease = some (lock.token, expiry) ∨
    (expiry ≤ now ∧ (regranted ∨ Shut m lock))

/-- One exchange, by `Reference.Allows.lease_after`: the lease is kept until `Lock.endAfter`, or it
is over. -/
theorem Followed.step {regranted : Prop} (h : Followed m lock expiry now regranted)
    (hs : Allows m r c a m') (hnow : r.now ≤ now)
    (hend : Exchange.ended? ⟨r, c, a⟩ ≠ some lock)
    (hgrant : Exchange.granted? ⟨r, c, a⟩ = some lock → regranted) :
    Followed m' lock (lock.endAfter expiry [⟨r, c, a⟩]) now regranted := by
  rcases h with hl | ⟨hexp, hover⟩
  · rcases hs.lease_after hl with hl' | hended | ⟨hexp, hover⟩
    · exact .inl hl'
    · exact absurd hended hend
    · exact .inr ⟨Instant.le_trans hexp hnow, hover.imp_left hgrant⟩
  · -- only a renewal tells another end, and it leaves the lease on its lane
    by_cases hren : Exchange.renewed? ⟨r, c, a⟩ = some lock
    · left
      cases hs <;> simp only [Exchange.renewed?, reduceCtorEq, Option.some.injEq] at hren
      subst hren
      simp [Lock.endAfter, Exchange.renewed?]
    · right
      simp only [Lock.endAfter, if_neg hren]
      refine ⟨hexp, ?_⟩
      by_cases hre : regranted
      · exact .inl hre
      · right
        exact (hover.resolve_left hre).step hs fun hg => hre (hgrant hg)

/-- A lease is `Followed` through any number of exchanges in which its holder does not end it. -/
theorem Followed.run {regranted : Prop} {xs : List (Exchange τ)} (hs : Run m xs m')
    (h : Followed m lock expiry now regranted) (hnow : ∀ x ∈ xs, x.reading.now ≤ now)
    (hend : ∀ x ∈ xs, x.ended? ≠ some lock)
    (hgrant : ∀ x ∈ xs, x.granted? = some lock → regranted) :
    Followed m' lock (lock.endAfter expiry xs) now regranted := by
  induction hs generalizing expiry with
  | nil => exact h
  | cons hstep _ ih =>
    have h' := h.step hstep (hnow _ List.mem_cons_self) (hend _ List.mem_cons_self)
      (hgrant _ List.mem_cons_self)
    apply ih h'
    · intro x hx
      exact hnow x (List.mem_cons_of_mem _ hx)
    · intro x hx
      exact hend x (List.mem_cons_of_mem _ hx)
    · intro x hx
      exact hgrant x (List.mem_cons_of_mem _ hx)

/-! ## Locks that have run out -/

/-- From an instant on the lock opens its lane no more, unless it is granted: its lease, if it has
one, is over. -/
def Over (m : Model τ) (lock : Lock) (now : Instant) : Prop :=
  ∀ expiry, (m.line lock.lane).lease = some (lock.token, expiry) → expiry ≤ now

namespace Over

/-- A lock that is `Over` is not accepted. -/
theorem accepted?_ne (h : Over m lock now) (hs : Allows m r c a m') (hnow : now ≤ r.now) :
    Exchange.accepted? ⟨r, c, a⟩ ≠ some lock := by
  intro hacc
  obtain ⟨-, expiry, hl, hlive⟩ := refusal?_eq_none_iff.1 (hs.refusal?_of_accepted? hacc)
  exact hlive (Instant.le_trans (h expiry hl) hnow)

/-- A lock that is `Over` stays so, unless it is granted. -/
theorem step (h : Over m lock now) (hs : Allows m r c a m') (hnow : now ≤ r.now)
    (hg : Exchange.granted? ⟨r, c, a⟩ ≠ some lock) : Over m' lock now := by
  intro expiry' hl'
  rcases hs.lease_cases hl' with ⟨x, leased, -, hh, hlock, -, -⟩ | hkept
  · exact absurd (by simp [Exchange.granted?, hh, hlock]) hg
  · obtain ⟨expiry, hl⟩ := hkept.lease
    have hren : Exchange.renewed? ⟨r, c, a⟩ ≠ some lock := by
      intro hren
      exact h.accepted?_ne hs hnow (Exchange.accepted?_of_renewed? hren)
    -- the lease is there before and after, and no renewal was accepted: its end is the same
    rcases hs.lease_after hl with hafter | hended | ⟨-, hgranted | hshut⟩
    · rw [hafter] at hl'
      obtain ⟨-, heq⟩ := Prod.mk.inj (Option.some.inj hl')
      rw [← heq, Lock.endAfter, if_neg hren]
      exact h expiry hl
    · exact absurd rfl (hkept.ended lock hended)
    · exact absurd hgranted hg
    · exact absurd hl' (hshut expiry')

theorem run {xs : List (Exchange τ)} (hs : Run m xs m') (h : Over m lock now)
    (hnow : ∀ x ∈ xs, now ≤ x.reading.now) (hg : ∀ x ∈ xs, x.granted? ≠ some lock) :
    Over m' lock now := by
  induction hs with
  | nil => exact h
  | cons hstep _ ih =>
    have h' := h.step hstep (hnow _ List.mem_cons_self) (hg _ List.mem_cons_self)
    apply ih h'
    · intro x hx
      exact hnow x (List.mem_cons_of_mem _ hx)
    · intro x hx
      exact hg x (List.mem_cons_of_mem _ hx)

end Over

/-! ## Where the ends of leases come from -/

/-- A lease was there before the exchange, or runs as long from its reading as a new one does. -/
theorem Reference.Allows.lease_from (ha : Allows m r c a m') {name : String} {token : Uuid}
    (hl : (m'.line name).lease = some (token, expiry)) :
    (m.line name).lease = some (token, expiry) ∨ expiry = r.now.addSaturating r.expiration := by
  cases ha with
  | @enqueued other item priority hn =>
    left
    rwa [Model.lease_place] at hl
  | @leased other x hx hmin =>
    by_cases heq : name = other
    · right
      simp [heq] at hl
      exact hl.2.symm
    · left
      simpa [heq] using hl
  | @renewed lock' h =>
    by_cases heq : name = lock'.lane
    · right
      simp [heq] at hl
      exact hl.2.symm
    · left
      simpa [heq] using hl
  | released | acknowledged | deferred =>
    left
    obtain ⟨-, hline⟩ := line_put_of_lease rfl hl
    rwa [← hline]
  | swept hasc hmem =>
    left
    exact (Option.filter_eq_some_iff.1 hl).1
  | alreadyQueued | nothing | renewRefused | releaseRefused | acknowledgeRefused | deferRefused
  | isQueued => exact .inl hl

theorem Reference.Run.lease_from {xs : List (Exchange τ)} (hs : Run m xs m') {name : String}
    {token : Uuid} (hl : (m'.line name).lease = some (token, expiry)) :
    (m.line name).lease = some (token, expiry) ∨
      ∃ x ∈ xs, expiry = x.reading.now.addSaturating x.reading.expiration := by
  induction hs with
  | nil => exact .inl hl
  | cons hstep _ ih =>
    rcases ih hl with hl' | ⟨x, hx, heq⟩
    · rcases hstep.lease_from hl' with hl'' | heq
      · exact .inl hl''
      · exact .inr ⟨_, List.mem_cons_self, heq⟩
    · exact .inr ⟨x, List.mem_cons_of_mem _ hx, heq⟩

theorem Reference.Run.append {m'' : Model τ} {xs ys : List (Exchange τ)}
    (hs : Run m (xs ++ ys) m'') : ∃ m', Run m xs m' ∧ Run m' ys m'' := by
  induction xs generalizing m with
  | nil => exact ⟨m, .nil m, hs⟩
  | cons x xs ih =>
    cases hs with
    | cons hstep hrest =>
      obtain ⟨m', hxs, hys⟩ := ih hrest
      exact ⟨m', .cons hstep hxs, hys⟩

/-! ## The queue -/

/-- A renewed lease has its token and another end, and its lane the entries that it had. If the end
is not an earlier one, the lane can be leased at no instant at which it could not be. -/
structure Prolongs (q q' : Queue τ) (lock : Lock) (expiry expiry' : Instant) : Prop where
  before : (q.laneAt lock.lane).lease = some ⟨lock.lane, lock.token, expiry⟩
  after : q'.laneAt lock.lane =
    { q.laneAt lock.lane with lease := some ⟨lock.lane, lock.token, expiry'⟩ }
  others : ∀ other, other ≠ lock.lane → q'.laneAt other = q.laneAt other
  taken : expiry ≤ expiry' → ∀ now, (q'.laneAt lock.lane).isLeasableAt now = true →
    (q.laneAt lock.lane).isLeasableAt now = true

variable {expiration : Duration} {calls : List (Call.Reading × QueueCall τ)}
  {xs before between later : List (Exchange τ)} {x y : Exchange τ} {leased : LeasedItem τ}

omit [Keyed τ] in
/-- Under a clock that is `Steady` nothing before an exchange was read later. -/
theorem Steady.le_of_cut (h : Steady expiration xs)
    (hcut : xs = before ++ x :: between ++ y :: later) :
    ∀ z ∈ before ++ x :: between, z.reading.now ≤ y.reading.now := by
  intro z hz
  have hasc := h.ascending
  rw [hcut, List.pairwise_append] at hasc
  exact hasc.2.2 z hz y List.mem_cons_self

omit [Keyed τ] in
/-- In a `Steady` course nothing after it was read earlier either. -/
theorem Steady.ge_of_cut (h : Steady expiration xs)
    (hcut : xs = before ++ x :: between ++ y :: later) :
    ∀ z ∈ between ++ [y], x.reading.now ≤ z.reading.now := by
  intro z hz
  have hasc := h.ascending
  have hsplit : before ++ x :: between ++ y :: later =
      before ++ x :: (between ++ [y] ++ later) := by simp
  rw [hcut, hsplit, List.pairwise_append, List.pairwise_cons] at hasc
  exact hasc.2.1.1 z (List.mem_append_left _ hz)

theorem Simulates.of_run {number : Nat → Nat} {q : Queue τ} (h : Simulates number q m)
    (hs : Run m xs m') : ∃ number, Simulates number (q.after (xs.map Exchange.request)) m' := by
  induction hs generalizing number q with
  | nil => exact ⟨number, h⟩
  | @cons _ _ _ r c _ _ hstep _ ih =>
    obtain ⟨number', m₁, hallows, hsim⟩ := h.answer r c
    obtain ⟨-, rfl⟩ := hstep.unique hallows
    exact ih hsim

theorem Simulates.items_ne_nil_of_lease {number : Nat → Nat} {q : Queue τ}
    (h : Simulates number q m) {name : String} {x : Uuid × Instant}
    (hl : (m.line name).lease = some x) : (m.line name).items ≠ [] := by
  have hlease : (q.laneAt name).lease = some ⟨name, x.1, x.2⟩ := by
    rw [h.lease_laneAt, hl]
    rfl
  have hentries := h.wf.entries_ne_nil_of_lease hlease
  rw [h.entries_laneAt] at hentries
  intro hnil
  simp [hnil] at hentries

/-- A transcript cut at two exchanges, as `Reference.Run` sees it. -/
theorem reference_between (hxs : (Queue.empty : Queue τ).transcript calls = xs)
    (hcut : xs = before ++ x :: between ++ y :: later) :
    ∃ number number' m₀ m₁ m₂ m₃, Simulates number (afterAll before) m₀ ∧
      Allows m₀ x.reading x.call x.answer m₁ ∧ Run m₁ between m₂ ∧
      Simulates number' (afterAll (before ++ x :: between)) m₂ ∧
      Allows m₂ y.reading y.call y.answer m₃ := by
  obtain ⟨-, m₂, m₃, -, hrun, -, -, hallows, -⟩ := reference_of_transcript (hxs.trans hcut)
  obtain ⟨number', hsim'⟩ := Simulates.fresh.of_run hrun
  obtain ⟨m₀, hbefore, hrest⟩ := hrun.append
  obtain ⟨number, hsim⟩ := Simulates.fresh.of_run hbefore
  cases hrest with
  | @cons _ m₁ _ _ _ _ _ hx hbetween =>
    exact ⟨number, number', m₀, m₁, m₂, m₃, hsim, hx, hbetween, hsim', hallows⟩

/-- What was `handed?` out is the lease of its lane. -/
theorem Reference.Allows.lease_of_handed? (ha : Allows m x.reading x.call x.answer m')
    (h : x.handed? = some leased) : (m'.line leased.lease.lane).lease =
      some (leased.lease.token, leased.lease.expiresAt) := by
  obtain ⟨r, c, a⟩ := x
  simp only at ha
  cases ha <;> simp only [Exchange.handed?, reduceCtorEq, Option.some.injEq] at h
  subst h
  simp

/-- A lane is granted again only after its lease was ended or `Lock.endAfter` has come. -/
theorem ended_or_over_of_granted (hxs : (Queue.empty : Queue τ).transcript calls = xs)
    (hclock : Steady expiration xs) (hcut : xs = before ++ x :: between ++ y :: later)
    (hx : x.handed? = some leased) (hy : y.granted? = some lock)
    (hlane : lock.lane = leased.lease.lane) :
    (∃ z ∈ between, z.ended? = some leased.lease.lock) ∨
      leased.lease.lock.endAfter leased.lease.expiresAt between ≤ y.reading.now := by
  obtain ⟨-, -, m₀, m₁, m₂, m₃, -, hallows, hrun, -, hallows'⟩ := reference_between hxs hcut
  by_cases hend : ∃ z ∈ between, z.ended? = some leased.lease.lock
  · exact .inl hend
  · right
    have hstart : Followed m₁ leased.lease.lock leased.lease.expiresAt y.reading.now True :=
      .inl (hallows.lease_of_handed? hx)
    have hnow := hclock.le_of_cut hcut
    have hfollowed := hstart.run hrun
      (fun z hz => hnow z (List.mem_append_right _ (List.mem_cons_of_mem _ hz)))
      (fun z hz hz' => hend ⟨z, hz, hz'⟩) (fun _ _ _ => trivial)
    rcases hfollowed with hl | ⟨hover, -⟩
    · have hlane' : leased.lease.lock.lane = lock.lane := hlane.symm
      rw [hlane'] at hl
      exact hallows'.le_of_granted? hy hl
    · exact hover

/-- From its granting on the clock tells whether a lock opens its lane, up to `Lock.endAfter` and no
longer. -/
theorem accepted?_iff_not_over (hxs : (Queue.empty : Queue τ).transcript calls = xs)
    (hclock : Steady expiration xs) (hcut : xs = before ++ x :: between ++ y :: later)
    (hx : x.handed? = some leased)
    (hbetween : ∀ z ∈ between, z.ended? ≠ some leased.lease.lock ∧
      z.granted? ≠ some leased.lease.lock)
    (hy : y.presented? = some leased.lease.lock) :
    y.accepted? = some leased.lease.lock ↔
      ¬ leased.lease.lock.endAfter leased.lease.expiresAt between ≤ y.reading.now := by
  obtain ⟨-, number, m₀, m₁, m₂, m₃, -, hallows, hrun, hsim, hallows'⟩ :=
    reference_between hxs hcut
  have hstart : Followed m₁ leased.lease.lock leased.lease.expiresAt y.reading.now False :=
    .inl (hallows.lease_of_handed? hx)
  have hnow := hclock.le_of_cut hcut
  have hfollowed := hstart.run hrun
    (fun z hz => hnow z (List.mem_append_right _ (List.mem_cons_of_mem _ hz)))
    (fun z hz => (hbetween z hz).1) (fun z hz hg => (hbetween z hz).2 hg)
  constructor
  · intro hacc
    have hopen := hallows'.refusal?_of_accepted? hacc
    obtain ⟨-, expiry', hl', hlive⟩ := refusal?_eq_none_iff.1 hopen
    rcases hfollowed with hl | ⟨-, hover⟩
    · rw [hl] at hl'
      obtain ⟨-, rfl⟩ := Prod.mk.inj (Option.some.inj hl')
      exact hlive
    · rcases hover with hfalse | hshut
      · exact hfalse.elim
      · exact absurd hl' (hshut expiry')
  · intro hlive
    rcases hfollowed with hl | ⟨hover, -⟩
    · apply hallows'.accepted?_of_refusal? hy
      exact refusal?_eq_none_iff.2 ⟨hsim.items_ne_nil_of_lease hl, _, hl, hlive⟩
    · exact absurd hover hlive

/-- A lock that was `refused?` is accepted only if it was granted since. -/
theorem granted_of_accepted_of_refused (hxs : (Queue.empty : Queue τ).transcript calls = xs)
    (hclock : Steady expiration xs) (hcut : xs = before ++ x :: between ++ y :: later)
    {e : QueueError} (hx : x.refused? = some (lock, e)) (hy : y.accepted? = some lock) :
    ∃ z ∈ between, z.granted? = some lock := by
  obtain ⟨number, -, m₀, m₁, m₂, m₃, hsim, hallows, hrun, -, hallows'⟩ :=
    reference_between hxs hcut
  by_contra hnone
  have hover : Over m₀ lock x.reading.now := by
    intro expiry hl
    exact le_of_refusal?_eq_some (hallows.refusal?_of_refused? hx)
      (hsim.items_ne_nil_of_lease hl) hl
  have hstart : Over m₁ lock x.reading.now := by
    apply hover.step hallows (Instant.le_refl _)
    simp [Exchange.granted?_of_presented? (Exchange.presented?_of_refused? hx)]
  have hge := hclock.ge_of_cut hcut
  have hend : Over m₂ lock x.reading.now := by
    apply hstart.run hrun
    · intro z hz
      exact hge z (List.mem_append_left _ hz)
    · intro z hz hgrant
      exact hnone ⟨z, hz, hgrant⟩
  exact hend.accepted?_ne hallows' (hge y (by simp)) hy

/-- What `Opens` a lane is the lock of its lease. -/
theorem lock_eq_of_opens {lock' : Lock} {r' : Call.Reading}
    (h : Opens (afterAll before) lock r) (h' : Opens (afterAll before) lock' r')
    (hlane : lock.lane = lock'.lane) : lock' = lock := by
  obtain ⟨number, m, -, hsim⟩ := Simulates.fresh.run (before.map Exchange.request)
  obtain ⟨c, hc⟩ := h
  obtain ⟨c', hc'⟩ := h'
  obtain ⟨-, m₁, hallows, -⟩ := hsim.answer r c
  obtain ⟨-, m₂, hallows', -⟩ := hsim.answer r' c'
  obtain ⟨expiry, hl⟩ := hallows.lease_of_accepted? hc
  exact lock_eq_of_refusal?_eq_none (hallows'.refusal?_of_accepted? hc') hl hlane

/-- A renewal that is accepted puts `Lease.renew` in the place of the lease and leaves all else. -/
theorem WF.renew_ok {q : Queue τ} (h : q.WF) (hok : (q.renew lock now expiration).1 = .ok ()) :
    ∃ lease, (q.laneAt lock.lane).lease = some lease ∧ (q.renew lock now expiration).2 =
      q.setLane lock.lane
        { q.laneAt lock.lane with lease := some (lease.renew now expiration) } := by
  rcases h.lockedLane_cases lock now with ⟨e, hl⟩ | ⟨-, -, lease, -, hlease, -, -, hl⟩
  · simp [Queue.renew, hl] at hok
  · exact ⟨lease, hlease, by simp [Queue.renew, hl, hlease]⟩

/-- A successful renewal `Prolongs` the lease. Readings outside leap seconds put off the end. -/
theorem prolongs_of_renewed (hxs : (Queue.empty : Queue τ).transcript calls = xs)
    (hclock : Steady expiration xs) (hcut : xs = before ++ x :: later)
    (hx : x.renewed? = some lock) :
    ∃ expiry, Prolongs (afterAll before) (afterAll (before ++ [x])) lock expiry
        (x.reading.now.addSaturating expiration) ∧
      ((∀ z ∈ before ++ [x], z.reading.now.Regular) →
        expiry ≤ x.reading.now.addSaturating expiration) := by
  obtain ⟨r, rfl⟩ : ∃ r, x = ⟨r, .renew lock, .ok ()⟩ := ⟨_, Exchange.eq_of_renewed? hx⟩
  obtain ⟨number, m, m', -, hrun, hsim, hanswer, hallows, -⟩ :=
    reference_of_transcript (hxs.trans hcut)
  obtain ⟨-, expiry, hl, -⟩ :=
    refusal?_eq_none_iff.1 (hallows.refusal?_of_accepted? (Exchange.accepted?_of_renewed? hx))
  have hexpiration : r.expiration = expiration := by
    apply hclock.fixed ⟨r, .renew lock, .ok ()⟩
    simp [hcut]
  -- the end so far was set at an earlier reading, and every lease runs as long
  have hlater : (∀ z ∈ before ++ [⟨r, .renew lock, .ok ()⟩], z.reading.now.Regular) →
      expiry ≤ r.now.addSaturating expiration := by
    intro hregular
    rcases hrun.lease_from hl with hnone | ⟨z, hz, rfl⟩
    · cases hnone
    · rw [hclock.fixed z (by simp [hcut, hz])]
      have hle : z.reading.now ≤ r.now := by
        have hasc := hclock.ascending
        rw [hcut, List.pairwise_append] at hasc
        exact hasc.2.2 z hz _ List.mem_cons_self
      have hz' := hregular z (List.mem_append_left _ hz)
      have hr := hregular ⟨r, .renew lock, .ok ()⟩ (by simp)
      exact hz'.addSaturating_le_addSaturating hr hle expiration
  have hlease : ((afterAll before).laneAt lock.lane).lease =
      some ⟨lock.lane, lock.token, expiry⟩ := by
    rw [hsim.lease_laneAt, hl]
    rfl
  have hnext : afterAll (before ++ [⟨r, .renew lock, .ok ()⟩]) =
      ((afterAll before).renew lock r.now r.expiration).2 := by
    simp [afterAll, after_append, Exchange.request, Queue.after, Memory.answerQueue]
  obtain ⟨lease, hlease', heq⟩ := hsim.wf.renew_ok hanswer.symm
  rw [hlease] at hlease'
  obtain rfl := Option.some.inj hlease'
  rw [← hnext, hexpiration] at heq
  have hafter : (afterAll (before ++ [⟨r, .renew lock, .ok ()⟩])).laneAt lock.lane =
      { (afterAll before).laneAt lock.lane with
        lease := some ⟨lock.lane, lock.token, r.now.addSaturating expiration⟩ } := by
    rw [heq, laneAt_setLane, if_pos rfl]
    rfl
  refine ⟨expiry, ⟨hlease, hafter, ?_, ?_⟩, hlater⟩
  · intro other hne
    rw [heq, laneAt_setLane, if_neg hne]
  · intro hle now hfree
    rw [hafter] at hfree
    simp only [Lane.isLeasableAt, Lease.isExpiredAt, decide_eq_true_eq] at hfree
    simp only [Lane.isLeasableAt, hlease, Lease.isExpiredAt, decide_eq_true_eq]
    exact Instant.le_trans hle hfree

/-- One lease at a time on every lane, in the answers to calls at readings of a clock. -/
structure Exclusive (expiration : Duration) (xs : List (Exchange τ)) : Prop where
  /-- Between two grants of a lane the first was ended by its holder or ran out. -/
  apart : ∀ before x between y later leased lock, xs = before ++ x :: between ++ y :: later →
    x.handed? = some leased → y.granted? = some lock → lock.lane = leased.lease.lane →
    (∃ z ∈ between, z.ended? = some leased.lease.lock) ∨
      leased.lease.lock.endAfter leased.lease.expiresAt between ≤ y.reading.now
  /-- One lock opens a lane. -/
  single : ∀ before later lock lock' r r', xs = before ++ later →
    Opens (afterAll before) lock r → Opens (afterAll before) lock' r' → lock.lane = lock'.lane →
    lock = lock'
  /-- The clock alone tells whether a lock that was not ended opens its lane. -/
  timed : ∀ before x between y later leased, xs = before ++ x :: between ++ y :: later →
    x.handed? = some leased →
    (∀ z ∈ between, z.ended? ≠ some leased.lease.lock ∧ z.granted? ≠ some leased.lease.lock) →
    y.presented? = some leased.lease.lock →
    (y.accepted? = some leased.lease.lock ↔
      ¬ leased.lease.lock.endAfter leased.lease.expiresAt between ≤ y.reading.now)
  /-- A lock that was refused is accepted only if it was granted since. -/
  granted : ∀ before x between y later lock e, xs = before ++ x :: between ++ y :: later →
    x.refused? = some (lock, e) → y.accepted? = some lock →
    ∃ z ∈ between, z.granted? = some lock
  /-- While no token is granted twice, a lock that was granted and then refused opens nothing. -/
  final : (grantedTokens xs).Nodup → ∀ before x between y later lock e,
    xs = before ++ x :: between ++ y :: later → (∃ z ∈ before, z.granted? = some lock) →
    x.refused? = some (lock, e) → y.accepted? ≠ some lock
  /-- A renewal keeps the token and the lane, and puts off the end if no reading so far was in a
  leap second. -/
  renewed : ∀ before x later lock, xs = before ++ x :: later → x.renewed? = some lock →
    ∃ expiry, Prolongs (afterAll before) (afterAll (before ++ [x])) lock expiry
        (x.reading.now.addSaturating expiration) ∧
      ((∀ z ∈ before ++ [x], z.reading.now.Regular) →
        expiry ≤ x.reading.now.addSaturating expiration)

/-- **One lease at a time.** Under a clock that does not go back every lane has one lease at a
time. -/
theorem mutual_exclusion (expiration : Duration) (calls : List (Call.Reading × QueueCall τ))
    (hclock : Steady expiration ((Queue.empty : Queue τ).transcript calls)) :
    Exclusive expiration ((Queue.empty : Queue τ).transcript calls) where
  apart _ _ _ _ _ _ _ hcut hx hy hlane := ended_or_over_of_granted rfl hclock hcut hx hy hlane
  single _ _ _ _ _ _ _ h h' hlane := (lock_eq_of_opens h h' hlane).symm
  timed _ _ _ _ _ _ hcut hx hbetween hy := accepted?_iff_not_over rfl hclock hcut hx hbetween hy
  granted _ _ _ _ _ _ _ hcut hx hy := granted_of_accepted_of_refused rfl hclock hcut hx hy
  final hn before x between y later lock _ hcut := by
    rintro ⟨w, hw, hwg⟩ hx hy
    obtain ⟨z, hz, hzg⟩ := granted_of_accepted_of_refused rfl hclock hcut hx hy
    have hsplit : before ++ x :: between ++ y :: later =
        before ++ (x :: between ++ y :: later) := by simp
    rw [hcut, hsplit] at hn
    exact token_ne_of_append hn hw (by simp [hz]) hwg hzg rfl
  renewed _ _ _ _ hcut hx := prolongs_of_renewed rfl hclock hcut hx

/-- A lease that was renewed at 5 holds until 15, and its lane is granted again at 20. -/
theorem mutual_exclusion_after_renewal :
    Lock.endAfter (τ := String) ⟨"a", .ofNat 1⟩ ⟨11, 0⟩
      [⟨readingAt 5, .renew ⟨"a", .ofNat 1⟩, .ok ()⟩, ⟨readingAt 14, .lease, .ok none⟩,
        ⟨readingAt 15, .sweep, .ok [⟨"a", .ofNat 1, ⟨15, 0⟩⟩]⟩] ≤ ⟨20, 0⟩ :=
  ((mutual_exclusion (τ := String) (.ofMillis 10000)
    [(readingAt 0, .enqueue "a" "job" 3), (readingAt 1, .lease),
      (readingAt 5, .renew ⟨"a", .ofNat 1⟩), (readingAt 14, .lease), (readingAt 15, .sweep),
      (readingAt 20, .lease)] ⟨by decide, by decide⟩).apart
    [⟨readingAt 0, .enqueue "a" "job" 3, .ok ()⟩]
    ⟨readingAt 1, .lease, .ok (some ⟨"job", 3, ⟨"a", .ofNat 1, ⟨11, 0⟩⟩⟩)⟩ _
    ⟨readingAt 20, .lease, .ok (some ⟨"job", 3, ⟨"a", .ofNat 20, ⟨30, 0⟩⟩⟩)⟩ [] _ _
    rfl rfl rfl rfl).resolve_left (by decide)

end

end Queue

end EventRelay
