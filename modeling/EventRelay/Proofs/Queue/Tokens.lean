import EventRelay.Proofs.Queue.Refinement
import Mathlib.Data.List.Nodup

/-!
# What a token is worth

A token stands for one handing out of one item. While a lease is on a lane the head stays where it
is, whatever others do, so whoever presents the token acts on the item that came with it. Once the
lease was ended, swept or replaced, the token opens nothing any more. All this is read off the
reference model and holds for any readings of the clock; tokens have to be fresh and nothing else.
-/

namespace EventRelay

namespace Exchange

variable {τ : Type}

/-- What was handed out, if the exchange was a `QueueCall.lease` that gave something. -/
def handed? : Exchange τ → Option (LeasedItem τ)
  | ⟨_, .lease, .ok leased⟩ => leased
  | _ => none

/-- The lock of the lease that was `handed?` out. -/
def granted? (x : Exchange τ) : Option Lock := x.handed?.map (·.lease.lock)

/-- The lock that was presented: that of a `QueueCall.renew`, `release`, `acknowledge` or
`defer`. -/
def presented? : Exchange τ → Option Lock
  | ⟨_, .renew lock, _⟩ | ⟨_, .release lock, _⟩ | ⟨_, .acknowledge lock, _⟩
  | ⟨_, .defer lock _, _⟩ => some lock
  | _ => none

/-- The lock that was `presented?` and not refused. -/
def accepted? : Exchange τ → Option Lock
  | ⟨_, .renew lock, .ok _⟩ | ⟨_, .release lock, .ok _⟩ | ⟨_, .acknowledge lock, .ok _⟩
  | ⟨_, .defer lock _, .ok _⟩ => some lock
  | _ => none

/-- The lock whose lease was ended by its holder: one that was `accepted?`, unless to renew. -/
def ended? : Exchange τ → Option Lock
  | ⟨_, .release lock, .ok _⟩ | ⟨_, .acknowledge lock, .ok _⟩ | ⟨_, .defer lock _, .ok _⟩ =>
    some lock
  | _ => none

/-- The leases that a `QueueCall.sweep` answered. -/
def swept : Exchange τ → List Lease
  | ⟨_, .sweep, .ok leases⟩ => leases
  | _ => []

theorem presented?_of_accepted? {x : Exchange τ} {lock : Lock} (h : x.accepted? = some lock) :
    x.presented? = some lock := by
  unfold accepted? at h
  split at h <;> simp_all [presented?]

theorem accepted?_of_ended? {x : Exchange τ} {lock : Lock} (h : x.ended? = some lock) :
    x.accepted? = some lock := by
  unfold ended? at h
  split at h <;> simp_all [accepted?]

/-- What presents a lock is `accepted?` with this lock or not at all. -/
theorem accepted?_eq_none {x : Exchange τ} {lock : Lock} (hp : x.presented? = some lock)
    (ha : x.accepted? ≠ some lock) : x.accepted? = none := by
  cases h : x.accepted? with
  | none => rfl
  | some l =>
    rw [presented?_of_accepted? h] at hp
    exact absurd (h.trans hp) ha

end Exchange

namespace Queue

open Reference Sample

variable {τ : Type}

/-- The tokens of the locks that were `granted?`, in their order. -/
def grantedTokens (h : List (Exchange τ)) : List Uuid :=
  (h.filterMap Exchange.granted?).map (·.token)

/-- The lock was granted with the item, since then its lane was granted to no one, and its token was
never used up. -/
def HeldBy (h : List (Exchange τ)) (lock : Lock) (item : τ) : Prop :=
  ∃ earlier x since leased, h = earlier ++ x :: since ∧ x.handed? = some leased ∧
    leased.lease.lock = lock ∧ leased.item = item ∧
    (∀ y ∈ since, ∀ l, y.granted? = some l → l.lane ≠ lock.lane) ∧
    ∀ y ∈ h, ∀ l, y.ended? = some l → l.token ≠ lock.token

/-- After this exchange the lock is worth nothing: its lease was ended or swept, or its lane was
granted anew. -/
def Spends (before : List (Exchange τ)) (x : Exchange τ) (lock : Lock) : Prop :=
  x.ended? = some lock ∨ (∃ lease ∈ x.swept, lease.lock = lock) ∨
    ((∃ y ∈ before, y.granted? = some lock) ∧ ∃ l, x.granted? = some l ∧ l.lane = lock.lane)

/-! ## Granted tokens -/

theorem mem_grantedTokens {h : List (Exchange τ)} {x : Exchange τ} {lock : Lock} (hx : x ∈ h)
    (hg : x.granted? = some lock) : lock.token ∈ grantedTokens h :=
  List.mem_map.2 ⟨lock, List.mem_filterMap.2 ⟨x, hx, hg⟩, rfl⟩

theorem grantedTokens_append (h later : List (Exchange τ)) :
    grantedTokens (h ++ later) = grantedTokens h ++ grantedTokens later := by
  simp [grantedTokens, List.filterMap_append]

/-- Where `grantedTokens` differ, a token is that of one lock. -/
theorem lock_unique {h : List (Exchange τ)} (hn : (grantedTokens h).Nodup) {x y : Exchange τ}
    {lock lock' : Lock} (hx : x ∈ h) (hy : y ∈ h) (hg : x.granted? = some lock)
    (hg' : y.granted? = some lock') (ht : lock.token = lock'.token) : lock = lock' :=
  List.inj_on_of_nodup_map hn (List.mem_filterMap.2 ⟨x, hx, hg⟩)
    (List.mem_filterMap.2 ⟨y, hy, hg'⟩) ht

/-- Where `grantedTokens` differ, what is granted later has a token that was not granted before. -/
theorem token_ne_of_append {h later : List (Exchange τ)} (hn : (grantedTokens (h ++ later)).Nodup)
    {x y : Exchange τ} {lock lock' : Lock} (hx : x ∈ h) (hy : y ∈ later)
    (hg : x.granted? = some lock) (hg' : y.granted? = some lock') : lock.token ≠ lock'.token := by
  rw [grantedTokens_append, List.nodup_append] at hn
  exact hn.2.2 _ (mem_grantedTokens hx hg) _ (mem_grantedTokens hy hg')

namespace HeldBy

variable {h : List (Exchange τ)} {lock : Lock} {item : τ}

theorem granted (hh : HeldBy h lock item) : ∃ x ∈ h, x.granted? = some lock := by
  obtain ⟨earlier, x, since, leased, rfl, hx, hl, -⟩ := hh
  exact ⟨x, by simp, by simp [Exchange.granted?, hx, hl]⟩

/-- A lock stays `HeldBy` its holder while its lane is granted to no one and its token is not used
up. -/
theorem snoc (hh : HeldBy h lock item) {x : Exchange τ}
    (hg : ∀ l, x.granted? = some l → l.lane ≠ lock.lane)
    (he : ∀ l, x.ended? = some l → l.token ≠ lock.token) : HeldBy (h ++ [x]) lock item := by
  obtain ⟨earlier, y, since, leased, rfl, hy, hl, hi, hsince, hended⟩ := hh
  refine ⟨earlier, y, since ++ [x], leased, by simp, hy, hl, hi, fun z hz => ?_, fun z hz => ?_⟩
  · rcases List.mem_append.1 hz with hz | hz
    · exact hsince z hz
    · exact List.mem_singleton.1 hz ▸ hg
  · rcases List.mem_append.1 hz with hz | hz
    · exact hended z hz
    · exact List.mem_singleton.1 hz ▸ he

end HeldBy

section

variable [Keyed τ] {m m' : Model τ} {r : Call.Reading} {c : QueueCall τ} {a : c.Answer}

/-! ## What one exchange does to leases -/

omit [Keyed τ] in
/-- `refusal?` has nothing against the lock of a lease that has not run out, where something is in
the line. -/
theorem refusal?_eq_none_iff {lock : Lock} {now : Instant} :
    m.refusal? lock now = none ↔
    (m.line lock.lane).items ≠ [] ∧ ∃ expiry,
      (m.line lock.lane).lease = some (lock.token, expiry) ∧ ¬ expiry ≤ now := by
  unfold Model.refusal? Line.token?
  by_cases hnil : (m.line lock.lane).items = []
  · simp [hnil]
  · rcases hl : (m.line lock.lane).lease with _ | ⟨token, expiry⟩
    · simp [hnil]
    · by_cases hexp : expiry ≤ now
      · simp [hnil, hexp]
      · by_cases htok : token = lock.token
        · simp [hnil, hexp, htok]
        · simp [hnil, hexp, htok]

omit [Keyed τ] in
theorem lease_of_refusal?_eq_none {lock : Lock} {now : Instant} (h : m.refusal? lock now = none) :
    ∃ expiry, (m.line lock.lane).lease = some (lock.token, expiry) := by
  obtain ⟨-, expiry, hl, -⟩ := refusal?_eq_none_iff.1 h
  exact ⟨expiry, hl⟩

/-- A lock that is `accepted?` is that of the lease on its lane. -/
theorem Reference.Allows.lease_of_accepted? (ha : Allows m r c a m') {lock : Lock}
    (h : Exchange.accepted? ⟨r, c, a⟩ = some lock) :
    ∃ expiry, (m.line lock.lane).lease = some (lock.token, expiry) := by
  cases ha <;> simp only [Exchange.accepted?, reduceCtorEq, Option.some.injEq] at h
  all_goals
    subst h
    exact lease_of_refusal?_eq_none ‹_›

/-- A lease that was `ended?` is off its lane. -/
theorem Reference.Allows.lease_eq_none_of_ended? (ha : Allows m r c a m') {lock : Lock}
    (h : Exchange.ended? ⟨r, c, a⟩ = some lock) : (m'.line lock.lane).lease = none := by
  cases ha <;> simp only [Exchange.ended?, reduceCtorEq, Option.some.injEq] at h
  all_goals
    subst h
    simp [Model.put, Model.place]

theorem Reference.Allows.lease_of_granted? (ha : Allows m r c a m') {lock : Lock}
    (h : Exchange.granted? ⟨r, c, a⟩ = some lock) :
    ∃ expiry, (m'.line lock.lane).lease = some (lock.token, expiry) := by
  cases ha <;> simp only [Exchange.granted?, Exchange.handed?, Option.map_none, Option.map_some,
    reduceCtorEq, Option.some.injEq] at h
  subst h
  exact ⟨r.now.addSaturating r.expiration, by simp [Model.put, Lease.lock]⟩

/-- A lease that is `swept` was on its lane and is not any more. -/
theorem Reference.Allows.lease_of_mem_swept (ha : Allows m r c a m') {lease : Lease}
    (h : lease ∈ Exchange.swept ⟨r, c, a⟩) :
    (m.line lease.lane).lease = some (lease.token, lease.expiresAt) ∧
      (m'.line lease.lane).lease = none := by
  cases ha <;> simp only [Exchange.swept, List.not_mem_nil] at h
  next hmem =>
    obtain ⟨hl, hexp⟩ := (hmem lease).1 h
    exact ⟨hl, by simp [Line.sweep, hl, hexp, Option.filter_some]⟩

/-- The lease of a lane was there before an exchange, and so was its head: the exchange neither
granted nor ended a lease on this lane. -/
structure Reference.Kept (m m' : Model τ) (x : Exchange τ) (name : String) (token : Uuid) :
    Prop where
  lease : ∃ expiry, (m.line name).lease = some (token, expiry)
  head : ∀ y, (m.line name).items.head? = some y → (m'.line name).items.head? = some y
  granted : ∀ l, x.granted? = some l → l.lane ≠ name
  ended : ∀ l, x.ended? = some l → l.lane ≠ name

omit [Keyed τ] in
theorem Reference.Kept.of_line_eq {x : Exchange τ} {name : String} {token : Uuid}
    {expiry : Instant} (h : (m'.line name).lease = some (token, expiry))
    (hline : m'.line name = m.line name) (hgranted : ∀ l, x.granted? = some l → l.lane ≠ name)
    (hended : ∀ l, x.ended? = some l → l.lane ≠ name) : Kept m m' x name token where
  lease := ⟨expiry, hline ▸ h⟩
  head _ hy := hline ▸ hy
  granted := hgranted
  ended := hended

omit [Keyed τ] in
/-- A lease is not on a line that was `put` without one. -/
theorem line_put_of_lease {name other : String} {l : Line τ} (hl : l.lease = none)
    {x : Uuid × Instant} (h : ((m.put other l).line name).lease = some x) :
    other ≠ name ∧ (m.put other l).line name = m.line name := by
  simp only [Model.put] at h ⊢
  by_cases heq : name = other
  · rw [if_pos heq, hl] at h
    cases h
  · exact ⟨Ne.symm heq, if_neg heq⟩

/-- Where a lease comes from: the exchange granted it, with the head, or `Kept` it. -/
theorem Reference.Allows.lease_cases (ha : Allows m r c a m') {name : String} {token : Uuid}
    {expiry : Instant} (h : (m'.line name).lease = some (token, expiry)) :
    (∃ x leased, (m'.line name).items.head? = some x ∧
      Exchange.handed? ⟨r, c, a⟩ = some leased ∧ leased.lease.lock = ⟨name, token⟩ ∧
      leased.item = x.item ∧ Exchange.ended? ⟨r, c, a⟩ = none) ∨
    Kept m m' ⟨r, c, a⟩ name token := by
  cases ha with
  | @enqueued other item priority hn =>
    refine .inr ⟨⟨expiry, ?_⟩, fun x hx => ?_, (fun _ hl => by cases hl),
      fun _ hl => by cases hl⟩
    · simp only [Model.place, Model.put] at h
      split at h
      · next heq => subst heq; exact h
      · exact h
    · simp only [Model.place, Model.put]
      split
      · next heq => subst heq; simp [List.head?_append, hx]
      · exact hx
  | @leased other y hy hmin =>
    by_cases heq : name = other
    · subst heq
      simp only [Model.put, if_true] at h
      obtain ⟨rfl, rfl⟩ := Prod.mk.inj (Option.some.inj h)
      refine .inl ⟨y, _, ?_, rfl, rfl, rfl, rfl⟩
      have hhead : (m.line name).items.head? = some y := by
        unfold Line.offer? at hy
        split at hy
        · cases hy
        · exact hy
      simpa [Model.put] using hhead
    · refine .inr (.of_line_eq h (if_neg heq) (fun l hl => ?_) fun _ hl => by cases hl)
      obtain rfl := Option.some.inj hl
      exact Ne.symm heq
  | @renewed lock hr =>
    -- the lease of the line has another end, but the token that it had
    refine .inr ⟨?_, fun x hx => ?_, (fun _ hl => by cases hl),
      fun _ hl => by cases hl⟩
    · simp only [Model.put] at h
      split at h
      · next heq =>
        subst heq
        obtain ⟨rfl, -⟩ := Prod.mk.inj (Option.some.inj h)
        exact lease_of_refusal?_eq_none hr
      · exact ⟨expiry, h⟩
    · simp only [Model.put]
      split
      · next heq => subst heq; exact hx
      · exact hx
  | released | acknowledged | deferred =>
    -- the line of the lock is without a lease after it, so this lane is another
    obtain ⟨hne, hline⟩ := line_put_of_lease rfl h
    refine .inr (.of_line_eq h hline (fun _ hl => by cases hl) fun l hl => ?_)
    obtain rfl := Option.some.inj hl
    exact hne
  | swept hasc hmem =>
    exact .inr ⟨⟨expiry, (Option.filter_eq_some_iff.1 h).1⟩, fun x hx => hx,
      (fun _ hl => by cases hl), fun _ hl => by cases hl⟩
  | alreadyQueued | nothing | renewRefused | releaseRefused | acknowledgeRefused | deferRefused
  | isQueued =>
    exact .inr (.of_line_eq h rfl (fun _ hl => by cases hl) fun _ hl => by cases hl)

/-! ## Runs -/

/-- Every lease goes back to its granting, and its head to what was handed out then; a lock that was
given back was granted before. -/
structure Accounted (h : List (Exchange τ)) (m : Model τ) : Prop where
  held : ∀ name token expiry, (m.line name).lease = some (token, expiry) →
    ∃ x, (m.line name).items.head? = some x ∧ HeldBy h ⟨name, token⟩ x.item
  ended : ∀ x ∈ h, ∀ lock, x.ended? = some lock → ∃ y ∈ h, y.granted? = some lock

namespace Accounted

variable {h : List (Exchange τ)}

omit [Keyed τ] in
theorem fresh : Accounted ([] : List (Exchange τ)) {} where
  held _ _ _ hl := by cases hl
  ended _ hx := by cases hx

/-- A lock that is accepted is `HeldBy` somebody, with the head of its lane. -/
theorem heldBy_of_accepted? (ha : Accounted h m) (hs : Allows m r c a m') {lock : Lock}
    (hx : Exchange.accepted? ⟨r, c, a⟩ = some lock) :
    ∃ x, (m.line lock.lane).items.head? = some x ∧ HeldBy h lock x.item := by
  obtain ⟨expiry, hl⟩ := hs.lease_of_accepted? hx
  exact ha.held lock.lane lock.token expiry hl

/-- `Accounted` for one more exchange, by `Reference.Allows.lease_cases`. -/
theorem step (ha : Accounted h m) (hs : Allows m r c a m')
    (hn : (grantedTokens (h ++ [⟨r, c, a⟩])).Nodup) : Accounted (h ++ [⟨r, c, a⟩]) m' where
  held name token expiry hl := by
    rcases hs.lease_cases hl with
      ⟨x, leased, hhead, hh, hlock, hitem, hend⟩ | hkept
    · have hg : Exchange.granted? ⟨r, c, a⟩ = some ⟨name, token⟩ := by
        simp [Exchange.granted?, hh, hlock]
      refine ⟨x, hhead, h, _, [], leased, rfl, hh, hlock, hitem, by simp, fun y hy l hyl => ?_⟩
      rcases List.mem_append.1 hy with hy | hy
      · -- what was given back before was granted before, so with another token
        obtain ⟨z, hz, hzg⟩ := ha.ended y hy l hyl
        exact token_ne_of_append hn hz (List.mem_singleton_self _) hzg hg
      · rw [List.mem_singleton.1 hy, hend] at hyl
        cases hyl
    · obtain ⟨expiry', hl'⟩ := hkept.lease
      obtain ⟨x, hx, hheld⟩ := ha.held name token expiry' hl'
      refine ⟨x, hkept.head x hx, hheld.snoc hkept.granted fun l hle htok => hkept.ended l hle ?_⟩
      obtain ⟨y, -, hy⟩ := ha.heldBy_of_accepted? hs (Exchange.accepted?_of_ended? hle)
      obtain ⟨z, hz, hzg⟩ := hy.granted
      obtain ⟨z', hz', hzg'⟩ := hheld.granted
      exact congrArg Lock.lane (lock_unique hn (List.mem_append_left _ hz)
        (List.mem_append_left _ hz') hzg hzg' htok)
  ended x hx lock hl := by
    rcases List.mem_append.1 hx with hx | hx
    · obtain ⟨y, hy, hg⟩ := ha.ended x hx lock hl
      exact ⟨y, List.mem_append_left _ hy, hg⟩
    · rw [List.mem_singleton.1 hx] at hl
      obtain ⟨y, -, hy⟩ := ha.heldBy_of_accepted? hs (Exchange.accepted?_of_ended? hl)
      obtain ⟨z, hz, hg⟩ := hy.granted
      exact ⟨z, List.mem_append_left _ hz, hg⟩

/-- `Accounted` for a run. By induction on it. -/
theorem run {xs : List (Exchange τ)} (hs : Run m xs m') (ha : Accounted h m)
    (hn : (grantedTokens (h ++ xs)).Nodup) : Accounted (h ++ xs) m' := by
  induction hs generalizing h with
  | nil => simpa using ha
  | @cons _ _ _ r c a rest hstep _ ih =>
    have hsplit : h ++ ⟨r, c, a⟩ :: rest = h ++ [⟨r, c, a⟩] ++ rest := by simp
    rw [hsplit] at hn ⊢
    rw [grantedTokens_append] at hn
    refine ih (ha.step hstep (List.nodup_append.1 hn).1) ?_
    rw [grantedTokens_append]
    exact hn

end Accounted

/-! ## Locks that open nothing -/

/-- The lock `Opens` its lane at no time, unless it is granted. -/
def Shut (m : Model τ) (lock : Lock) : Prop :=
  ∀ expiry, (m.line lock.lane).lease ≠ some (lock.token, expiry)

namespace Shut

variable {lock : Lock}

/-- A lock that is `Shut` stays so, unless it is granted. -/
theorem step (h : Shut m lock) (hs : Allows m r c a m')
    (hg : Exchange.granted? ⟨r, c, a⟩ ≠ some lock) : Shut m' lock := by
  intro expiry hl
  rcases hs.lease_cases hl with ⟨x, leased, -, hh, hlock, -, -⟩ | hkept
  · exact hg (by simp [Exchange.granted?, hh, hlock])
  · obtain ⟨expiry', hl'⟩ := hkept.lease
    exact h expiry' hl'

/-- A lock that is `Shut` is accepted no more in a run that does not grant it. -/
theorem run {xs : List (Exchange τ)} (hs : Run m xs m') (h : Shut m lock)
    (hg : ∀ y ∈ xs, y.granted? ≠ some lock) : ∀ y ∈ xs, y.accepted? ≠ some lock := by
  induction hs with
  | nil => exact fun y hy => by cases hy
  | cons hstep _ ih =>
    intro y hy
    rcases List.mem_cons.1 hy with rfl | hy
    · intro hacc
      obtain ⟨expiry, hl⟩ := hstep.lease_of_accepted? hacc
      exact h expiry hl
    · exact ih (h.step hstep (hg _ List.mem_cons_self)) (fun z hz => hg z (.tail _ hz)) y hy

end Shut

/-- A lock that an exchange `Spends` was granted before and is `Shut` afterwards. -/
theorem Accounted.shut {h : List (Exchange τ)} (ha : Accounted h m) (hs : Allows m r c a m')
    (hn : (grantedTokens (h ++ [⟨r, c, a⟩])).Nodup) {lock : Lock}
    (hx : Spends h ⟨r, c, a⟩ lock) : (∃ y ∈ h, y.granted? = some lock) ∧ Shut m' lock := by
  rcases hx with hend | ⟨lease, hmem, rfl⟩ | ⟨hgranted, l, hl, hlane⟩
  · obtain ⟨x, -, hheld⟩ := ha.heldBy_of_accepted? hs (Exchange.accepted?_of_ended? hend)
    refine ⟨hheld.granted, fun expiry hl => ?_⟩
    rw [hs.lease_eq_none_of_ended? hend] at hl
    cases hl
  · obtain ⟨hl, hnone⟩ := hs.lease_of_mem_swept hmem
    obtain ⟨x, -, hheld⟩ := ha.held _ _ _ hl
    refine ⟨hheld.granted, fun expiry hl' => ?_⟩
    rw [show lease.lock.lane = lease.lane from rfl, hnone] at hl'
    cases hl'
  · refine ⟨hgranted, fun expiry hl' => ?_⟩
    obtain ⟨y, hy, hyg⟩ := hgranted
    obtain ⟨expiry', hl''⟩ := hs.lease_of_granted? hl
    rw [hlane, hl'] at hl''
    exact token_ne_of_append hn hy (List.mem_singleton_self _) hyg hl
      (Prod.mk.inj (Option.some.inj hl'')).1

/-! ## The queue -/

/-- The head of a lane is this item; it goes to the end with another priority, and nothing else
moves. -/
def MovesHead (q q' : Queue τ) (name : String) (item : τ) (priority : Int) : Prop :=
  ∃ head rest moved, (q.laneAt name).entries = head :: rest ∧ head.item = item ∧
    (q'.laneAt name).entries = rest ++ [moved] ∧ moved.item = item ∧ moved.key = head.key ∧
    moved.priority = priority ∧ ∀ other, other ≠ name → q'.laneAt other = q.laneAt other

/-- The queue after all these exchanges, from the empty one. -/
def afterAll (h : List (Exchange τ)) : Queue τ := Queue.empty.after (h.map Exchange.request)

theorem after_append (q : Queue τ) (calls later : List (Call.Reading × QueueCall τ)) :
    q.after (calls ++ later) = (q.after calls).after later := by
  induction calls generalizing q with
  | nil => rfl
  | cons call rest ih => exact ih _

/-- A transcript cut at an exchange, as `Reference.Run` sees it. -/
theorem reference_of_transcript {calls : List (Call.Reading × QueueCall τ)}
    {before later : List (Exchange τ)}
    (h : (Queue.empty : Queue τ).transcript calls = before ++ ⟨r, c, a⟩ :: later) :
    ∃ number m m' m'', Run {} before m ∧ Simulates number (afterAll before) m ∧
      a = (Memory.answerQueue (afterAll before) r c).1 ∧ Allows m r c a m' ∧ Run m' later m'' := by
  obtain ⟨hbefore, hlater⟩ := transcript_eq_append h
  obtain ⟨number, m, hrun, hsim⟩ := Simulates.fresh.run (before.map Exchange.request)
  rw [← hbefore] at hrun
  simp only [List.map_cons, Exchange.request, transcript, List.cons.injEq, Exchange.mk.injEq,
    true_and, heq_eq_eq] at hlater
  obtain ⟨hanswer, hrest⟩ := hlater
  obtain ⟨number', m', hallows, hsim'⟩ := hsim.answer r c
  obtain ⟨_, m'', hrun', -⟩ := hsim'.run (later.map Exchange.request)
  refine ⟨number, m, m', m'', hrun, hsim, hanswer, hanswer ▸ hallows, ?_⟩
  rw [hrest]
  exact hrun'

/-- A deferral that is accepted `MovesHead` of its lane. -/
theorem Simulates.movesHead {number : Nat → Nat} {q : Queue τ} {lock : Lock}
    {priority : Int} (h : Simulates number q m) {x : Placed τ}
    (hx : (m.line lock.lane).items.head? = some x)
    (hok : (q.defer lock priority r.now).1 = .ok ()) :
    MovesHead q (q.defer lock priority r.now).2 lock.lane x.item priority := by
  rcases h.wf.lockedLane_cases lock r.now with ⟨e, hl⟩ | ⟨head, rest, _, he, -, -, -, hl⟩
  · simp [Queue.defer, hl] at hok
  · obtain ⟨y, items, hitems, hhead, -⟩ := h.items_of_entries he
    rw [hitems] at hx
    obtain rfl := Option.some.inj hx
    have hitem : (movedEntry q head priority).item = y.item := by simp [movedEntry, hhead]
    refine ⟨head, rest, movedEntry q head priority, he, by rw [hhead], ?_, hitem, rfl, rfl,
      fun other hne => ?_⟩
    · simp [defer_ok priority he hl]
    · simp [defer_ok priority he hl, hne]

/-- **A token authenticates what it was handed out with, and once.** At every point of a run whose
granted tokens differ: what is acknowledged or deferred is the item that came with the token, and
the token was not used up nor its lane granted again; a spent lock is refused from then on; and no
token is accepted on a lane that it was not granted on. -/
theorem token_authenticates (calls : List (Call.Reading × QueueCall τ))
    (hn : (grantedTokens ((Queue.empty : Queue τ).transcript calls)).Nodup)
    (before : List (Exchange τ)) (x : Exchange τ) (later : List (Exchange τ))
    (hx : (Queue.empty : Queue τ).transcript calls = before ++ x :: later) :
    (∀ r lock item, x = ⟨r, .acknowledge lock, .ok item⟩ → HeldBy before lock item) ∧
    (∀ r lock priority, x = ⟨r, .defer lock priority, .ok ()⟩ →
      ∃ item, HeldBy before lock item ∧
        MovesHead (afterAll before) (afterAll (before ++ [x])) lock.lane item priority) ∧
    (∀ lock, Spends before x lock →
      ∀ y ∈ later, y.presented? = some lock → y.accepted? = none) ∧
    ∀ lock, x.accepted? = some lock →
      ∀ y ∈ before ++ x :: later, ∀ l, y.granted? = some l → l.token = lock.token → l = lock := by
  obtain ⟨r, c, a⟩ := x
  rw [hx] at hn
  obtain ⟨number, m, m', m'', hrun, hsim, hanswer, hallows, hlater⟩ := reference_of_transcript hx
  have hcut : before ++ ⟨r, c, a⟩ :: later = before ++ [⟨r, c, a⟩] ++ later := by simp
  have hn' : (grantedTokens (before ++ [⟨r, c, a⟩])).Nodup := by
    rw [hcut, grantedTokens_append] at hn
    exact (List.nodup_append.1 hn).1
  have hacc : Accounted before m := by
    rw [grantedTokens_append] at hn'
    exact Accounted.run hrun .fresh (List.nodup_append.1 hn').1
  refine ⟨fun r' lock item h => ?_, fun r' lock priority h => ?_, fun lock hspent y hy hp => ?_,
    fun lock hok y hy l hl htok => ?_⟩
  · obtain ⟨rfl, rfl, h⟩ := Exchange.mk.inj h
    obtain rfl := eq_of_heq h
    have hok : Exchange.accepted? ⟨r, .acknowledge lock, .ok item⟩ = some lock := rfl
    obtain ⟨z, hz, hheld⟩ := hacc.heldBy_of_accepted? hallows hok
    cases hallows with
    | acknowledged _ hitems =>
      rw [hitems] at hz
      obtain rfl := Option.some.inj hz
      exact hheld
  · obtain ⟨rfl, rfl, h⟩ := Exchange.mk.inj h
    obtain rfl := eq_of_heq h
    have hok : Exchange.accepted? (τ := τ) ⟨r, .defer lock priority, .ok ()⟩ = some lock := rfl
    obtain ⟨z, hz, hheld⟩ := hacc.heldBy_of_accepted? hallows hok
    refine ⟨z.item, hheld, ?_⟩
    have hnext : afterAll (before ++ [⟨r, .defer lock priority, .ok ()⟩]) =
        ((afterAll before).defer lock priority r.now).2 := by
      simp [afterAll, after_append, Exchange.request, Queue.after, Memory.answerQueue]
    rw [hnext]
    exact hsim.movesHead hz hanswer.symm
  · obtain ⟨⟨z, hz, hzg⟩, hshut⟩ := hacc.shut hallows hn' hspent
    refine Exchange.accepted?_eq_none hp (hshut.run hlater (fun w hw hwg => ?_) y hy)
    rw [hcut] at hn
    exact token_ne_of_append hn (List.mem_append_left _ hz) hw hzg hwg rfl
  · obtain ⟨z, -, hheld⟩ := hacc.heldBy_of_accepted? hallows hok
    obtain ⟨w, hw, hwg⟩ := hheld.granted
    exact lock_unique hn hy (List.mem_append_left _ hw) hl hwg htok

/-- The lease of the first second runs out and is replaced; its lock is refused and the new one
opens the lane. -/
theorem token_authenticates_after_expiry :
    HeldBy (τ := String)
      [⟨readingAt 0, .enqueue "a" "job" 3, .ok ()⟩,
        ⟨readingAt 1, .lease, .ok (some ⟨"job", 3, ⟨"a", .ofNat 1, ⟨11, 0⟩⟩⟩)⟩,
        ⟨readingAt 20, .lease, .ok (some ⟨"job", 3, ⟨"a", .ofNat 20, ⟨30, 0⟩⟩⟩)⟩,
        ⟨readingAt 21, .acknowledge ⟨"a", .ofNat 1⟩, .error (.tokenMismatch "a")⟩]
      ⟨"a", .ofNat 20⟩ "job" :=
  (token_authenticates
    [(readingAt 0, .enqueue "a" "job" 3), (readingAt 1, .lease), (readingAt 20, .lease),
      (readingAt 21, .acknowledge ⟨"a", .ofNat 1⟩), (readingAt 22, .acknowledge ⟨"a", .ofNat 20⟩)]
    (by decide) _ ⟨readingAt 22, .acknowledge ⟨"a", .ofNat 20⟩, .ok "job"⟩ [] rfl).1 _ _ _ rfl

end

end Queue

end EventRelay
