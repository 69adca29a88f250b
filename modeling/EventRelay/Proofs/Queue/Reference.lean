import Mathlib.Data.List.Forall2
import EventRelay.Proofs.Queue.Transcript

/-!
# A reference model of the queue

The model keeps for every name a line of items with their priorities and stamps, and the token and
the end of a lease. A stamp is the rank of the enqueueing or deferring that placed the item, so it
counts what succeeded and nothing else. `Allows` says of each call which answers the model allows,
without saying how they are found. It allows one (`Allows.unique`), but for the order in which a
sweep answers the leases that it takes off.
-/

namespace EventRelay.Queue.Reference

/-- An item in a `Line`, with the rank of its placing. -/
structure Placed (τ : Type) where
  item : τ
  priority : Int
  stamp : Nat

/-- Items, the head first, with the token and the end of the lease on the head. -/
structure Line (τ : Type) where
  items : List (Placed τ) := []
  lease : Option (Uuid × Instant) := none

/-- A `Line` for every name, and how many items were placed so far. -/
structure Model (τ : Type) where
  line : String → Line τ := fun _ => {}
  placed : Nat := 0

variable {τ : Type}

/-- The first item is handed out before the second, if both can be. -/
def Placed.Before (a b : Placed τ) : Prop :=
  a.priority < b.priority ∨ (a.priority = b.priority ∧ a.stamp < b.stamp)

namespace Line

/-- The token of the lease of a `Line`, if there is one that has not run out. -/
def token? (l : Line τ) (now : Instant) : Option Uuid :=
  match l.lease with
  | none => none
  | some (token, expiry) => if expiry ≤ now then none else some token

/-- The item that a lease would hand out: the head, unless `token?` says that it is leased. -/
def offer? (l : Line τ) (now : Instant) : Option (Placed τ) :=
  if (l.token? now).isSome then none else l.items.head?

/-- The line without a lease that has run out. -/
def sweep (l : Line τ) (now : Instant) : Line τ :=
  { l with lease := l.lease.filter fun (_, expiry) => !decide (expiry ≤ now) }

end Line

namespace Model

/-- Another `Line` in place of that of a name. -/
def put (m : Model τ) (name : String) (l : Line τ) : Model τ :=
  { m with line := fun other => if other = name then l else m.line other }

/-- `put`, with one more placing. -/
def place (m : Model τ) (name : String) (l : Line τ) : Model τ :=
  { m.put name l with placed := m.placed + 1 }

@[simp]
theorem line_put (m : Model τ) (name other : String) (l : Line τ) :
    (m.put name l).line other = if other = name then l else m.line other := rfl

@[simp]
theorem line_place (m : Model τ) (name other : String) (l : Line τ) :
    (m.place name l).line other = if other = name then l else m.line other := rfl

/-- Another item in a line leaves all leases as they are. -/
theorem lease_place (m : Model τ) (name other : String) (items : List (Placed τ)) :
    ((m.place name { m.line name with items := items }).line other).lease =
      (m.line other).lease := by
  rw [line_place]
  split
  · next heq => rw [heq]
  · rfl

/-- Why a lock is refused, if it is: nothing is in the line, it has no lease that holds, or that has
another token. -/
def refusal? (m : Model τ) (lock : Lock) (now : Instant) : Option QueueError :=
  if (m.line lock.lane).items = [] then some (.itemNotFound lock.lane)
  else
    match (m.line lock.lane).token? now with
    | none => some (.itemNotLocked lock.lane)
    | some token => if token = lock.token then none else some (.tokenMismatch lock.lane)

end Model

section

variable [Keyed τ]

/-- An item with the key, by `Keyed.key`, is in the line of a name. -/
def Model.Holds (m : Model τ) (name key : String) : Prop :=
  ∃ x ∈ (m.line name).items, Keyed.key x.item = key

/-- The answers that the `Model` allows to a call, and what it comes to be with each. -/
inductive Allows (m : Model τ) (r : Call.Reading) : (c : QueueCall τ) → c.Answer → Model τ → Prop
  | enqueued {name : String} {item : τ} {priority : Int} : ¬ m.Holds name (Keyed.key item) →
      Allows m r (.enqueue name item priority) (.ok ()) (m.place name
        { m.line name with items := (m.line name).items ++ [⟨item, priority, m.placed⟩] })
  | alreadyQueued {name : String} {item : τ} {priority : Int} : m.Holds name (Keyed.key item) →
      Allows m r (.enqueue name item priority)
        (.error (.itemAlreadyQueued name (Keyed.key item))) m
  /-- The offer that comes before those of all other names. -/
  | leased {name : String} {x : Placed τ} : (m.line name).offer? r.now = some x →
      (∀ other y, other ≠ name → (m.line other).offer? r.now = some y → x.Before y) →
      Allows m r .lease
        (.ok (some ⟨x.item, x.priority, ⟨name, r.fresh, r.now.addSaturating r.expiration⟩⟩))
        (m.put name
          { m.line name with lease := some (r.fresh, r.now.addSaturating r.expiration) })
  | nothing : (∀ name, (m.line name).offer? r.now = none) → Allows m r .lease (.ok none) m
  | renewed {lock : Lock} : m.refusal? lock r.now = none →
      Allows m r (.renew lock) (.ok ()) (m.put lock.lane
        { m.line lock.lane with lease := some (lock.token, r.now.addSaturating r.expiration) })
  | renewRefused {lock : Lock} {e : QueueError} : m.refusal? lock r.now = some e →
      Allows m r (.renew lock) (.error e) m
  | released {lock : Lock} : m.refusal? lock r.now = none →
      Allows m r (.release lock) (.ok ()) (m.put lock.lane { m.line lock.lane with lease := none })
  | releaseRefused {lock : Lock} {e : QueueError} : m.refusal? lock r.now = some e →
      Allows m r (.release lock) (.error e) m
  | acknowledged {lock : Lock} {x : Placed τ} {rest : List (Placed τ)} :
      m.refusal? lock r.now = none → (m.line lock.lane).items = x :: rest →
      Allows m r (.acknowledge lock) (.ok x.item) (m.put lock.lane { items := rest })
  | acknowledgeRefused {lock : Lock} {e : QueueError} : m.refusal? lock r.now = some e →
      Allows m r (.acknowledge lock) (.error e) m
  | deferred {lock : Lock} {priority : Int} {x : Placed τ} {rest : List (Placed τ)} :
      m.refusal? lock r.now = none → (m.line lock.lane).items = x :: rest →
      Allows m r (.defer lock priority) (.ok ()) (m.place lock.lane
        { items := rest ++ [⟨x.item, priority, m.placed⟩] })
  | deferRefused {lock : Lock} {priority : Int} {e : QueueError} :
      m.refusal? lock r.now = some e → Allows m r (.defer lock priority) (.error e) m
  /-- The leases that have run out, each once and in any order. -/
  | swept {leases : List Lease} : leases.Nodup →
      (∀ x : Lease, x ∈ leases ↔
        (m.line x.lane).lease = some (x.token, x.expiresAt) ∧ x.expiresAt ≤ r.now) →
      Allows m r .sweep (.ok leases)
        { m with line := fun name => (m.line name).sweep r.now }
  | isQueued {name key : String} {b : Bool} : (b = true ↔ m.Holds name key) →
      Allows m r (.isQueued name key) (.ok b) m

/-- The model goes from one state to another by calls with answers that it `Allows`. -/
inductive Run : Model τ → List (Exchange τ) → Model τ → Prop
  | nil (m : Model τ) : Run m [] m
  | cons {m m' m'' : Model τ} {r : Call.Reading} {c : QueueCall τ} {a : c.Answer}
      {rest : List (Exchange τ)} : Allows m r c a m' → Run m' rest m'' →
      Run m (⟨r, c, a⟩ :: rest) m''

/-- Answers that differ in the order of a sweep alone, as `Exchange.Agrees` has it, are allowed
together. -/
theorem Allows.agree {m m' : Model τ} {r : Call.Reading} {c : QueueCall τ} {a b : c.Answer}
    (h : Exchange.Agrees ⟨r, c, a⟩ ⟨r, c, b⟩) (hb : Allows m r c b m') : Allows m r c a m' := by
  cases h with
  | refl => exact hb
  | swept hperm =>
    cases hb with
    | swept hnodup hmem =>
      exact .swept (hperm.nodup_iff.2 hnodup) fun x => hperm.mem_iff.trans (hmem x)

/-- The model `Allows` one answer to a call, but for the order of a sweep, and is one model after
it. -/
theorem Allows.unique {m m' m'' : Model τ} {r : Call.Reading} {c : QueueCall τ} {a b : c.Answer}
    (ha : Allows m r c a m') (hb : Allows m r c b m'') :
    Exchange.Agrees ⟨r, c, a⟩ ⟨r, c, b⟩ ∧ m' = m'' := by
  cases ha with
  | enqueued hn =>
    cases hb with
    | enqueued => exact ⟨.refl _, rfl⟩
    | alreadyQueued hh => exact absurd hh hn
  | alreadyQueued hh =>
    cases hb with
    | enqueued hn => exact absurd hh hn
    | alreadyQueued => exact ⟨.refl _, rfl⟩
  | @leased name x hx hmin =>
    cases hb with
    | @leased name' y hy hmin' =>
      by_cases heq : name' = name
      · subst heq
        rw [hx] at hy
        obtain rfl := Option.some.inj hy
        exact ⟨.refl _, rfl⟩
      · have h1 := hmin name' y heq hy
        have h2 := hmin' name x (Ne.symm heq) hx
        simp only [Placed.Before] at h1 h2
        omega
    | nothing hnone => simp [hnone] at hx
  | nothing hnone =>
    cases hb with
    | leased hx => simp [hnone] at hx
    | nothing => exact ⟨.refl _, rfl⟩
  | renewed h =>
    cases hb with
    | renewed => exact ⟨.refl _, rfl⟩
    | renewRefused h' => simp [h] at h'
  | renewRefused h =>
    cases hb with
    | renewed h' => simp [h] at h'
    | renewRefused h' =>
      obtain rfl := Option.some.inj (h.symm.trans h')
      exact ⟨.refl _, rfl⟩
  | released h =>
    cases hb with
    | released => exact ⟨.refl _, rfl⟩
    | releaseRefused h' => simp [h] at h'
  | releaseRefused h =>
    cases hb with
    | released h' => simp [h] at h'
    | releaseRefused h' =>
      obtain rfl := Option.some.inj (h.symm.trans h')
      exact ⟨.refl _, rfl⟩
  | acknowledged h hx =>
    cases hb with
    | acknowledged _ hy =>
      obtain ⟨rfl, rfl⟩ := List.cons.inj (hx.symm.trans hy)
      exact ⟨.refl _, rfl⟩
    | acknowledgeRefused h' => simp [h] at h'
  | acknowledgeRefused h =>
    cases hb with
    | acknowledged h' => simp [h] at h'
    | acknowledgeRefused h' =>
      obtain rfl := Option.some.inj (h.symm.trans h')
      exact ⟨.refl _, rfl⟩
  | deferred h hx =>
    cases hb with
    | deferred _ hy =>
      obtain ⟨rfl, rfl⟩ := List.cons.inj (hx.symm.trans hy)
      exact ⟨.refl _, rfl⟩
    | deferRefused h' => simp [h] at h'
  | deferRefused h =>
    cases hb with
    | deferred h' => simp [h] at h'
    | deferRefused h' =>
      obtain rfl := Option.some.inj (h.symm.trans h')
      exact ⟨.refl _, rfl⟩
  | swept hx hmem =>
    cases hb with
    | swept hy hmem' =>
      have hperm := (List.perm_ext_iff_of_nodup hx hy).2 fun x => (hmem x).trans (hmem' x).symm
      exact ⟨.swept hperm, rfl⟩
  | isQueued hb' =>
    cases hb with
    | isQueued hb'' =>
      obtain rfl := Bool.eq_iff_iff.2 (hb'.trans hb''.symm)
      exact ⟨.refl _, rfl⟩

/-- Two runs over the same calls agree in their answers, by `Exchange.Agrees`. -/
theorem Run.unique {m m' m'' : Model τ} {xs ys : List (Exchange τ)} (hx : Run m xs m')
    (hy : Run m ys m'') (h : xs.map Exchange.request = ys.map Exchange.request) :
    List.Forall₂ Exchange.Agrees xs ys := by
  induction hx generalizing ys with
  | nil =>
    rw [List.map_eq_nil_iff.1 h.symm]
    exact .nil
  | cons ha _ ih =>
    cases hy with
    | nil => cases h
    | cons hb hrest =>
      simp only [List.map_cons, List.cons.injEq, Exchange.request, Prod.mk.injEq] at h
      obtain ⟨⟨rfl, rfl⟩, h⟩ := h
      obtain ⟨hab, rfl⟩ := ha.unique hb
      exact .cons hab (ih hrest h)

/-- A run stays one when the answers of its sweeps are put in other orders. -/
theorem Run.agree {m m' : Model τ} {xs ys : List (Exchange τ)}
    (h : List.Forall₂ Exchange.Agrees xs ys) (hy : Run m ys m') : Run m xs m' := by
  induction h generalizing m with
  | nil => exact hy
  | @cons x y xs ys hxy _ ih =>
    obtain ⟨r, c, a⟩ := x
    cases hy with
    | cons hb hrest =>
      have hreq := hxy.request_eq
      simp only [Exchange.request, Prod.mk.injEq] at hreq
      obtain ⟨rfl, rfl⟩ := hreq
      exact .cons (Allows.agree hxy hb) (ih hrest)

end

end EventRelay.Queue.Reference
