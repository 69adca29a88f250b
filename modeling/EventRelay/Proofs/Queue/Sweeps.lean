import EventRelay.Proofs.Queue.Exclusion
import Mathlib.Algebra.Ring.Nat

/-!
# Sweeping goes unseen

A lease that has run out frees its lane and opens it to nobody, whether it stands on the lane still
or was swept. So two queues that were asked the same, sweeps apart, answer the same, and hold as
much: by the last reading of the clock their models differ in leases that have run out, and in
nothing else (`Alike`). This needs a clock that does not go back. What a sweep answers needs none:
the leases that were granted and neither ended nor replaced nor swept, and that have run out by now.
-/

namespace EventRelay

/-- The call is `QueueCall.sweep`. -/
def QueueCall.isSweep {τ : Type} : QueueCall τ → Bool
  | .sweep => true
  | _ => false

theorem QueueCall.eq_sweep {τ : Type} {c : QueueCall τ} (h : c.isSweep = true) : c = .sweep := by
  cases c <;> first | rfl | cases h

/-- The exchange neither ended nor swept the lease of the lock, and granted its lane to no one. -/
structure Exchange.Leaves {τ : Type} (x : Exchange τ) (lock : Lock) : Prop where
  ended : x.ended? ≠ some lock
  granted : ∀ l, x.granted? = some l → l.lane ≠ lock.lane
  swept : ∀ lease ∈ x.swept, lease.lock ≠ lock

namespace Queue

open Reference Sample

variable {τ : Type}

/-- The calls other than `QueueCall.sweep`. -/
def besidesSweeps (calls : List (Call.Reading × QueueCall τ)) : List (Call.Reading × QueueCall τ) :=
  calls.filter fun call => !call.2.isSweep

/-- The exchanges whose call is not `QueueCall.sweep`. -/
def saidBesidesSweeps (xs : List (Exchange τ)) : List (Exchange τ) :=
  xs.filter fun x => !x.call.isSweep

theorem map_request_saidBesidesSweeps (xs : List (Exchange τ)) :
    (saidBesidesSweeps xs).map Exchange.request = besidesSweeps (xs.map Exchange.request) := by
  rw [besidesSweeps, List.filter_map]
  rfl

/-- Exchanges that agree (`Exchange.Agrees`) differ in sweeps alone, so where there are none they
are the same. -/
theorem eq_of_agree {xs ys : List (Exchange τ)} (h : List.Forall₂ Exchange.Agrees xs ys)
    (hxs : ∀ x ∈ xs, x.call.isSweep = false) : xs = ys := by
  induction h with
  | nil => rfl
  | cons hxy _ ih =>
    obtain ⟨hx, hxs⟩ := List.forall_mem_cons.1 hxs
    rw [ih hxs]
    cases hxy with
    | refl => rfl
    | swept => cases hx

/-- The calls were made at readings of a clock that does not go back. -/
def Forward (calls : List (Call.Reading × QueueCall τ)) : Prop :=
  calls.Pairwise fun c d => c.1.now ≤ d.1.now

/-! ## Leases that have run out -/

namespace Reference

variable {m m' n : Model τ} {l l' : Line τ} {now later : Instant} {name : String}

namespace Line

/-- `Line.sweep` goes unnoticed by a later one. -/
theorem sweep_sweep (l : Line τ) (h : now ≤ later) : (l.sweep now).sweep later = l.sweep later := by
  simp only [sweep, mk.injEq, true_and]
  rcases l.lease with _ | ⟨token, expiry⟩
  · rfl
  · by_cases hexp : expiry ≤ now
    · simp [Option.filter_some, hexp, Instant.le_trans hexp h]
    · simp [Option.filter_some, hexp]

/-- `Line.sweep` takes off only what counts for nothing at that time. -/
theorem token?_sweep (l : Line τ) (now : Instant) : (l.sweep now).token? now = l.token? now := by
  unfold token? sweep
  rcases l.lease with _ | ⟨token, expiry⟩
  · rfl
  · by_cases hexp : expiry ≤ now <;> simp [Option.filter_some, hexp]

theorem token?_eq (h : l.sweep now = l'.sweep now) : l.token? now = l'.token? now := by
  rw [← token?_sweep, h, token?_sweep]

theorem items_eq (h : l.sweep now = l'.sweep now) : l.items = l'.items :=
  congrArg (·.items) h

theorem sweep_setItems (h : l.sweep now = l'.sweep now) (items : List (Placed τ)) :
    ({ l with items := items } : Line τ).sweep now =
      ({ l' with items := items } : Line τ).sweep now :=
  congrArg (fun x : Line τ => { x with items := items }) h

theorem sweep_setLease (h : l.sweep now = l'.sweep now) (lease : Option (Uuid × Instant)) :
    ({ l with lease := lease } : Line τ).sweep now =
      ({ l' with lease := lease } : Line τ).sweep now := by
  rw [sweep, sweep, items_eq h]

theorem offer?_eq (h : l.sweep now = l'.sweep now) : l.offer? now = l'.offer? now := by
  rw [offer?, offer?, token?_eq h, items_eq h]

end Line

/-- By now the models differ in leases that have run out, and in nothing else. -/
structure Alike (now : Instant) (m n : Model τ) : Prop where
  placed : m.placed = n.placed
  line : ∀ name, (m.line name).sweep now = (n.line name).sweep now

namespace Alike

theorem refl (now : Instant) (m : Model τ) : Alike now m m := ⟨rfl, fun _ => rfl⟩

theorem mono (h : Alike now m n) (hle : now ≤ later) : Alike later m n where
  placed := h.placed
  line name := by rw [← Line.sweep_sweep _ hle, h.line, Line.sweep_sweep _ hle]

/-- A sweep takes off nothing that makes a difference, so models stay `Alike`. -/
theorem swept (h : Alike now m n) :
    Alike now { m with line := fun name => (m.line name).sweep now } n where
  placed := h.placed
  line name := by rw [Line.sweep_sweep _ (Instant.le_refl _), h.line]

/-- Models that are `Alike` refuse the same locks for the same reasons. -/
theorem refusal?_eq (h : Alike now m n) (lock : Lock) :
    m.refusal? lock now = n.refusal? lock now := by
  rw [Model.refusal?, Model.refusal?, Line.token?_eq (h.line _), Line.items_eq (h.line _)]

/-- Models stay `Alike` when both put a line. -/
theorem put (h : Alike now m n) (hl : l.sweep now = l'.sweep now) :
    Alike now (m.put name l) (n.put name l') where
  placed := h.placed
  line other := by
    rw [Model.line_put, Model.line_put]
    split
    · exact hl
    · exact h.line other

theorem place (h : Alike now m n) (hl : l.sweep now = l'.sweep now) :
    Alike now (m.place name l) (n.place name l') where
  placed := congrArg (· + 1) h.placed
  line := (h.put hl).line

variable [Keyed τ] {r : Call.Reading} {c : QueueCall τ} {a : c.Answer}

theorem holds_iff (h : Alike now m n) (name key : String) :
    m.Holds name key ↔ n.Holds name key := by
  rw [Model.Holds, Model.Holds, Line.items_eq (h.line name)]

/-- Whatever else is asked, models that are `Alike` answer the same. -/
theorem allows (h : Alike r.now m n) (ha : Allows m r c a m') (hc : c.isSweep = false) :
    ∃ n', Allows n r c a n' ∧ Alike r.now m' n' := by
  have hitems := fun name => Line.items_eq (h.line name)
  have hoffer := fun name => Line.offer?_eq (h.line name)
  cases ha with
  | @enqueued name item priority hn =>
    refine ⟨_, .enqueued (mt (h.holds_iff _ _).2 hn), h.place ?_⟩
    rw [hitems, h.placed]
    exact Line.sweep_setItems (h.line name) _
  | alreadyQueued hh => exact ⟨n, .alreadyQueued ((h.holds_iff _ _).1 hh), h⟩
  | @leased name x hx hmin =>
    refine ⟨_, .leased ((hoffer name).symm.trans hx) fun other y hne hy => ?_,
      h.put (Line.sweep_setLease (h.line name) _)⟩
    exact hmin other y hne ((hoffer other).trans hy)
  | nothing hnone => exact ⟨n, .nothing fun name => (hoffer name).symm.trans (hnone name), h⟩
  | renewed hr =>
    exact ⟨_, .renewed ((h.refusal?_eq _).symm.trans hr), h.put (Line.sweep_setLease (h.line _) _)⟩
  | renewRefused hr => exact ⟨n, .renewRefused ((h.refusal?_eq _).symm.trans hr), h⟩
  | released hr =>
    exact ⟨_, .released ((h.refusal?_eq _).symm.trans hr), h.put (Line.sweep_setLease (h.line _) _)⟩
  | releaseRefused hr => exact ⟨n, .releaseRefused ((h.refusal?_eq _).symm.trans hr), h⟩
  | acknowledged hr hx =>
    exact ⟨_, .acknowledged ((h.refusal?_eq _).symm.trans hr) ((hitems _).symm.trans hx), h.put rfl⟩
  | acknowledgeRefused hr => exact ⟨n, .acknowledgeRefused ((h.refusal?_eq _).symm.trans hr), h⟩
  | deferred hr hx =>
    refine ⟨_, .deferred ((h.refusal?_eq _).symm.trans hr) ((hitems _).symm.trans hx), h.place ?_⟩
    rw [h.placed]
  | deferRefused hr => exact ⟨n, .deferRefused ((h.refusal?_eq _).symm.trans hr), h⟩
  | swept => cases hc
  | isQueued hb => exact ⟨n, .isQueued (hb.trans (h.holds_iff _ _)), h⟩

end Alike

variable [Keyed τ] {xs ys : List (Exchange τ)}

/-- The sweeps of a run can be left out: the model stays `Alike`. By induction on the run. -/
theorem Run.besidesSweeps (hs : Run m xs m') (h : Alike now m n)
    (hclock : Forward (xs.map Exchange.request)) (hnow : ∀ x ∈ xs, now ≤ x.reading.now) :
    ∃ n' later, Run n (saidBesidesSweeps xs) n' ∧ Alike later m' n' := by
  induction hs generalizing n now with
  | nil => exact ⟨n, now, .nil n, h⟩
  | @cons m m₁ m₂ r c a rest hstep _ ih =>
    obtain ⟨hfirst, hrest⟩ := List.pairwise_cons.1 hclock
    have hnext : ∀ x ∈ rest, r.now ≤ x.reading.now := fun x hx =>
      hfirst _ (List.mem_map_of_mem hx)
    have h' := h.mono (hnow _ List.mem_cons_self)
    cases hc : c.isSweep with
    | true =>
      -- the other run stands still while this one sweeps
      have hskip : saidBesidesSweeps (⟨r, c, a⟩ :: rest) = saidBesidesSweeps rest := by
        simp [saidBesidesSweeps, hc]
      rw [hskip]
      obtain rfl := QueueCall.eq_sweep hc
      cases hstep with
      | swept => exact ih h'.swept hrest hnext
    | false =>
      have hkeep : saidBesidesSweeps (⟨r, c, a⟩ :: rest) = ⟨r, c, a⟩ :: saidBesidesSweeps rest := by
        simp [saidBesidesSweeps, hc]
      rw [hkeep]
      obtain ⟨n₁, hallows, h₁⟩ := h'.allows hstep hc
      obtain ⟨n', later, hrun, h''⟩ := ih h₁ hrest hnext
      exact ⟨n', later, .cons hallows hrun, h''⟩

/-- A `Run` with given answers comes to one model. -/
theorem Run.end_unique {m'' : Model τ} (hx : Run m xs m') (hy : Run m xs m'') : m' = m'' := by
  induction hx with
  | nil =>
    cases hy
    rfl
  | cons ha _ ih =>
    cases hy with
    | cons hb hrest =>
      obtain ⟨-, rfl⟩ := ha.unique hb
      exact ih hrest

end Reference

/-! ## Two courses that differ in sweeps -/

variable [Keyed τ] {calls calls' : List (Call.Reading × QueueCall τ)}

/-- Two queues tell as much of what they hold: `length`, `isEmpty`, `isQueued`. -/
structure LooksLike (q q' : Queue τ) : Prop where
  length : q.length = q'.length
  isEmpty : q.isEmpty = q'.isEmpty
  isQueued : ∀ lane key, q.isQueued lane key = q'.isQueued lane key

omit [Keyed τ] in
theorem length_eq_sum (q : Queue τ) :
    q.length = ((q.lanes.map fun (name, l) => (name, l.entries.length)).map (·.2)).sum := by
  rw [length, entries, List.length_flatMap, List.map_map]
  rfl

/-- Lanes without an entry are not kept, so the numbers of entries tell the length. -/
theorem WF.length_congr {q q' : Queue τ} (h : q.WF) (h' : q'.WF)
    (hlength : ∀ name, (q.laneAt name).entries.length = (q'.laneAt name).entries.length) :
    q.length = q'.length := by
  have hfind : ∀ {p : Queue τ}, p.WF → ∀ name,
      ByName.find? name (p.lanes.map fun (name, l) => (name, l.entries.length)) =
        if (p.laneAt name).entries.length = 0 then none
        else some (p.laneAt name).entries.length := by
    intro p hp name
    rw [ByName.find?_map fun l : Lane τ => l.entries.length]
    change (p.lane? name).map _ = _
    rw [laneAt]
    cases hl : p.lane? name with
    | none => rfl
    | some l =>
      have hne : l.entries.length ≠ 0 := fun hnil =>
        hp.occupied name l hl (List.length_eq_zero_iff.1 hnil)
      simp [hne]
  have hlanes := ByName.Ascending.ext (h.ascending.map fun l => l.entries.length)
    (h'.ascending.map fun l => l.entries.length) fun name => by rw [hfind h, hfind h', hlength]
  rw [length_eq_sum, length_eq_sum, hlanes]

/-- Two courses of calls in which sweeps alone differ, with the same answers to all other calls. -/
structure Unseen (calls calls' : List (Call.Reading × QueueCall τ)) : Prop where
  /-- Whatever else was asked was answered the same. -/
  answers : saidBesidesSweeps ((Queue.empty : Queue τ).transcript calls) =
    saidBesidesSweeps ((Queue.empty : Queue τ).transcript calls')
  /-- At all points that are the same but for sweeps the queues look alike. -/
  looks : ∀ before before', before <+: calls → before' <+: calls' →
    besidesSweeps before = besidesSweeps before' →
      LooksLike ((Queue.empty : Queue τ).after before) (Queue.empty.after before')

/-- The model of a course, and one that saw no sweep and is `Alike`. -/
theorem reference_besidesSweeps (hclock : Forward calls) :
    ∃ number m n later, Simulates number ((Queue.empty : Queue τ).after calls) m ∧
      Run {} (saidBesidesSweeps ((Queue.empty : Queue τ).transcript calls)) n ∧
        Alike later m n := by
  obtain ⟨number, m, hrun, hsim⟩ := Simulates.fresh.run calls
  obtain ⟨first, hfirst⟩ : ∃ now, ∀ call ∈ calls, now ≤ call.1.now := by
    cases calls with
    | nil => exact ⟨⟨0, 0⟩, nofun⟩
    | cons call rest =>
      refine ⟨call.1.now, List.forall_mem_cons.2 ⟨Instant.le_refl _, ?_⟩⟩
      exact (List.pairwise_cons.1 hclock).1
  obtain ⟨n, later, hrun', halike⟩ := hrun.besidesSweeps (.refl first {})
    (by rwa [transcript_map_request]) fun x hx => by
      have hmem := List.mem_map_of_mem (f := Exchange.request) hx
      rw [transcript_map_request] at hmem
      exact hfirst _ hmem
  exact ⟨number, m, n, later, hsim, hrun', halike⟩

/-- Queues that stand for models with the same items are such as `LooksLike` has them. -/
theorem Simulates.looksLike {number number' : Nat → Nat} {q q' : Queue τ} {m m' : Model τ}
    (h : Simulates number q m) (h' : Simulates number' q' m')
    (hitems : ∀ name, (m.line name).items = (m'.line name).items) : LooksLike q q' := by
  have hlength : q.length = q'.length := by
    refine h.wf.length_congr h'.wf fun name => ?_
    rw [h.entries_laneAt, h'.entries_laneAt, List.length_map, List.length_map, hitems]
  refine ⟨hlength, ?_, fun lane key => ?_⟩
  · rw [isEmpty, isEmpty, hlength]
  · rw [isQueued_eq, isQueued_eq, Bool.eq_iff_iff, h.hasKey_iff, h'.hasKey_iff, Model.Holds,
      Model.Holds, hitems]

/-- Sweeps alone tell courses apart in which sweeps alone differ: each is `Unseen` beside one
without sweeps. -/
theorem unseen_of_besidesSweeps_eq (h : Forward calls) (h' : Forward calls')
    (hcalls : besidesSweeps calls = besidesSweeps calls') : Unseen calls calls' := by
  have hsame : ∀ {before before' : List (Call.Reading × QueueCall τ)}, Forward before →
      Forward before' → besidesSweeps before = besidesSweeps before' →
      saidBesidesSweeps ((Queue.empty : Queue τ).transcript before) =
          saidBesidesSweeps ((Queue.empty : Queue τ).transcript before') ∧
        LooksLike ((Queue.empty : Queue τ).after before) (Queue.empty.after before') := by
    intro before before' hb hb' heq
    obtain ⟨number, m, n, later, hsim, hrun, halike⟩ := reference_besidesSweeps hb
    obtain ⟨number', m', n', later', hsim', hrun', halike'⟩ := reference_besidesSweeps hb'
    have hagree := hrun.unique hrun' (by
      rw [map_request_saidBesidesSweeps, map_request_saidBesidesSweeps, transcript_map_request,
        transcript_map_request, heq])
    have hsaid := eq_of_agree hagree fun x hx => by simpa using (List.mem_filter.1 hx).2
    rw [hsaid] at hrun
    obtain rfl := hrun.end_unique hrun'
    refine ⟨hsaid, hsim.looksLike hsim' fun name => ?_⟩
    rw [Line.items_eq (halike.line name), Line.items_eq (halike'.line name)]
  refine ⟨(hsame h h' hcalls).1, fun before before' hb hb' heq => ?_⟩
  exact (hsame (h.sublist hb.sublist) (h'.sublist hb'.sublist) heq).2

/-! ## What a sweep answers -/

/-- A lease of the lock was granted, it ends at `expiry` as its holder last renewed it, and since
then each exchange `Leaves` it on its lane. -/
def Outstanding (h : List (Exchange τ)) (lock : Lock) (expiry : Instant) : Prop :=
  ∃ earlier x since leased, h = earlier ++ x :: since ∧ x.handed? = some leased ∧
    leased.lease.lock = lock ∧ lock.endAfter leased.lease.expiresAt since = expiry ∧
    ∀ y ∈ since, y.Leaves lock

omit [Keyed τ] in
theorem endAfter_append (lock : Lock) (expiry : Instant) (xs ys : List (Exchange τ)) :
    lock.endAfter expiry (xs ++ ys) = lock.endAfter (lock.endAfter expiry xs) ys := by
  induction xs generalizing expiry with
  | nil => rfl
  | cons x rest ih => exact ih _

section

variable {m m' : Model τ} {r : Call.Reading} {c : QueueCall τ} {a : c.Answer} {lock : Lock}
  {expiry : Instant} {h xs : List (Exchange τ)}

/-- A lease that an exchange `Leaves` is on its lane until `Lock.endAfter`. -/
theorem Reference.Allows.lease_left (ha : Allows m r c a m')
    (hl : (m.line lock.lane).lease = some (lock.token, expiry))
    (hx : Exchange.Leaves ⟨r, c, a⟩ lock) :
    (m'.line lock.lane).lease = some (lock.token, lock.endAfter expiry [⟨r, c, a⟩]) := by
  rcases ha.lease_fate hl with hkept | hended | ⟨-, ⟨l, hgrant, hlane⟩ | ⟨lease, hswept, hlock⟩⟩
  · exact hkept
  · exact absurd hended hx.ended
  · exact absurd hlane (hx.granted l hgrant)
  · exact absurd hlock (hx.swept lease hswept)

/-- A lease that every exchange of a run `Leaves` is on its lane until `Lock.endAfter`. -/
theorem Reference.Run.lease_left (hs : Run m xs m')
    (hl : (m.line lock.lane).lease = some (lock.token, expiry)) (hxs : ∀ x ∈ xs, x.Leaves lock) :
    (m'.line lock.lane).lease = some (lock.token, lock.endAfter expiry xs) := by
  induction hs generalizing expiry with
  | nil => exact hl
  | cons hstep _ ih =>
    exact ih (hstep.lease_left hl (hxs _ List.mem_cons_self))
      fun x hx => hxs x (List.mem_cons_of_mem _ hx)

/-- What `Kept` has `Leaves` it. -/
theorem Reference.Kept.leaves (hkept : Kept m m' ⟨r, c, a⟩ lock.lane lock.token)
    (ha : Allows m r c a m') (hl : (m'.line lock.lane).lease = some (lock.token, expiry)) :
    Exchange.Leaves ⟨r, c, a⟩ lock where
  ended hended := hkept.ended lock hended rfl
  granted := hkept.granted
  swept lease hswept := by
    rintro rfl
    obtain ⟨-, hnone⟩ := ha.lease_of_mem_swept hswept
    cases hl.symm.trans hnone

omit [Keyed τ] in
/-- What is `Outstanding` stays so over an exchange that leaves it. -/
theorem Outstanding.snoc (hout : Outstanding h lock expiry) {x : Exchange τ}
    (hx : x.Leaves lock) : Outstanding (h ++ [x]) lock (lock.endAfter expiry [x]) := by
  obtain ⟨earlier, y, since, leased, rfl, hy, hlock, hend, hsince⟩ := hout
  refine ⟨earlier, y, since ++ [x], leased, by simp, hy, hlock, ?_, fun z hz => ?_⟩
  · rw [endAfter_append, hend]
  · rcases List.mem_append.1 hz with hz | hz
    · exact hsince z hz
    · exact List.mem_singleton.1 hz ▸ hx

/-- Every lease on a lane is `Outstanding`. -/
def AllOutstanding (h : List (Exchange τ)) (m : Model τ) : Prop :=
  ∀ lock expiry, (m.line lock.lane).lease = some (lock.token, expiry) → Outstanding h lock expiry

/-- One exchange: a lease is granted and so `Outstanding`, or was left. -/
theorem AllOutstanding.step (hout : AllOutstanding h m) (ha : Allows m r c a m') :
    AllOutstanding (h ++ [⟨r, c, a⟩]) m' := by
  intro lock expiry hl
  rcases ha.lease_cases hl with ⟨x, leased, -, hh, hlock, -, -⟩ | hkept
  · obtain rfl : leased.lease.lock = lock := hlock
    have hgranted := ha.lease_of_handed? (x := ⟨r, c, a⟩) hh
    refine ⟨h, _, [], leased, rfl, hh, rfl, ?_, nofun⟩
    exact (Prod.mk.inj (Option.some.inj (hgranted.symm.trans hl))).2
  · obtain ⟨expiry', hl'⟩ := hkept.lease
    have hleaves := hkept.leaves ha hl
    have hend := ha.lease_left hl' hleaves
    obtain ⟨-, rfl⟩ := Prod.mk.inj (Option.some.inj (hend.symm.trans hl))
    exact (hout lock expiry' hl').snoc hleaves

theorem AllOutstanding.run (hout : AllOutstanding h m) (hs : Run m xs m') :
    AllOutstanding (h ++ xs) m' := by
  induction hs generalizing h with
  | nil => simpa using hout
  | @cons _ _ _ r c a rest hstep _ ih =>
    have hsplit : h ++ ⟨r, c, a⟩ :: rest = h ++ [⟨r, c, a⟩] ++ rest := by simp
    rw [hsplit]
    exact ih (hout.step hstep)

/-- The leases on the lanes are those that are `Outstanding`. -/
theorem Reference.Run.lease_iff (hs : Run {} h m) :
    (m.line lock.lane).lease = some (lock.token, expiry) ↔ Outstanding h lock expiry := by
  constructor
  · intro hl
    have hout : AllOutstanding ([] ++ h) m := AllOutstanding.run (fun _ _ hl => by cases hl) hs
    exact hout lock expiry hl
  · rintro ⟨earlier, x, since, leased, rfl, hx, rfl, rfl, hsince⟩
    obtain ⟨m₀, -, hrest⟩ := hs.append
    cases hrest with
    | @cons _ m₁ _ r c a _ hstep hrun =>
      exact hrun.lease_left (hstep.lease_of_handed? (x := ⟨r, c, a⟩) hx) hsince

/-! ## Leases that were swept -/

/-- The leases that were `Exchange.swept`, in their order. -/
def sweptLeases (h : List (Exchange τ)) : List Lease := h.flatMap Exchange.swept

omit [Keyed τ] in
theorem mem_sweptLeases_snoc {x : Exchange τ} {lease : Lease} :
    lease ∈ sweptLeases (h ++ [x]) ↔ lease ∈ sweptLeases h ∨ lease ∈ x.swept := by
  simp [sweptLeases]

omit [Keyed τ] in
theorem Accounted.granted (hacc : Accounted h m) {name : String} {token : Uuid}
    (hl : (m.line name).lease = some (token, expiry)) :
    ∃ x ∈ h, x.granted? = some ⟨name, token⟩ := by
  obtain ⟨_, -, hheld⟩ := hacc.held _ _ _ hl
  exact hheld.granted

omit [Keyed τ] in
/-- Where leases are `Accounted` and no token is granted twice, a token is that of one lane. -/
theorem Accounted.lane_eq (hacc : Accounted h m) (hn : (grantedTokens h).Nodup)
    {name name' : String} {token : Uuid} {expiry' : Instant}
    (hl : (m.line name).lease = some (token, expiry))
    (hl' : (m.line name').lease = some (token, expiry')) : name = name' := by
  obtain ⟨x, hx, hg⟩ := hacc.granted hl
  obtain ⟨x', hx', hg'⟩ := hacc.granted hl'
  exact congrArg Lock.lane (lock_unique hn hx hx' hg hg' rfl)

theorem Accounted.nodup_swept (hacc : Accounted h m) (hn : (grantedTokens h).Nodup)
    (ha : Allows m r c a m') : ((Exchange.swept ⟨r, c, a⟩).map (·.token)).Nodup := by
  cases ha with
  | swept hnodup hmem =>
    -- two leases of one token are on one lane, which has one lease
    refine List.Nodup.map_on (fun x hx y hy htoken => ?_) hnodup
    have hx' := ((hmem x).1 hx).1
    have hy' := ((hmem y).1 hy).1
    have hlane := hacc.lane_eq hn hx' (htoken ▸ hy')
    rw [hlane, hy'] at hx'
    obtain ⟨-, hexpiry⟩ := Prod.mk.inj (Option.some.inj hx')
    cases x; cases y
    simp_all
  | _ => exact List.nodup_nil

/-- What was swept was granted before and is on no lane any more, and no token was swept twice. -/
structure Gone (h : List (Exchange τ)) (m : Model τ) : Prop where
  granted : ∀ lease ∈ sweptLeases h, ∃ x ∈ h, x.granted? = some lease.lock
  off : ∀ lease ∈ sweptLeases h, ∀ name expiry, (m.line name).lease ≠ some (lease.token, expiry)
  nodup : ((sweptLeases h).map (·.token)).Nodup

namespace Gone

omit [Keyed τ] in
theorem fresh : Gone ([] : List (Exchange τ)) {} := ⟨nofun, nofun, List.nodup_nil⟩

/-- `Gone` after one more exchange: what it sweeps was on a lane, and so was not swept before. -/
theorem step (hg : Gone h m) (hacc : Accounted h m) (ha : Allows m r c a m')
    (hn : (grantedTokens (h ++ [⟨r, c, a⟩])).Nodup) : Gone (h ++ [⟨r, c, a⟩]) m' := by
  have hn' : (grantedTokens h).Nodup := by
    rw [grantedTokens_append] at hn
    exact (List.nodup_append.1 hn).1
  have hgranted : ∀ lease ∈ sweptLeases (h ++ [⟨r, c, a⟩]), ∃ x ∈ h,
      x.granted? = some lease.lock := by
    intro lease hlease
    rcases mem_sweptLeases_snoc.1 hlease with hold | hnew
    · exact hg.granted lease hold
    · exact hacc.granted (ha.lease_of_mem_swept hnew).1
  refine ⟨fun lease hlease => ?_, fun lease hlease name expiry hl => ?_, ?_⟩
  · obtain ⟨x, hx, hgrant⟩ := hgranted lease hlease
    exact ⟨x, List.mem_append_left _ hx, hgrant⟩
  · rcases ha.lease_cases hl with ⟨_, leased, -, hh, hlock, -, -⟩ | hkept
    · -- a token that was granted now was not granted before
      obtain ⟨x, hx, hgrant⟩ := hgranted lease hlease
      have hnow : Exchange.granted? ⟨r, c, a⟩ = some ⟨name, lease.token⟩ := by
        simp [Exchange.granted?, hh, hlock]
      exact token_ne_of_append hn hx (List.mem_singleton_self _) hgrant hnow rfl
    · obtain ⟨expiry', hl'⟩ := hkept.lease
      rcases mem_sweptLeases_snoc.1 hlease with hold | hnew
      · exact hg.off lease hold name expiry' hl'
      · obtain ⟨hwas, hnone⟩ := ha.lease_of_mem_swept hnew
        rw [hacc.lane_eq hn' hl' hwas, hnone] at hl
        cases hl
  · rw [sweptLeases, List.flatMap_append, List.map_append, List.nodup_append]
    refine ⟨hg.nodup, by simpa using hacc.nodup_swept hn' ha, fun token hold token' hnew => ?_⟩
    rintro rfl
    obtain ⟨lease, hlease, rfl⟩ := List.mem_map.1 hold
    obtain ⟨lease', hlease', htoken⟩ := List.mem_map.1 hnew
    have hwas := (ha.lease_of_mem_swept (by simpa using hlease')).1
    exact hg.off lease hlease _ _ (htoken ▸ hwas)

theorem run (hg : Gone h m) (hacc : Accounted h m) (hs : Run m xs m')
    (hn : (grantedTokens (h ++ xs)).Nodup) : Gone (h ++ xs) m' := by
  induction hs generalizing h with
  | nil => simpa using hg
  | @cons _ _ _ r c a rest hstep _ ih =>
    have hsplit : h ++ ⟨r, c, a⟩ :: rest = h ++ [⟨r, c, a⟩] ++ rest := by simp
    rw [hsplit] at hn ⊢
    have hn' : (grantedTokens (h ++ [⟨r, c, a⟩])).Nodup := by
      rw [grantedTokens_append] at hn
      exact (List.nodup_append.1 hn).1
    exact ih (hg.step hacc hstep hn') (hacc.step hstep hn') hn

end Gone

/-- A lock whose token was among `sweptLeases` is accepted no more. -/
theorem Gone.token_ne (hg : Gone h m) (ha : Allows m r c a m')
    (haccepted : Exchange.accepted? ⟨r, c, a⟩ = some lock) {lease : Lease}
    (hlease : lease ∈ sweptLeases h) : lock.token ≠ lease.token := by
  intro htoken
  obtain ⟨expiry, hl⟩ := ha.lease_of_accepted? haccepted
  exact hg.off lease hlease lock.lane expiry (htoken ▸ hl)

end

/-! ## The queue -/

/-- What the `sweep` calls among the exchanges answer. -/
structure Reports (xs : List (Exchange τ)) : Prop where
  /-- A sweep answers the outstanding leases that have run out by its reading, each once. -/
  exact : ∀ before r a later, xs = before ++ ⟨r, .sweep, a⟩ :: later →
    ∃ leases, a = .ok leases ∧ leases.Nodup ∧
      ∀ lease, lease ∈ leases ↔
        Outstanding before lease.lock lease.expiresAt ∧ lease.expiresAt ≤ r.now
  /-- No token is answered twice. -/
  once : ((sweptLeases xs).map (·.token)).Nodup
  /-- A token that was answered is accepted no more, on whatever lane. -/
  final : ∀ before y later, xs = before ++ y :: later → ∀ lease ∈ sweptLeases before,
    ∀ lock, y.accepted? = some lock → lock.token ≠ lease.token

/-- The sweeps of a queue report as `Reports` says: `Reference.Run.lease_iff` for what is answered,
`Gone` for how often. -/
theorem reports_transcript (hn : (grantedTokens ((Queue.empty : Queue τ).transcript calls)).Nodup) :
    Reports ((Queue.empty : Queue τ).transcript calls) := by
  refine ⟨fun before r a later hcut => ?_, ?_, fun before y later hcut lease hlease lock hy => ?_⟩
  · obtain ⟨_, m, m', -, hrun, -, -, hallows, -⟩ := reference_of_transcript hcut
    cases hallows with
    | @swept leases hnodup hmem =>
      refine ⟨leases, rfl, hnodup, fun lease => ?_⟩
      rw [hmem, ← hrun.lease_iff]
      rfl
  · obtain ⟨_, m, hrun, -⟩ := Simulates.fresh.run calls
    exact (Gone.fresh.run .fresh hrun hn).nodup
  · obtain ⟨r, c, a⟩ := y
    obtain ⟨_, m, m', -, hrun, -, -, hallows, -⟩ := reference_of_transcript hcut
    have hn' : (grantedTokens before).Nodup := by
      rw [hcut, grantedTokens_append] at hn
      exact (List.nodup_append.1 hn).1
    exact (Gone.fresh.run .fresh hrun hn').token_ne hallows hy hlease

/-- **Sweeping goes unseen.** Under a clock that does not go back, sweeps can be put in or left out
anywhere and nothing else that is asked is answered otherwise. While no token is granted twice, a
sweep answers just the leases that were granted, neither ended nor replaced nor swept since, and
have run out; each token is answered once at most, and opens nothing from then on. -/
theorem sweeps_unseen (calls : List (Call.Reading × QueueCall τ)) (hclock : Forward calls)
    (hn : (grantedTokens ((Queue.empty : Queue τ).transcript calls)).Nodup) :
    (∀ calls', Forward calls' → besidesSweeps calls = besidesSweeps calls' →
      Unseen calls calls') ∧
    Reports ((Queue.empty : Queue τ).transcript calls) :=
  ⟨fun _ hclock' heq => unseen_of_besidesSweeps_eq hclock hclock' heq, reports_transcript hn⟩

/-- The lease of the first second has run out when it is swept; its lock is refused after that, as
it is where nothing is swept. -/
theorem sweeps_unseen_of_expired :
    Unseen (τ := String)
      [(readingAt 0, .enqueue "a" "job" 3), (readingAt 1, .lease), (readingAt 20, .sweep),
        (readingAt 21, .acknowledge ⟨"a", .ofNat 1⟩), (readingAt 22, .lease)]
      [(readingAt 0, .enqueue "a" "job" 3), (readingAt 1, .lease),
        (readingAt 21, .acknowledge ⟨"a", .ofNat 1⟩), (readingAt 22, .lease)] ∧
    Reports (τ := String)
      [⟨readingAt 0, .enqueue "a" "job" 3, .ok ()⟩,
        ⟨readingAt 1, .lease, .ok (some ⟨"job", 3, ⟨"a", .ofNat 1, ⟨11, 0⟩⟩⟩)⟩,
        ⟨readingAt 20, .sweep, .ok [⟨"a", .ofNat 1, ⟨11, 0⟩⟩]⟩,
        ⟨readingAt 21, .acknowledge ⟨"a", .ofNat 1⟩, .error (.itemNotLocked "a")⟩,
        ⟨readingAt 22, .lease, .ok (some ⟨"job", 3, ⟨"a", .ofNat 22, ⟨32, 0⟩⟩⟩)⟩] := by
  have hsweeps := sweeps_unseen (τ := String)
    [(readingAt 0, .enqueue "a" "job" 3), (readingAt 1, .lease), (readingAt 20, .sweep),
      (readingAt 21, .acknowledge ⟨"a", .ofNat 1⟩), (readingAt 22, .lease)]
    (by unfold Forward; decide) (by decide)
  exact ⟨hsweeps.1 _ (by unfold Forward; decide) rfl, hsweeps.2⟩

end Queue

end EventRelay
