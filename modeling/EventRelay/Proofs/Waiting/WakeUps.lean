import EventRelay.Proofs.Waiting.Rounds

/-!
# No waking is lost

Someone is parked and was not woken since it registered. Then no lane was filled or freed since its
attempt, or the waking for that is still to come. For it registered before the attempt, and each
operation wakes after its call on the queue.
-/

namespace EventRelay.Waiting

variable {α : Type} {m m' : Memory} {r : Call.Reading} {c : Call} {a : c.Answer}
  {history : List (Exchange Event)} {q q' : Queue Event} {n : Nat} {w : Waiter} {s s' : Hall}

/-- At the attempt of this number nothing was to be had; and every lane with an item has a lease
that had not run out then, or was given to it since. -/
def Busy (q : Queue Event) (history : List (Exchange Event)) (n : Nat) : Prop :=
  ∃ r, history[n]? = some ⟨r, .lease, .ok none⟩ ∧
    ∀ name, (q.laneAt name).entries ≠ [] → ∃ lease, (q.laneAt name).lease = some lease ∧
      (lease.isExpiredAt r.now = false ∨ ∃ x ∈ history.drop (n + 1), x.Gave lease)

/-- A lane that is `Busy` stays so over an exchange that spares it. -/
theorem Busy.snoc (h : Busy q history n) {x : Exchange Event}
    (hx : ∀ name, x.Spares (q.laneAt name) (q'.laneAt name)) : Busy q' (history ++ [x]) n := by
  obtain ⟨r, hget, hlanes⟩ := h
  have hlt : n < history.length := (List.getElem?_eq_some_iff.1 hget).1
  refine ⟨r, by rwa [List.getElem?_append_left hlt], fun name hne => ?_⟩
  rw [List.drop_append_of_le_length hlt]
  rw [(hx name).entries] at hne
  obtain ⟨lease, hlease, hsince⟩ := hlanes name hne
  rcases (hx name).lease with hsame | ⟨lease', hlease', hgave⟩
  · refine ⟨lease, hsame.trans hlease, hsince.imp_right ?_⟩
    rintro ⟨y, hy, hgave⟩
    exact ⟨y, List.mem_append_left _ hy, hgave⟩
  · exact ⟨lease', hlease', .inr ⟨x, List.mem_append_right _ List.mem_cons_self, hgave⟩⟩

/-! ## Calls -/

/-- What frees no lane leaves all `Busy`. -/
theorem Busy.replies (h : Busy m.queue history n) (hq : m.queue.WF) (hr : Replies r m c a m')
    (hf : frees c a = false) : Busy m'.queue (history ++ said r c a) n := by
  cases hr with
  | given =>
    cases c with
    | queue c' => exact h.snoc (hq.lease_answer r c' hf)
    | log | progress | wake | note =>
      rw [said, List.append_nil]
      exact h
  | failed => exact h.snoc fun name => .refl _ _

/-- An attempt that is given nothing finds all lanes `Busy`. -/
theorem busy_of_lease (hq : m.queue.WF) (h : Replies r m (.queue .lease) (.ok none) m') :
    Busy m'.queue (history ++ [⟨r, .lease, .ok none⟩]) history.length := by
  generalize ha : (Except.ok none : (QueueCall.lease (τ := Event)).Answer) = a at h
  cases h with
  | failed => cases ha
  | given =>
    simp only [Memory.answer, Memory.answerQueue] at ha ⊢
    rw [← ha]
    refine ⟨r, List.getElem?_concat_length, fun name hne => ?_⟩
    rcases hq.lease_cases r.now r.expiration r.fresh with ⟨heq, hnone⟩ | ⟨_, _, _, -, -, -, heq⟩
    · rw [heq] at hne ⊢
      have hbusy := hnone name hne
      unfold Lane.isLeasableAt at hbusy
      cases hl : (m.queue.laneAt name).lease with
      | none =>
        rw [hl] at hbusy
        cases hbusy
      | some lease =>
        rw [hl] at hbusy
        exact ⟨lease, rfl, .inl hbusy⟩
    · rw [heq] at ha
      cases ha

/-! ## Attempts -/

/-- What may be left of an attempt. -/
inductive Attempts : Work (Except QueueError (Option (LeasedItem Event))) → Prop
  | whole : Attempts Dispatch.attempt
  | told (n : Notice) (leased : LeasedItem Event) :
      Attempts (.call (.note n) fun _ => .done (.ok (some leased)))
  | done (out : Except QueueError (Option (LeasedItem Event))) : Attempts (.done out)

/-- What is left of an attempt frees nothing, and comes to nothing only where the queue had
nothing. -/
theorem Attempts.call {next : c.Answer → Work (Except QueueError (Option (LeasedItem Event)))}
    (h : Attempts (.call c next)) :
    frees c a = false ∧ Attempts (next a) ∧
      (next a = .done (.ok none) → (⟨c, a⟩ : Said) = ⟨.queue .lease, .ok none⟩) := by
  generalize hp : Procedure.call c next = p at h
  cases h with
  | whole =>
    obtain ⟨rfl, hnext⟩ := Procedure.call.inj hp
    obtain rfl := eq_of_heq hnext
    rcases a with e | _ | leased
    · exact ⟨rfl, .done _, fun h => by cases h⟩
    · exact ⟨rfl, .done _, fun _ => rfl⟩
    · exact ⟨rfl, .told _ leased, fun h => by cases h⟩
  | told n leased =>
    obtain ⟨rfl, hnext⟩ := Procedure.call.inj hp
    obtain rfl := eq_of_heq hnext
    exact ⟨rfl, .done _, fun h => by cases h⟩
  | done out => cases hp

/-! ## Steps -/

/-- The last attempt found nothing, and the round is not over. -/
def Waiter.Waits (w : Waiter) (n : Nat) : Prop :=
  w.stage = .parked n ∨ w.stage = .trying (.done (.ok none)) n

/-- The waking that is owed to someone is still to come, or nothing is owed as all is `Busy`. -/
def Hall.Owes (s : Hall) (n : Nat) : Prop :=
  (∃ o ∈ s.operations, WakesNext o.rest) ∨ Busy s.memory.queue s.history n

/-- What holds whatever happened: who `Waits` and was not woken has what `Hall.Owes` says. -/
structure Awake (s : Hall) : Prop where
  wf : s.memory.queue.WF
  heedful : ∀ o ∈ s.operations, Heedful o.rest
  attempts : ∀ w ∈ s.waiters, ∀ rest n, w.stage = .trying rest n → Attempts rest
  owed : ∀ w ∈ s.waiters, ∀ n, w.Waits n → w.woken = false → s.Owes n

/-- Whoever stands in a row in which one was exchanged stood there before, or is the one. -/
theorem eq_or_mem_of_mem {β : Type} {before after : List β} {x y : β} (x' : β)
    (h : y ∈ before ++ x :: after) : y = x ∨ y ∈ before ++ x' :: after := by
  simp only [List.mem_append, List.mem_cons] at h ⊢
  rcases h with h | h | h
  · exact .inr (.inl h)
  · exact .inl h
  · exact .inr (.inr (.inr h))

theorem eq_wake_of_wakesNext {next : c.Answer → Work α} (h : WakesNext (.call c next)) :
    c = .wake := by
  cases c with
  | wake => rfl
  | log | queue | progress | note => cases h

theorem hear_stage (c : Call) (w : Waiter) : (w.hear c).stage = w.stage := by
  cases c <;> rfl

/-- Who is not woken by a call stays as it was, and the call is no `wake`. -/
theorem hear_of_not_woken (h : (w.hear c).woken = false) : c ≠ .wake ∧ w.hear c = w := by
  cases c with
  | wake => cases h
  | log | queue | progress | note =>
    refine ⟨?_, rfl⟩
    intro hwake
    cases hwake

section

variable {operations : List Operation} {waiters before after : List Waiter} {w' : Waiter}

/-- A call that frees nothing keeps the hall `Awake`. -/
theorem Awake.replies (h : Awake ⟨m, operations, waiters, history⟩) (hr : Replies r m c a m')
    (hf : frees c a = false) : Awake ⟨m', operations, waiters, history ++ said r c a⟩ where
  wf := hr.wf h.wf
  heedful := h.heedful
  attempts := h.attempts
  owed w hw n hwaits hwoken := by
    have howed := h.owed w hw n hwaits hwoken
    exact howed.imp_right fun hbusy => hbusy.replies h.wf hr hf

/-- One of those who wait goes on, and all others stay as they are. -/
theorem Awake.move (h : Awake ⟨m, operations, before ++ w :: after, history⟩)
    (hattempts : ∀ rest n, w'.stage = .trying rest n → Attempts rest)
    (howed : ∀ n, w'.Waits n → w'.woken = false →
      Hall.Owes ⟨m, operations, before ++ w :: after, history⟩ n) :
    Awake ⟨m, operations, before ++ w' :: after, history⟩ where
  wf := h.wf
  heedful := h.heedful
  attempts x hx := by
    rcases eq_or_mem_of_mem w hx with rfl | hx
    · exact hattempts
    · exact h.attempts x hx
  owed x hx := by
    rcases eq_or_mem_of_mem w hx with rfl | hx
    · exact howed
    · exact h.owed x hx

/-- An attempt makes its next call. If it was the lease that found nothing, all is `Busy` from now
on. -/
theorem Awake.attempt {last : Nat} {woken : Bool}
    {next : c.Answer → Work (Except QueueError (Option (LeasedItem Event)))}
    (h : Awake ⟨m, operations, before ++ ⟨.trying (.call c next) last, woken⟩ :: after, history⟩)
    (hr : Replies r m c a m') :
    Awake ⟨m', operations,
      before ++ ⟨.trying (next a) (numberOf history last c), woken⟩ :: after,
      history ++ said r c a⟩ := by
  have hattempt := h.attempts ⟨.trying (.call c next) last, woken⟩
    (List.mem_append_right _ List.mem_cons_self) _ _ rfl
  obtain ⟨hfrees, hrest, hvain⟩ := hattempt.call (a := a)
  apply (h.replies hr hfrees).move
  · intro rest n hstage
    obtain ⟨rfl, -⟩ := Stage.trying.inj hstage
    exact hrest
  · intro n hwaits _
    rcases hwaits with hwaits | hwaits
    · cases hwaits
    · obtain ⟨hnext, rfl⟩ := Stage.trying.inj hwaits
      obtain ⟨rfl, ha⟩ := Said.mk.inj (hvain hnext)
      obtain rfl := eq_of_heq ha
      exact .inr (busy_of_lease h.wf hr)

/-- An operation makes its next call. If that `frees` a lane, the waking is owed to all. -/
theorem Awake.operate {call : QueueCall Event} {earlier later : List Operation}
    {next : c.Answer → Work call.Answer}
    (h : Awake ⟨m, earlier ++ ⟨call, .call c next⟩ :: later, waiters, history⟩)
    (hr : Replies r m c a m') :
    Awake ⟨m', earlier ++ ⟨call, next a⟩ :: later, waiters.map (·.hear c),
      history ++ said r c a⟩ := by
  have hnext := h.heedful ⟨call, .call c next⟩ (List.mem_append_right _ List.mem_cons_self) a
  refine ⟨hr.wf h.wf, ?_, ?_, ?_⟩
  · intro o ho
    rcases eq_or_mem_of_mem ⟨call, .call c next⟩ ho with rfl | ho
    · exact hnext.2
    · exact h.heedful o ho
  · intro w hw rest n hstage
    obtain ⟨w', hw', rfl⟩ := List.mem_map.1 hw
    rw [hear_stage] at hstage
    exact h.attempts w' hw' rest n hstage
  · intro w hw n hwaits hwoken
    obtain ⟨w', hw', rfl⟩ := List.mem_map.1 hw
    obtain ⟨hne, heq⟩ := hear_of_not_woken hwoken
    rw [heq] at hwaits hwoken
    by_cases hfrees : frees c a = true
    · exact .inl ⟨_, List.mem_append_right _ List.mem_cons_self, hnext.1 hfrees⟩
    · rcases h.owed w' hw' n hwaits hwoken with ⟨o, ho, hwakes⟩ | hbusy
      · -- what was owed was so by another operation
        rcases eq_or_mem_of_mem ⟨call, next a⟩ ho with rfl | ho
        · exact absurd (eq_wake_of_wakesNext hwakes) hne
        · exact .inl ⟨o, ho, hwakes⟩
      · exact .inr (hbusy.replies h.wf hr (Bool.eq_false_iff.2 hfrees))

end

theorem not_waits_coming {woken : Bool} : ¬ Waiter.Waits ⟨.coming, woken⟩ n := by
  rintro (h | h) <;> cases h

/-- Every `Step` keeps the hall `Awake`. -/
theorem Awake.step (h : Awake s) (hstep : Step s s') : Awake s' := by
  cases hstep with
  | start _ c =>
    refine ⟨h.wf, ?_, h.attempts, ?_⟩
    · intro o ho
      rcases List.mem_append.1 ho with ho | ho
      · exact h.heedful o ho
      · rw [List.mem_singleton.1 ho]
        exact heedful_call c
    · intro w hw n hwaits hwoken
      refine (h.owed w hw n hwaits hwoken).imp_left ?_
      rintro ⟨o, ho, hwakes⟩
      exact ⟨o, List.mem_append_left _ ho, hwakes⟩
  | operate _ _ _ hreply => exact h.operate hreply
  | come =>
    refine ⟨h.wf, h.heedful, ?_, ?_⟩
    · intro w hw rest n hstage
      rcases List.mem_append.1 hw with hw | hw
      · exact h.attempts w hw rest n hstage
      · rw [List.mem_singleton.1 hw] at hstage
        cases hstage
    · intro w hw n hwaits hwoken
      rcases List.mem_append.1 hw with hw | hw
      · exact h.owed w hw n hwaits hwoken
      · rw [List.mem_singleton.1 hw] at hwaits
        exact absurd hwaits not_waits_coming
  | register =>
    apply h.move
    · intro rest n hstage
      obtain ⟨rfl, -⟩ := Stage.trying.inj hstage
      exact .whole
    · rintro n (hwaits | hwaits) <;> cases hwaits
  | attempt _ _ _ hreply => exact h.attempt hreply
  | @park m operations history last woken =>
    apply h.move
    · intro rest n hstage
      cases hstage
    · intro n hwaits hwoken
      rcases hwaits with hwaits | hwaits
      · obtain rfl := Stage.parked.inj hwaits
        exact h.owed ⟨.trying (.done (.ok none)) last, woken⟩
          (List.mem_append_right _ List.mem_cons_self) last (.inr rfl) hwoken
      · cases hwaits
  | goOn =>
    apply h.move
    · intro rest n hstage
      cases hstage
    · intro n hwaits
      exact absurd hwaits not_waits_coming
  | leave before w after =>
    have hstay : ∀ x ∈ before ++ after, x ∈ before ++ w :: after := by
      intro x hx
      simp only [List.mem_append, List.mem_cons] at hx ⊢
      exact hx.imp_right .inr
    exact ⟨h.wf, h.heedful, fun x hx => h.attempts x (hstay x hx),
      fun x hx => h.owed x (hstay x hx)⟩

theorem awake_of_reachable (hs : Reachable s) : Awake s := by
  induction hs with
  | refl =>
    refine ⟨Queue.WF.empty, ?_, ?_, ?_⟩
    · intro o ho
      cases ho
    · intro w hw
      cases hw
    · intro w hw
      cases hw
  | tail _ hstep ih => exact ih.step hstep

/-- What can be leased although it was `Busy` has a lease that ran out. -/
theorem Busy.exists_expired (h : Busy q history n) {name : String} {now : Instant}
    (hne : (q.laneAt name).entries ≠ []) (hfree : (q.laneAt name).isLeasableAt now = true) :
    ∃ lease, (q.laneAt name).lease = some lease ∧ lease.isExpiredAt now = true := by
  obtain ⟨_, -, hlanes⟩ := h
  obtain ⟨lease, hlease, -⟩ := hlanes name hne
  unfold Lane.isLeasableAt at hfree
  rw [hlease] at hfree
  exact ⟨lease, hlease, hfree⟩

/-- **No waking is lost.** Where someone is parked that was not woken since it registered, and no
operation stands right before its waking, every lane with an item has a lease that had not run out
at the last attempt of the one that is parked, or that was granted or renewed since. So what can be
leased by then is on a lane whose lease ran out. -/
theorem parked_only_while_busy (hs : Reachable s) (hw : w ∈ s.waiters)
    (hparked : w.stage = .parked n) (hwoken : w.woken = false)
    (hdone : ∀ o ∈ s.operations, ¬ WakesNext o.rest) :
    Busy s.memory.queue s.history n ∧ ∀ name now, (s.memory.queue.laneAt name).entries ≠ [] →
      (s.memory.queue.laneAt name).isLeasableAt now = true →
      ∃ lease, (s.memory.queue.laneAt name).lease = some lease ∧ lease.isExpiredAt now = true := by
  have hbusy : Busy s.memory.queue s.history n := by
    rcases (awake_of_reachable hs).owed w hw n (.inl hparked) hwoken with ⟨o, ho, hwakes⟩ | hbusy
    · exact absurd hwakes (hdone o ho)
    · exact hbusy
  exact ⟨hbusy, fun name now hne hfree => hbusy.exists_expired hne hfree⟩

/-- One event is in its lane and leased when another worker comes, finds nothing and parks. -/
theorem exists_reachable_parked : ∃ s, Reachable s ∧ s.waiters = [⟨.parked 2, false⟩] ∧
    (∀ o ∈ s.operations, ¬ WakesNext o.rest) ∧ (s.memory.queue.laneAt "mail").entries ≠ [] := by
  have h₁ := Relation.ReflTransGen.single
    (Step.start {} (.enqueue "mail" (Sample.placed 1) 5))
  have h₂ := h₁.tail (.operate [] _ [] (.given (r := Sample.readingAt 0) _))
  have h₃ := h₂.tail (.operate [] _ [] (.given (r := Sample.readingAt 0) _))
  have h₄ := h₃.tail (.start _ .lease)
  have h₅ := h₄.tail (.operate [_] _ [] (.given (r := Sample.readingAt 1) _))
  have h₆ := h₅.tail (.come _)
  have h₇ := h₆.tail (.register [] [])
  have h₈ := h₇.tail (.attempt [] _ [] (.given (r := Sample.readingAt 2) _))
  have h₉ := h₈.tail (.park [] [])
  refine ⟨_, h₉, rfl, ?_, by decide⟩
  intro o ho
  rcases List.mem_cons.1 ho with rfl | ho
  · exact id
  · rw [List.mem_singleton.1 ho]
    exact id

theorem parked_only_while_busy_of_leased : ∃ s : Hall, ∃ w ∈ s.waiters,
    w.stage = .parked 2 ∧ w.woken = false ∧ (s.memory.queue.laneAt "mail").entries ≠ [] ∧
      Busy s.memory.queue s.history 2 := by
  obtain ⟨s, hs, hwaiters, hdone, hne⟩ := exists_reachable_parked
  have hw : ⟨.parked 2, false⟩ ∈ s.waiters := by
    rw [hwaiters]
    exact List.mem_cons_self
  exact ⟨s, _, hw, rfl, rfl, hne, (parked_only_while_busy hs hw rfl rfl hdone).1⟩

end EventRelay.Waiting
