import EventRelay.Proofs.Handoff.Course
import EventRelay.Proofs.Queue.Lapsed

/-!
# Handing over is safe

Whatever the consumer does and whatever else befalls the queue, the stream is heartbeats and then
one item or failure, and the producer takes one lease at most. When it has finished, the item of
that lease went into the channel while the consumer was there, or its lock has lapsed, or the store
failed when the item was given back.
-/

namespace EventRelay

variable {m m' : Memory} {r : Call.Reading} {c : Call} {a : c.Answer} {lock : Lock}
  {now : Instant}

/-- A lock that has `Lapsed` stays so, as later readings are not before it and tokens are fresh. -/
theorem Replies.lapsed (h : Replies r m c a m') (hq : m.queue.WF) (hl : m.queue.Lapsed lock now)
    (hnow : now ≤ r.now) (hfresh : lock.token ≠ r.fresh) : m'.queue.Lapsed lock now := by
  cases h with
  | given =>
    cases c with
    | queue c' => exact hl.answer hq hnow hfresh c'
    | log | progress | wake | note => exact hl
  | failed => exact hl

/-- An attempt to `QueueCall.lease` leaves all entries where they are, and changes nothing unless it
is granted one. -/
theorem Replies.of_lease {a : (Call.queue .lease).Answer} (h : Replies r m (.queue .lease) a m')
    (hq : m.queue.WF) :
    (∀ name, (m'.queue.laneAt name).entries = (m.queue.laneAt name).entries) ∧
      (Exchange.handed? ⟨r, .lease, a⟩ = none → m' = m) := by
  cases h with
  | failed => exact ⟨fun _ => rfl, fun _ => rfl⟩
  | given =>
    refine ⟨hq.entries_lease r.now r.expiration r.fresh, fun hnone => ?_⟩
    rcases hq.lease_cases r.now r.expiration r.fresh with ⟨heq, -⟩ | ⟨_, _, _, -, -, -, heq⟩
    · simp only [Memory.answer, Memory.answerQueue, heq]
    · simp only [Memory.answer, Memory.answerQueue, heq, Exchange.handed?, reduceCtorEq] at hnone

/-- A `QueueCall.release` leaves all entries where they are, and the lock lapsed unless the store
failed. -/
theorem Replies.of_release {a : (Call.queue (.release lock)).Answer}
    (h : Replies r m (.queue (.release lock)) a m') (hq : m.queue.WF) :
    (∀ name, (m'.queue.laneAt name).entries = (m.queue.laneAt name).entries) ∧
      (m'.queue.Lapsed lock r.now ∨ ∃ reason, a = .error (.storage reason)) := by
  cases h with
  | failed _ reason => exact ⟨fun _ => rfl, .inr ⟨reason, rfl⟩⟩
  | given => exact ⟨hq.entries_release lock r.now, .inl (hq.lapsed_release lock r.now)⟩

namespace Handoff

open Waiting (said)

variable {s s' : Scene} {actor : Actor} {interval : Nat} {leased : LeasedItem Event}

/-! ## What is settled -/

/-- The lock was granted and has `Queue.Lapsed`. -/
def Scene.Spent (s : Scene) (lock : Lock) : Prop :=
  lock.token ∈ s.granted ∧ s.memory.queue.Lapsed lock s.now

theorem Scene.Spent.after (h : s.Spent lock) (hq : s.memory.queue.WF) (hr : s.Admits r)
    (hreply : Replies r s.memory c a m) : (s.after r c a m).Spent lock := by
  obtain ⟨hgranted, hlapsed⟩ := h
  have hfresh : lock.token ≠ r.fresh := by
    intro heq
    exact hr.fresh (heq ▸ hgranted)
  refine ⟨List.mem_append_left _ hgranted, ?_⟩
  exact (hreply.lapsed hq hlapsed hr.clock hfresh).mono hr.clock

/-- A lock that is `Spent` stays so whoever makes the next step. -/
theorem Scene.Spent.step (h : s.Spent lock) (hq : s.memory.queue.WF) (hstep : Step actor s s') :
    s'.Spent lock := by
  cases hstep with
  | call hr hreply | attempt _ hr hreply | giveBack _ hr hreply => exact h.after hq hr hreply
  | take | drop | go | leave | skip | ask | asked | abandon | returned => exact h

/-- The store failed when the item was given back. -/
def Scene.Unreturned (s : Scene) (leased : LeasedItem Event) : Prop :=
  ∃ r reason,
    (⟨r, .release leased.lease.lock, .error (.storage reason)⟩ : Exchange Event) ∈ s.calls

/-- The lock is `Spent`, unless the store failed when it was given back. -/
def Scene.Settled (s : Scene) (leased : LeasedItem Event) : Prop :=
  s.Spent leased.lease.lock ∨ s.Unreturned leased

theorem Scene.Settled.after (h : s.Settled leased) (hq : s.memory.queue.WF) (hr : s.Admits r)
    (hreply : Replies r s.memory c a m) : (s.after r c a m).Settled leased :=
  h.imp_left fun hspent => hspent.after hq hr hreply

theorem Scene.Settled.said (h : s.Settled leased) (errand : Errand) (xs : List (Exchange Event)) :
    { s with errand := errand, calls := s.calls ++ xs }.Settled leased := by
  refine h.imp_right ?_
  rintro ⟨r, reason, hmem⟩
  exact ⟨r, reason, List.mem_append_left _ hmem⟩

/-! ## What holds whatever happens -/

/-- The scene is on its `Course`, and its ticker has a rhythm. -/
structure Orderly (s : Scene) : Prop where
  wf : s.memory.queue.WF
  rhythm : 0 < s.producer.ticker.interval
  course : Course s.Deserted s.Settled s.errand s.producer.phase s.sent s.leases
  delivers : s.producer.channel.Delivers s.sent s.received
  granted : ∀ leased ∈ s.leases, leased.lease.token ∈ s.granted

namespace Orderly

/-- A scene stays `Orderly` over anyone's call: of the course only what is settled can change, and
it stays so. -/
theorem after (h : Orderly s) (hr : s.Admits r) (hreply : Replies r s.memory c a m) :
    Orderly (s.after r c a m) where
  wf := hreply.wf h.wf
  rhythm := h.rhythm
  course := h.course.mono id fun _ _ hs => hs.after h.wf hr hreply
  delivers := h.delivers
  granted leased hl := List.mem_append_left _ (h.granted leased hl)

theorem mem_grantedTokens_said (hl : leased ∈ (said r c a).filterMap Exchange.handed?) :
    leased.lease.token ∈ Queue.grantedTokens (said r c a) := by
  obtain ⟨x, hx, hhanded⟩ := List.mem_filterMap.1 hl
  have hgranted : x.granted? = some leased.lease.lock := by
    rw [Exchange.granted?, hhanded]
    rfl
  exact Queue.mem_grantedTokens hx hgranted

theorem say (h : Orderly s) (hreply : Replies r s.memory c a m) {errand : Errand}
    (hcourse : Course s.Deserted
      { s.after r c a m with errand := errand, calls := s.calls ++ said r c a }.Settled errand
      s.producer.phase s.sent (s.leases ++ (said r c a).filterMap Exchange.handed?)) :
    Orderly { s.after r c a m with errand := errand, calls := s.calls ++ said r c a } := by
  have hleases : { s.after r c a m with errand := errand, calls := s.calls ++ said r c a }.leases =
      s.leases ++ (said r c a).filterMap Exchange.handed? := List.filterMap_append
  refine ⟨hreply.wf h.wf, h.rhythm, ?_, h.delivers, ?_⟩
  · rw [hleases]
    exact hcourse
  · rw [hleases]
    intro leased hl
    rcases List.mem_append.1 hl with hl | hl
    · exact List.mem_append_left _ (h.granted leased hl)
    · exact List.mem_append_right _ (mem_grantedTokens_said hl)

section

variable {k : Option (Except QueueError (LeasedItem Event)) → Option Producer} {t : Nat}
  {p : Producer}

theorem attempt {rest : c.Answer → Work (Except QueueError (Option (LeasedItem Event)))}
    (h : Orderly s) (herrand : s.errand = .asking (.call c rest) k) (hr : s.Admits r)
    (hreply : Replies r s.memory c a m) :
    Orderly { s.after r c a m with
      errand := .asking (rest a) k, calls := s.calls ++ said r c a } := by
  apply h.say hreply
  have hcourse := (h.after hr hreply).course.mono id fun leased _ hs =>
    hs.said (.asking (rest a) k) (said r c a)
  rw [show (s.after r c a m).errand = _ from herrand] at hcourse
  exact hcourse.attempt hreply

theorem giveBack {rest : c.Answer → Work Unit} (h : Orderly s)
    (herrand : s.errand = .returning (.call c rest)) (hr : s.Admits r)
    (hreply : Replies r s.memory c a m) :
    Orderly { s.after r c a m with
      errand := .returning (rest a), calls := s.calls ++ said r c a } := by
  apply h.say hreply
  have hcourse := (h.after hr hreply).course.mono id fun leased _ hs =>
    hs.said (.returning (rest a)) (said r c a)
  rw [show (s.after r c a m).errand = _ from herrand] at hcourse
  apply hcourse.giveBack hreply
  rintro leased hl rfl
  -- refused or not, the lock has lapsed by the answer; only the store may have failed
  rcases (hreply.of_release h.wf).2 with hlapsed | ⟨reason, rfl⟩
  · exact .inl ⟨List.mem_append_left _ (h.granted leased hl), hlapsed⟩
  · exact .inr ⟨r, reason, List.mem_append_right _ List.mem_cons_self⟩

/-- A producer that is `InTime` can set its ticker. -/
theorem settable (h : Orderly s) (htime : InTime t s.producer) :
    Ticker.Settable s.producer.ticker.interval t :=
  ⟨h.rhythm, htime⟩

/-- A move that puts a frame into the channel, or that finds the consumer gone. -/
theorem go (h : Orderly s) (htime : InTime t s.producer) (herrand : s.errand = .none)
    (hmove : next t s.producer = .go p) :
    Orderly { s with producer := p, sent := s.sent ++ entered s.producer p } := by
  have hcourse := h.course
  rw [herrand] at hcourse
  rcases go_cases hmove with ⟨hopen, frame, hchannel, hinterval, hputs⟩ | ⟨hclosed, hnone, rfl⟩
  · have hentered : entered s.producer p = [frame] := by
      simp [entered, hopen, hchannel]
    rw [hentered]
    refine ⟨h.wf, hinterval.symm ▸ h.rhythm, ?_, ?_, h.granted⟩
    · rw [show s.errand = .none from herrand]
      refine (hcourse.put (hputs (h.settable htime))).mono (fun hgone => ?_) fun _ _ hs => hs
      exact absurd hgone (Bool.eq_false_iff.1 hopen)
    · rw [hchannel]
      exact h.delivers.send hopen
  · have hentered : entered s.producer { s.producer with phase := .stopped } = [] := if_pos hclosed
    rw [hentered, List.append_nil]
    refine ⟨h.wf, h.rhythm, ?_, h.delivers, h.granted⟩
    rw [show s.errand = .none from herrand]
    exact hcourse.stop hclosed hnone

theorem turn (h : Orderly s) {errand : Errand} (hchannel : p.channel = s.producer.channel)
    (hpos : 0 < p.ticker.interval)
    (hcourse : Course s.Deserted s.Settled errand p.phase s.sent s.leases) :
    Orderly { s with producer := p, errand := errand } := by
  refine ⟨h.wf, hpos, ?_, ?_, h.granted⟩
  · refine hcourse.mono (fun hgone => ?_) fun _ _ hs => hs
    exact (congrArg Channel.closed hchannel).trans hgone
  · rw [hchannel]
    exact h.delivers

/-- Each step keeps a scene `Orderly`: moves of the producer by what `led_next` says of them, calls
by `after`. -/
theorem step (h : Orderly s) (hstep : Step actor s s') : Orderly s' := by
  have hcourse := h.course
  cases hstep with
  | call hr hreply => exact h.after hr hreply
  | take htake =>
    refine ⟨h.wf, h.rhythm, hcourse.mono (fun hgone => ?_) fun _ _ hs => hs,
      h.delivers.take htake, h.granted⟩
    exact (closed_of_take? htake).trans hgone
  | drop =>
    exact ⟨h.wf, h.rhythm, hcourse.mono (fun _ => rfl) fun _ _ hs => hs, h.delivers.close,
      h.granted⟩
  | go htime herrand hmove => exact h.go htime herrand hmove
  | leave _ herrand hmove =>
    obtain ⟨hclosed, hphase, rfl⟩ := leave_eq hmove
    rw [herrand, hphase] at hcourse
    refine h.turn rfl h.rhythm ?_
    rw [herrand]
    exact hcourse.stop hclosed nofun
  | skip htime herrand hmove hnone =>
    obtain ⟨-, hphase, hk, -⟩ := ask_eq hmove
    obtain ⟨hbeating, hchannel, hinterval⟩ := onTick_eq (hk.symm.trans hnone) (h.settable htime)
    rw [herrand, hphase] at hcourse
    refine h.turn hchannel (hinterval.symm ▸ h.rhythm) ?_
    rw [herrand, hbeating]
    exact hcourse.tick
  | ask htime herrand hmove =>
    obtain ⟨-, hphase, -⟩ := ask_eq hmove
    rw [herrand, hphase] at hcourse
    refine h.turn rfl h.rhythm ?_
    rw [hphase]
    exact hcourse.ask hmove (h.settable htime)
  | attempt herrand hr hreply => exact h.attempt herrand hr hreply
  | asked herrand =>
    rw [herrand] at hcourse
    obtain ⟨hasked, hpos⟩ := hcourse.asked h.rhythm
    exact h.turn rfl hpos hasked
  | abandon _ herrand hmove =>
    obtain ⟨hclosed, hphase, rfl⟩ := abandon_eq hmove
    rw [herrand, hphase] at hcourse
    exact h.turn rfl h.rhythm (hcourse.abandon hclosed)
  | giveBack herrand hr hreply => exact h.giveBack herrand hr hreply
  | returned herrand =>
    rw [herrand] at hcourse
    exact h.turn rfl h.rhythm hcourse.finish

end

end Orderly

/-- Every scene that can be reached with a positive interval is `Orderly`. -/
theorem orderly_of_reachable (hinterval : 0 < interval) (hs : Reachable interval s) :
    Orderly s := by
  obtain ⟨t, now, hleads⟩ := hs
  refine hleads.keeps ?_ fun hstep h => h.step hstep
  exact ⟨Queue.WF.empty, hinterval, .opening, ⟨fun _ => rfl, nofun, List.prefix_rfl⟩, nofun⟩

/-! ## Where the consumer is gone -/

/-- A consumer that is gone stays so, and nothing more is sent. -/
theorem Scene.Deserted.step (h : s.Deserted) (hstep : Step actor s s') :
    s'.Deserted ∧ s'.sent = s.sent := by
  cases hstep with
  | call | attempt | asked | giveBack | returned => exact ⟨h, rfl⟩
  | take htake => exact ⟨(closed_of_take? htake).trans h, rfl⟩
  | drop => exact ⟨rfl, rfl⟩
  | go _ herrand hmove =>
    rcases go_cases hmove with ⟨hopen, -⟩ | ⟨hclosed, -, rfl⟩
    · exact absurd h (Bool.eq_false_iff.1 hopen)
    · refine ⟨h, ?_⟩
      simp only [entered, hclosed, if_pos, List.append_nil]
  | leave _ herrand hmove =>
    obtain ⟨-, -, rfl⟩ := leave_eq hmove
    exact ⟨h, rfl⟩
  | skip _ herrand hmove | ask _ herrand hmove =>
    exact absurd h (Bool.eq_false_iff.1 (ask_eq hmove).1)
  | abandon _ herrand hmove =>
    obtain ⟨-, -, rfl⟩ := abandon_eq hmove
    exact ⟨h, rfl⟩

theorem Scene.Deserted.leads (h : s.Deserted) (hs : Leads s s') :
    s'.Deserted ∧ s'.sent = s.sent := by
  refine hs.keeps (P := fun x => x.Deserted ∧ x.sent = s.sent) ⟨h, rfl⟩ fun hstep ih => ?_
  obtain ⟨hdeserted, hsent⟩ := ih.1.step hstep
  exact ⟨hdeserted, hsent.trans ih.2⟩

/-- The consumer is gone, and the producer has no item and is not about to get one. -/
structure Idle (s : Scene) : Prop where
  deserted : s.Deserted
  errand : s.errand = .none
  nothing : ∀ leased, s.producer.phase ≠ .delivering (.ok leased)

/-- An `Idle` producer makes no call, so its scene stays `Idle`. -/
theorem Idle.step (h : Idle s) (hstep : Step actor s s') : Idle s' ∧ s'.calls = s.calls := by
  have hdeserted := (h.deserted.step hstep).1
  cases hstep with
  | call | take | drop => exact ⟨⟨hdeserted, h.errand, h.nothing⟩, rfl⟩
  | go _ herrand hmove =>
    rcases go_cases hmove with ⟨hopen, -⟩ | ⟨-, -, rfl⟩
    · exact absurd h.deserted (Bool.eq_false_iff.1 hopen)
    · exact ⟨⟨hdeserted, h.errand, nofun⟩, rfl⟩
  | leave _ herrand hmove =>
    obtain ⟨-, -, rfl⟩ := leave_eq hmove
    exact ⟨⟨hdeserted, h.errand, nofun⟩, rfl⟩
  | skip _ herrand hmove | ask _ herrand hmove =>
    exact absurd h.deserted (Bool.eq_false_iff.1 (ask_eq hmove).1)
  | abandon _ herrand hmove => exact absurd (abandon_eq hmove).2.1 (h.nothing _)
  | attempt herrand | asked herrand | giveBack herrand | returned herrand =>
    cases h.errand.symm.trans herrand

theorem Idle.calls_eq (h : Idle s) (hs : Leads s s') : s'.calls = s.calls := by
  suffices hidle : Idle s' ∧ s'.calls = s.calls from hidle.2
  refine hs.keeps (P := fun x => Idle x ∧ x.calls = s.calls) ⟨h, rfl⟩ fun hstep ih => ?_
  obtain ⟨hidle, hcalls⟩ := ih.1.step hstep
  exact ⟨hidle, hcalls.trans ih.2⟩

theorem Orderly.idle (h : Orderly s) (hdeserted : s.Deserted) (herrand : s.errand = .none)
    (hnone : s.leases = []) : Idle s := by
  refine ⟨hdeserted, herrand, fun leased hphase => ?_⟩
  have hcourse := h.course
  rw [herrand, hphase] at hcourse
  cases hnone.symm.trans hcourse.leases_of_delivering

/-! ## What the producer does to the queue -/

/-- All entries are where they were, and nothing at all has changed if the producer has no lease. -/
structure Spares (s s' : Scene) : Prop where
  entries : ∀ name,
    (s'.memory.queue.laneAt name).entries = (s.memory.queue.laneAt name).entries
  vain : s'.leases = [] → s'.memory = s.memory

/-- A step of the producer `Spares` the queue. -/
theorem Orderly.spares (h : Orderly s) (hstep : Step .producer s s') : Spares s s' := by
  have hcourse := h.course
  cases hstep with
  | go | leave | skip | ask | asked | abandon | returned => exact ⟨fun _ => rfl, fun _ => rfl⟩
  | attempt herrand hr hreply =>
    rw [herrand] at hcourse
    rcases hcourse.call_of_asking with rfl | ⟨Q, htells⟩
    · obtain ⟨hentries, hvain⟩ := hreply.of_lease h.wf
      refine ⟨hentries, fun hnone => hvain ?_⟩
      have hsaid := List.filterMap_eq_nil_iff.1 hnone
      exact hsaid _ (List.mem_append_right _ List.mem_cons_self)
    · obtain ⟨rfl, -⟩ := htells.call hreply
      exact ⟨fun _ => rfl, fun _ => rfl⟩
  | giveBack herrand hr hreply =>
    rw [herrand] at hcourse
    obtain ⟨hleases, ⟨lock, rfl⟩ | ⟨Q, htells⟩⟩ := hcourse.call_of_returning
    · refine ⟨(hreply.of_release h.wf).1, fun hnone => absurd ?_ hleases⟩
      rw [Scene.leases, List.filterMap_append] at hnone
      exact (List.append_eq_nil_iff.1 hnone).1
    · obtain ⟨rfl, -⟩ := htells.call hreply
      exact ⟨fun _ => rfl, fun _ => rfl⟩

/-! ## Where the producer is done -/

theorem Scene.Finished.phase_eq (h : s.Finished) : s.producer.phase = .stopped := by
  have hstopped := h.1
  unfold Producer.isStopped at hstopped
  split at hstopped
  · assumption
  · cases hstopped

/-- A consumer that got to the end got `beats` and then what the attempt came to. -/
theorem Orderly.ended (h : Orderly s) (hended : s.Ended) : ∃ n outcome,
    s.received = beats n ++ [frameOf outcome] ∧ s.leases = leasesOf outcome := by
  obtain ⟨hfinished, hthere, hempty⟩ := hended
  have hcourse := h.course
  rw [hfinished.2, hfinished.phase_eq] at hcourse
  have hreceived := h.delivers.held (Bool.eq_false_iff.2 hthere)
  rw [hempty, List.append_nil] at hreceived
  rcases hcourse.ending with ⟨n, outcome, hsent, hleases⟩ | ⟨hgone, -⟩
  · exact ⟨n, outcome, hreceived.symm.trans hsent, hleases⟩
  · exact absurd hgone hthere

/-- What a producer that is done has leased was sent, or is `Settled`. -/
theorem Orderly.settled (h : Orderly s) (hfinished : s.Finished) :
    s.leases = [] ∨ ∃ leased, s.leases = [leased] ∧
      (.ok (.item leased) ∈ s.sent ∨ s.Settled leased) := by
  have hcourse := h.course
  rw [hfinished.2, hfinished.phase_eq] at hcourse
  rcases hcourse.ending with ⟨n, outcome, hsent, hleases⟩ | ⟨-, hnone | ⟨leased, hleases, hs⟩⟩
  · cases outcome with
    | ok leased =>
      refine .inr ⟨leased, hleases, .inl ?_⟩
      rw [hsent]
      exact List.mem_append_right _ List.mem_cons_self
    | error e => exact .inl hleases
  · exact .inl hnone
  · exact .inr ⟨leased, hleases, .inr hs⟩

/-- From now on the lock `Opens` nothing: no operation accepts it. -/
def Scene.Refuses (s : Scene) (lock : Lock) : Prop :=
  ∀ s', Leads s s' → ∀ r, s'.now ≤ r.now → ¬ s'.memory.queue.Opens lock r

/-- A lock that is `Spent` opens nothing any more. -/
theorem Orderly.refuses (h : Orderly s) (hspent : s.Spent lock) : s.Refuses lock := by
  intro s' hs
  suffices hlater : Orderly s' ∧ s'.Spent lock from
    fun r hnow => hlater.2.2.not_opens hlater.1.wf hnow
  refine hs.keeps (P := fun x => Orderly x ∧ x.Spent lock) ⟨h, hspent⟩ fun hstep ih => ?_
  exact ⟨ih.1.step hstep, ih.2.step ih.1.wf hstep⟩

/-! ## The hand-off -/

/-- What a stream and its producer keep to, at any point of the scene. -/
structure Scene.Safe (s : Scene) : Prop where
  framed : Framed s.received
  ended : s.Ended → ∃ n outcome,
    s.received = beats n ++ [frameOf outcome] ∧ s.leases = leasesOf outcome
  once : s.leases.length ≤ 1
  spares : ∀ s', Step .producer s s' → Spares s s'
  /-- The consumer went before anything was leased for it. -/
  early : s.Deserted → s.leases = [] → ∀ s', Leads s s' →
    (s.errand = .none → s'.calls = s.calls) ∧ ∀ leased, .ok (.item leased) ∉ s'.sent
  settled : s.Finished → s.leases = [] ∨ ∃ leased, s.leases = [leased] ∧
    (.ok (.item leased) ∈ s.sent ∨ s.Refuses leased.lease.lock ∨ s.Unreturned leased)

/-- **Handing over is safe.** Whatever the consumer and everyone else do, the consumer gets
heartbeats and then one item or failure, and the end of the stream only after that. The producer
takes one lease at most, moves no entry, and changes nothing without a lease. If the consumer goes
before anything was leased, no item is put into the channel, and unless an attempt is under way the
queue is not called again. In the end the item of a lease went into the channel while the consumer
was there, or its lock opens nothing any more, or the store failed when it was given back. -/
theorem hands_over_safely (hinterval : 0 < interval) (hs : Reachable interval s) : s.Safe := by
  have h := orderly_of_reachable hinterval hs
  refine ⟨h.course.framed.take h.delivers.first, h.ended, h.course.length_leases,
    fun s' hstep => h.spares hstep, ?_, fun hfinished => ?_⟩
  · intro hdeserted hnone s' hleads
    refine ⟨fun herrand => (h.idle hdeserted herrand hnone).calls_eq hleads, fun leased hmem => ?_⟩
    rw [(hdeserted.leads hleads).2] at hmem
    cases hnone.symm.trans (h.course.leases_of_mem hmem)
  · refine (h.settled hfinished).imp_right ?_
    rintro ⟨leased, hleases, hsent | hspent | hfailed⟩
    · exact ⟨leased, hleases, .inl hsent⟩
    · exact ⟨leased, hleases, .inr (.inl (h.refuses hspent))⟩
    · exact ⟨leased, hleases, .inr (.inr hfailed)⟩

theorem Reachable.step (h : Reachable interval s) (hstep : Step actor s s') :
    Reachable interval s' := by
  obtain ⟨t, now, hleads⟩ := h
  exact ⟨t, now, hleads.tail ⟨actor, hstep⟩⟩

theorem reachable_start (interval : Nat) : Reachable interval (.start interval 0 ⟨0, 0⟩) :=
  ⟨0, ⟨0, 0⟩, .refl⟩

/-- The only event is leased for a consumer that goes before it is told, and is given back. -/
theorem exists_reachable_returned : ∃ s leased, Reachable 1 s ∧ s.Finished ∧
    s.leases = [leased] ∧ s.sent = beats 0 ∧ s.calls.filterMap Exchange.refused? = [] := by
  have h₁ := (reachable_start 1).step
    (.call (r := Sample.readingAt 0) ⟨by decide, by decide⟩
      (.given (.queue (.enqueue "mail" (Sample.placed 1) 5))))
  have h₂ := h₁.step (.go (t := 0) (by decide) rfl rfl)
  have h₃ := h₂.step (.ask (t := 0) (by decide) rfl rfl)
  have h₄ := h₃.step (.attempt (r := Sample.readingAt 1) rfl ⟨by decide, by decide⟩ (.given _))
  have h₅ := h₄.step (.attempt (r := Sample.readingAt 2) rfl ⟨by decide, by decide⟩ (.given _))
  have h₆ := h₅.step (.asked rfl)
  have h₇ := h₆.step (.drop _)
  have h₈ := h₇.step (.abandon (t := 0) (by decide) rfl rfl)
  have h₉ := h₈.step (.giveBack (r := Sample.readingAt 3) rfl ⟨by decide, by decide⟩ (.given _))
  have h₁₀ := h₉.step (.giveBack (r := Sample.readingAt 4) rfl ⟨by decide, by decide⟩ (.given _))
  have h₁₁ := h₁₀.step (.giveBack (r := Sample.readingAt 5) rfl ⟨by decide, by decide⟩ (.given _))
  have h₁₂ := h₁₁.step (.returned rfl)
  exact ⟨_, _, h₁₂, ⟨rfl, rfl⟩, rfl, rfl, rfl⟩

/-- The consumer is gone before it is told of the lease, as in `exists_reachable_returned`, and its
lock opens nothing any more. -/
theorem hands_over_safely_of_deserted : ∃ s leased, Reachable 1 s ∧ s.Finished ∧
    s.leases = [leased] ∧ s.sent = beats 0 ∧ s.Refuses leased.lease.lock := by
  obtain ⟨s, leased, hs, hfinished, hleases, hsent, hcalls⟩ := exists_reachable_returned
  refine ⟨s, leased, hs, hfinished, hleases, hsent, ?_⟩
  rcases (hands_over_safely (by decide) hs).settled hfinished with hnone | ⟨leased', hl, hend⟩
  · cases hleases.symm.trans hnone
  · cases hleases.symm.trans hl
    rcases hend with hmem | hrefuses | ⟨r, reason, hmem⟩
    · rw [hsent] at hmem
      cases List.eq_of_mem_replicate hmem
    · exact hrefuses
    · cases List.filterMap_eq_nil_iff.1 hcalls _ hmem

/-- Without time between the heartbeats the stream ends after the first one. A consumer that goes at
once has received nothing, and an attempt that is under way then leases all the same. And the store
may fail to take the item back. -/
theorem unsafe_handovers :
    (∃ s, Reachable 0 s ∧ s.Ended ∧ s.received = beats 0 ∧ s.leases = []) ∧
    (∃ s s', Reachable 1 s ∧ s.Deserted ∧ s.received = [] ∧ s.leases = [] ∧
      Step .producer s s' ∧ s'.leases ≠ [] ∧ (s.memory.queue.laneAt "mail").lease = none ∧
      (s'.memory.queue.laneAt "mail").lease ≠ none) ∧
    ∃ s leased, Reachable 1 s ∧ s.Finished ∧ s.leases = [leased] ∧ s.sent = beats 0 ∧
      ¬ s.Refuses leased.lease.lock := by
  refine ⟨?_, ?_⟩
  · have h₁ := (reachable_start 0).step (.go (t := 0) (by decide) rfl rfl)
    have h₂ := h₁.step (.take rfl)
    exact ⟨_, h₂, ⟨⟨rfl, rfl⟩, nofun, rfl⟩, rfl, rfl⟩
  · have h₁ := (reachable_start 1).step
      (.call (r := Sample.readingAt 0) ⟨by decide, by decide⟩
        (.given (.queue (.enqueue "mail" (Sample.placed 1) 5))))
    have h₂ := h₁.step (.go (t := 0) (by decide) rfl rfl)
    have h₃ := h₂.step (.ask (t := 0) (by decide) rfl rfl)
    have h₄ := h₃.step (.drop _)
    have h₅ := h₄.step (.attempt (r := Sample.readingAt 1) rfl ⟨by decide, by decide⟩ (.given _))
    have h₆ := h₅.step (.attempt (r := Sample.readingAt 2) rfl ⟨by decide, by decide⟩ (.given _))
    have h₇ := h₆.step (.asked rfl)
    have h₈ := h₇.step (.abandon (t := 0) (by decide) rfl rfl)
    have h₉ := h₈.step (.giveBack (r := Sample.readingAt 3) rfl ⟨by decide, by decide⟩
      (.failed _ "down"))
    have h₁₀ := h₉.step (.giveBack (r := Sample.readingAt 4) rfl ⟨by decide, by decide⟩ (.given _))
    have h₁₁ := h₁₀.step (.returned rfl)
    refine ⟨⟨_, _, h₄, rfl, rfl, rfl, .attempt (r := Sample.readingAt 1) rfl
      ⟨by decide, by decide⟩ (.given _), nofun, rfl, nofun⟩, _, _, h₁₁, ⟨rfl, rfl⟩, rfl, rfl, ?_⟩
    intro hrefuses
    exact hrefuses _ .refl (Sample.readingAt 5) (by decide) ⟨.renew ⟨"mail", .ofNat 1⟩, rfl⟩

end Handoff

end EventRelay
