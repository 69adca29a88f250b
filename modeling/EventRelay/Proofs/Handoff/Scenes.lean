import EventRelay.Dispatch
import EventRelay.Proofs.Stream.Tickers
import EventRelay.Proofs.Waiting.Rounds
import EventRelay.Stream.Handoff

/-!
# The scene of a hand-off

The producer of a stream and its consumer, with the broker and everyone else who calls it. The
consumer takes frames when it likes and goes when it likes. The producer makes the moves that
`Handoff.next` tells. To attempt a lease and to give an item back are errands, which it runs call by
call while the others go on. Calls on the queue may fail. The clock does not go back, and no token
is granted twice. As long as the producer makes moves the clock can be read an interval later still.
-/

namespace EventRelay.Handoff

open Waiting (said)

/-- What the producer is in the middle of. -/
inductive Errand where
  | none
  /-- This is left of an attempt to lease, and so it goes on with what the wait has come to. -/
  | asking (rest : Work (Except QueueError (Option (LeasedItem Event))))
      (next : Option (Except QueueError (LeasedItem Event)) → Option Producer)
  /-- This is left of giving an item back. -/
  | returning (rest : Work Unit)

/-- What a wait has come to with `Dispatch.attempt`, unless it goes on. -/
def outcome? : Except QueueError (Option (LeasedItem Event)) →
    Option (Except QueueError (LeasedItem Event))
  | .ok none => none
  | .ok (some leased) => some (.ok leased)
  | .error e => some (.error e)

/-- The broker, the `Producer`, and what has happened so far. -/
structure Scene where
  memory : Memory := {}
  /-- The last reading of the clock. -/
  now : Instant
  /-- The tokens that anyone was granted. -/
  granted : List Uuid := []
  producer : Producer
  errand : Errand := .none
  /-- What the producer put into the channel while the consumer was there. -/
  sent : List HandoffFrame := []
  /-- What the consumer has taken. -/
  received : List HandoffFrame := []
  /-- What the producer said to the queue. -/
  calls : List (Exchange Event) := []

namespace Scene

/-- The scene in which a stream is opened, with `Producer.start`. -/
def start (interval t : Nat) (now : Instant) : Scene where
  now := now
  producer := .start interval t

/-- The leases that the producer took, by what its calls were answered. -/
def leases (s : Scene) : List (LeasedItem Event) := s.calls.filterMap Exchange.handed?

/-- The consumer is gone: it has closed the `Channel`. -/
def Deserted (s : Scene) : Prop := s.producer.channel.closed = true

/-- The producer has done everything: it `isStopped` and has no `Errand`. -/
def Finished (s : Scene) : Prop := s.producer.isStopped = true ∧ s.errand = .none

/-- The consumer has come to the end of the stream: the producer is `Finished` and the channel is
empty. -/
def Ended (s : Scene) : Prop :=
  s.Finished ∧ ¬ s.Deserted ∧ s.producer.channel.held = []

/-- The clock may read so next, and the fresh token is fresh. -/
structure Admits (s : Scene) (r : Call.Reading) : Prop where
  clock : s.now ≤ r.now
  fresh : r.fresh ∉ s.granted

/-- The scene after anyone's call, with the tokens that were granted by it. -/
def after (s : Scene) (r : Call.Reading) (c : Call) (a : c.Answer) (m : Memory) : Scene :=
  { s with
    memory := m
    now := r.now
    granted := s.granted ++ Queue.grantedTokens (said r c a) }

end Scene

/-- The clock can be read an interval after this instant, up to `Ticker.last`. -/
def InTime (t : Nat) (p : Producer) : Prop := t + p.ticker.interval ≤ Ticker.last

instance (t : Nat) (p : Producer) : Decidable (InTime t p) := Nat.decLe _ _

/-- What a move put into the `Channel` while the consumer was there. -/
def entered (p p' : Producer) : List HandoffFrame :=
  if p.channel.closed then [] else p'.channel.held.drop p.channel.held.length

inductive Actor where
  | other
  | consumer
  | producer

/-- Anyone's next step: a call of another client, the consumer's, the producer's move, or the next
call of its errand. -/
inductive Step : Actor → Scene → Scene → Prop
  | call {s : Scene} {c : Call} {a : c.Answer} {r : Call.Reading} {m : Memory} :
      s.Admits r → Replies r s.memory c a m → Step .other s (s.after r c a m)
  | take {s : Scene} {frame : HandoffFrame} {channel : Channel HandoffFrame} :
      s.producer.channel.take? = some (frame, channel) →
      Step .consumer s
        { s with producer := { s.producer with channel }, received := s.received ++ [frame] }
  | drop (s : Scene) : Step .consumer s { s with producer := s.producer.close }
  | go {s : Scene} {t : Nat} {p : Producer} :
      InTime t s.producer → s.errand = .none → next t s.producer = .go p →
      Step .producer s { s with producer := p, sent := s.sent ++ entered s.producer p }
  | leave {s : Scene} {t : Nat} {p : Producer} :
      InTime t s.producer → s.errand = .none → next t s.producer = .leave p →
      Step .producer s { s with producer := p }
  /-- It is parked and was not woken. -/
  | skip {s : Scene} {t : Nat} {p : Producer}
      {k : Option (Except QueueError (LeasedItem Event)) → Option Producer} :
      InTime t s.producer → s.errand = .none → next t s.producer = .ask k → k none = some p →
      Step .producer s { s with producer := p }
  | ask {s : Scene} {t : Nat}
      {k : Option (Except QueueError (LeasedItem Event)) → Option Producer} :
      InTime t s.producer → s.errand = .none → next t s.producer = .ask k →
      Step .producer s { s with errand := .asking Dispatch.attempt k }
  | attempt {s : Scene} {c : Call} {a : c.Answer} {r : Call.Reading} {m : Memory}
      {rest : c.Answer → Work (Except QueueError (Option (LeasedItem Event)))}
      {k : Option (Except QueueError (LeasedItem Event)) → Option Producer} :
      s.errand = .asking (.call c rest) k → s.Admits r → Replies r s.memory c a m →
      Step .producer s
        { s.after r c a m with errand := .asking (rest a) k, calls := s.calls ++ said r c a }
  /-- The channel is as the consumer has left it meanwhile. -/
  | asked {s : Scene} {out : Except QueueError (Option (LeasedItem Event))}
      {k : Option (Except QueueError (LeasedItem Event)) → Option Producer} :
      s.errand = .asking (.done out) k →
      Step .producer s
        { s with
          errand := .none
          producer := { (k (outcome? out)).getD s.producer with channel := s.producer.channel } }
  | abandon {s : Scene} {t : Nat} {leased : LeasedItem Event} {p : Producer} :
      InTime t s.producer → s.errand = .none → next t s.producer = .abandon leased p →
      Step .producer s
        { s with producer := p, errand := .returning (Dispatch.releaseAbandoned leased) }
  | giveBack {s : Scene} {c : Call} {a : c.Answer} {r : Call.Reading} {m : Memory}
      {rest : c.Answer → Work Unit} :
      s.errand = .returning (.call c rest) → s.Admits r → Replies r s.memory c a m →
      Step .producer s
        { s.after r c a m with errand := .returning (rest a), calls := s.calls ++ said r c a }
  | returned {s : Scene} :
      s.errand = .returning (.done ()) → Step .producer s { s with errand := .none }

abbrev Leads (s s' : Scene) : Prop :=
  Relation.ReflTransGen (fun s s' => ∃ actor, Step actor s s') s s'

/-- What each `Step` keeps is kept by any number of them. -/
theorem Leads.keeps {P : Scene → Prop} {s s' : Scene} (hs : Leads s s') (h : P s)
    (hstep : ∀ {actor s s'}, Step actor s s' → P s → P s') : P s' := by
  induction hs with
  | refl => exact h
  | tail _ hlast ih =>
    obtain ⟨actor, hlast⟩ := hlast
    exact hstep hlast ih

/-- The scene of a stream with this interval, wherever `Leads` gets from its start. -/
def Reachable (interval : Nat) (s : Scene) : Prop :=
  ∃ t now, Leads (.start interval t now) s

/-! ## Moves -/

variable {β : Type} {c c' : Channel β} {b : β} {t : Nat} {p p' : Producer}
  {leased : LeasedItem Event}
  {k : Option (Except QueueError (LeasedItem Event)) → Option Producer}

/-- An open channel with room takes a frame at its end. -/
theorem eq_of_send_accepted (h : c.send b = (.accepted, c')) :
    c.closed = false ∧ c' = { c with held := c.held ++ [b] } := by
  unfold Channel.send at h
  split at h
  · cases h
  · next hopen =>
    split at h
    · obtain ⟨-, rfl⟩ := Prod.mk.inj h
      exact ⟨Bool.eq_false_iff.2 hopen, rfl⟩
    · cases h

theorem closed_of_send_refused (h : c.send b = (.refused, c')) : c.closed = true := by
  unfold Channel.send at h
  split at h
  · assumption
  · split at h <;> cases h

theorem closed_of_take? (h : c.take? = some (b, c')) : c'.closed = c.closed := by
  unfold Channel.take? at h
  split at h
  · cases h
  · obtain ⟨-, rfl⟩ := Prod.mk.inj (Option.some.inj h)
    rfl

/-- A producer that moves on puts this frame into the channel and comes to this phase. -/
inductive Puts : Phase → HandoffFrame → Phase → Prop
  | opening : Puts .opening (.ok .heartbeat) .waiting
  | beating : Puts .beating (.ok .heartbeat) .waiting
  | delivering (outcome : Except QueueError (LeasedItem Event)) :
      Puts (.delivering outcome) (frameOf outcome) .stopped

/-- What each `Move` comes with. -/
inductive Led (t : Nat) (p : Producer) : Move → Prop
  | rest : Led t p .rest
  | put {frame : HandoffFrame} {p' : Producer} : p.channel.closed = false →
      p'.channel = { p.channel with held := p.channel.held ++ [frame] } →
      p'.ticker.interval = p.ticker.interval →
      (Ticker.Settable p.ticker.interval t → Puts p.phase frame p'.phase) → Led t p (.go p')
  /-- The consumer is gone, and nothing is to be given back. -/
  | stop : p.channel.closed = true → (∀ leased, p.phase ≠ .delivering (.ok leased)) →
      Led t p (.go { p with phase := .stopped })
  | leave : p.channel.closed = true → p.phase = .waiting →
      Led t p (.leave { p with phase := .stopped })
  | ask {k : Option (Except QueueError (LeasedItem Event)) → Option Producer} :
      p.channel.closed = false → p.phase = .waiting → k none = onTick t p →
      (∀ outcome, k (some outcome) = some { p with phase := .delivering outcome }) →
      Led t p (.ask k)
  | abandon {leased : LeasedItem Event} : p.channel.closed = true →
      p.phase = .delivering (.ok leased) → Led t p (.abandon leased { p with phase := .stopped })

/-- A frame that the channel took, for a move that changes nothing else but the phase and the
ticker. -/
theorem Led.of_accepted {frame : HandoffFrame} {channel : Channel HandoffFrame}
    (hsend : p.channel.send frame = (.accepted, channel)) (hchannel : p'.channel = channel)
    (hinterval : p'.ticker.interval = p.ticker.interval)
    (hputs : Ticker.Settable p.ticker.interval t → Puts p.phase frame p'.phase) :
    Led t p (.go p') := by
  obtain ⟨hopen, rfl⟩ := eq_of_send_accepted hsend
  exact .put hopen hchannel hinterval hputs

/-- Every move of `next` comes with what `Led` has for it. By cases on the phase. -/
theorem led_next (t : Nat) (p : Producer) : Led t p (next t p) := by
  unfold next
  cases hphase : p.phase with
  | stopped => exact .rest
  | opening =>
    simp only
    split
    · next hsend =>
      refine .of_accepted hsend ?_ ?_ fun hset => ?_
      · unfold afterOpening
        split <;> rfl
      · unfold afterOpening
        split <;> rfl
      · rw [afterOpening, if_pos (Ticker.canStart_of_settable hset), hphase]
        exact .opening
    · exact .rest
    · next hsend => exact .stop (closed_of_send_refused hsend) (by simp [hphase])
  | waiting =>
    simp only
    split
    · next hclosed => exact .leave hclosed hphase
    · next hopen => exact .ask (Bool.eq_false_iff.2 hopen) hphase rfl fun _ => rfl
  | beating =>
    simp only
    split
    · next hsend =>
      refine .of_accepted hsend rfl rfl fun _ => ?_
      rw [hphase]
      exact .beating
    · exact .rest
    · next hsend => exact .stop (closed_of_send_refused hsend) (by simp [hphase])
  | delivering outcome =>
    simp only
    split
    · next hsend =>
      refine .of_accepted hsend rfl rfl fun _ => ?_
      rw [hphase]
      exact .delivering _
    · exact .rest
    · next hsend => exact .abandon (closed_of_send_refused hsend) hphase
    · next hsend => exact .stop (closed_of_send_refused hsend) (by simp [hphase])

/-- A `Move.go` has put a frame into the channel, or stops as the consumer is gone. -/
theorem go_cases (h : next t p = .go p') :
    (p.channel.closed = false ∧ ∃ frame,
      p'.channel = { p.channel with held := p.channel.held ++ [frame] } ∧
        p'.ticker.interval = p.ticker.interval ∧
          (Ticker.Settable p.ticker.interval t → Puts p.phase frame p'.phase)) ∨
    (p.channel.closed = true ∧ (∀ leased, p.phase ≠ .delivering (.ok leased)) ∧
      p' = { p with phase := .stopped }) := by
  have hled := led_next t p
  rw [h] at hled
  cases hled with
  | put hopen hchannel hinterval hputs => exact .inl ⟨hopen, _, hchannel, hinterval, hputs⟩
  | stop hclosed hnone => exact .inr ⟨hclosed, hnone, rfl⟩

theorem leave_eq (h : next t p = .leave p') :
    p.channel.closed = true ∧ p.phase = .waiting ∧ p' = { p with phase := .stopped } := by
  have hled := led_next t p
  rw [h] at hled
  cases hled with
  | leave hclosed hphase => exact ⟨hclosed, hphase, rfl⟩

theorem ask_eq (h : next t p = .ask k) :
    p.channel.closed = false ∧ p.phase = .waiting ∧ k none = onTick t p ∧
      ∀ outcome, k (some outcome) = some { p with phase := .delivering outcome } := by
  have hled := led_next t p
  rw [h] at hled
  cases hled with
  | ask hopen hphase hnone hsome => exact ⟨hopen, hphase, hnone, hsome⟩

theorem abandon_eq (h : next t p = .abandon leased p') :
    p.channel.closed = true ∧ p.phase = .delivering (.ok leased) ∧
      p' = { p with phase := .stopped } := by
  have hled := led_next t p
  rw [h] at hled
  cases hled with
  | abandon hclosed hphase => exact ⟨hclosed, hphase, rfl⟩

/-- A producer that can set its `Ticker` sends a heartbeat at a tick. -/
theorem onTick_eq (h : onTick t p = some p') (hset : Ticker.Settable p.ticker.interval t) :
    p'.phase = .beating ∧ p'.channel = p.channel ∧ p'.ticker.interval = p.ticker.interval := by
  unfold onTick at h
  split at h
  · cases h
  · rw [if_pos (Ticker.canTake_of_settable hset)] at h
    obtain rfl := Option.some.inj h
    exact ⟨rfl, rfl, Ticker.interval_take _ _⟩

/-! ## Errands -/

/-- The work only wakes and tells, and comes to what `Q` says. -/
def Tells {α : Type} (Q : α → Prop) : Work α → Prop
  | .done a => Q a
  | .call .wake next => Tells Q (next ())
  | .call (.note _) next => Tells Q (next ())
  | .call (.log _) _ | .call (.queue _) _ | .call (.progress _) _ => False

/-- `Dispatch.attempt` is one call on the queue, and comes to what that is answered. -/
theorem attempt_eq : ∃ next, Dispatch.attempt = .call (.queue .lease) next ∧
    ∀ out, Tells (· = out) (next out) := by
  refine ⟨_, rfl, fun out => ?_⟩
  rcases out with e | _ | leased
  · exact rfl
  · exact rfl
  · exact rfl

/-- `Dispatch.releaseAbandoned` is one call on the queue. -/
theorem releaseAbandoned_eq (leased : LeasedItem Event) : ∃ next,
    Dispatch.releaseAbandoned leased = .call (.queue (.release leased.lease.lock)) next ∧
      ∀ a, Tells (fun _ => True) (next a) := by
  refine ⟨_, rfl, fun a => ?_⟩
  cases a with
  | ok => exact trivial
  | error e => exact trivial

/-- The next call of work that `Tells` leaves the memory as it is. -/
theorem Tells.call {α : Type} {Q : α → Prop} {c : Call} {a : c.Answer} {r : Call.Reading}
    {m m' : Memory} {rest : c.Answer → Work α} (h : Tells Q (.call c rest))
    (hr : Replies r m c a m') : m' = m ∧ said r c a = [] ∧ Tells Q (rest a) := by
  cases hr with
  | given =>
    cases c with
    | wake | note => exact ⟨rfl, rfl, h⟩
    | log | queue | progress => exact h.elim
  | failed => exact h.elim

end EventRelay.Handoff
