import EventRelay.Proofs.Stream.Channels
import EventRelay.Stream.Heartbeats

/-!
# The scene of an answer with heartbeats

The producer of an answer and its receiver. The producer steps at instants that are not its choice;
the receiver takes frames when it likes and goes when it likes. What the source has given is what it
answers if it is asked at the instants at which the producer has asked it.
-/

namespace EventRelay

variable {σ α ε : Type}

/-! ## Sources -/

namespace Offer

/-- Nothing comes behind it: it is `Offer.failure` or `Offer.ended`. -/
def isLast : Offer α ε → Bool
  | .failure _ | .ended => true
  | .pending | .item _ => false

/-- The source has ended or failed: an answer `isLast`. -/
def Over (answers : List (Offer α ε)) : Prop := ∃ o ∈ answers, o.isLast = true

/-- What a list of `Offer`s gives: the items, up to the end or to the first failure and with
that. -/
def given : List (Offer α ε) → List (Except ε α)
  | [] => []
  | .pending :: rest => given rest
  | .item a :: rest => .ok a :: given rest
  | .failure e :: _ => [.error e]
  | .ended :: _ => []

variable {answers : List (Offer α ε)}

theorem over_snoc {o : Offer α ε} : Over (answers ++ [o]) ↔ Over answers ∨ o.isLast = true := by
  simp [Over, or_and_right, exists_or]

theorem Over.append (h : Over answers) (more : List (Offer α ε)) : Over (answers ++ more) :=
  let ⟨o, ho, hlast⟩ := h
  ⟨o, List.mem_append_left _ ho, hlast⟩

/-- While the source is not `Over`, what is given goes on behind. -/
theorem given_append (more : List (Offer α ε)) (h : ¬ Over answers) :
    given (answers ++ more) = given answers ++ given more := by
  induction answers with
  | nil => rfl
  | cons o rest ih =>
    have hrest : ¬ Over rest := fun ⟨o', ho', hlast⟩ => h ⟨o', List.mem_cons_of_mem _ ho', hlast⟩
    cases o with
    | pending => exact ih hrest
    | item a => exact congrArg (.ok a :: ·) (ih hrest)
    | failure e => exact absurd ⟨_, List.mem_cons_self, rfl⟩ h
    | ended => exact absurd ⟨_, List.mem_cons_self, rfl⟩ h

/-- Behind an answer that `isLast` nothing is `given` any more. -/
theorem given_append_of_over (more : List (Offer α ε)) (h : Over answers) :
    given (answers ++ more) = given answers := by
  induction answers with
  | nil => exact absurd h (by simp [Over])
  | cons o rest ih =>
    have hrest : o.isLast = false → Over rest := by
      obtain ⟨o', ho', hlast⟩ := h
      intro hnot
      rcases List.mem_cons.1 ho' with rfl | ho'
      · cases hlast.symm.trans hnot
      · exact ⟨o', ho', hlast⟩
    cases o with
    | pending => exact ih (hrest rfl)
    | item a => exact congrArg (.ok a :: ·) (ih (hrest rfl))
    | failure e => rfl
    | ended => rfl

/-- What is `given` stays given. -/
theorem given_isInitial (answers more : List (Offer α ε)) :
    given answers <+: given (answers ++ more) := by
  by_cases h : Over answers
  · exact (given_append_of_over more h).symm ▸ List.prefix_rfl
  · rw [given_append more h]
    exact List.prefix_append _ _

end Offer

namespace Source

open Offer (Over)

/-- What the `Source` answers that is asked at one instant after the other. -/
def answers (src : Source σ α ε) : σ → List Nat → List (Offer α ε)
  | _, [] => []
  | s, now :: rest => (src.ask now s).1 :: src.answers (src.ask now s).2 rest

/-- The `Source` after it was asked at these instants. -/
def after (src : Source σ α ε) : σ → List Nat → σ
  | s, [] => s
  | s, now :: rest => src.after (src.ask now s).2 rest

/-- However it is asked as time goes on up to a limit, the source comes to be `Over`. -/
def Ends (src : Source σ α ε) (s : σ) (limit : Nat) : Prop :=
  ∀ instants : Nat → Nat, (∀ m n, m ≤ n → instants m ≤ instants n) →
    (∀ n, instants n ≤ limit) → (∃ n, limit ≤ instants n) →
      ∃ n, Over (src.answers s ((List.range n).map instants))

variable (src : Source σ α ε) (s : σ)

/-- A source that is asked further goes on from where it came to. -/
theorem answers_append (asked more : List Nat) :
    src.answers s (asked ++ more) =
      src.answers s asked ++ src.answers (src.after s asked) more := by
  induction asked generalizing s with
  | nil => rfl
  | cons now rest ih => exact congrArg (_ :: ·) (ih _)

theorem answers_snoc (asked : List Nat) (now : Nat) :
    src.answers s (asked ++ [now]) =
      src.answers s asked ++ [(src.ask now (src.after s asked)).1] :=
  src.answers_append s asked [now]

theorem after_snoc (asked : List Nat) (now : Nat) :
    src.after s (asked ++ [now]) = (src.ask now (src.after s asked)).2 := by
  induction asked generalizing s with
  | nil => rfl
  | cons t rest ih => exact ih _

end Source

namespace Heartbeats

/-! ## Moves -/

/-- What a frame carries. A `Frame.heartbeat` carries nothing. -/
def content? : Except ε (Frame α) → Option (Except ε α)
  | .ok .heartbeat => none
  | .ok (.item a) => some (.ok a)
  | .error e => some (.error e)

/-- What frames carry, by `content?`. -/
def erased (frames : List (Except ε (Frame α))) : List (Except ε α) := frames.filterMap content?

/-- The producer after a `Step`. -/
def Step.producer : Step σ α ε → Producer σ α ε
  | .moved p | .resting p => p

/-- The producer has to wait after the `Step`. -/
def Step.rests : Step σ α ε → Bool
  | .moved _ => false
  | .resting _ => true

/-- When a `step` of the producer at this instant asks the source. -/
def asks (now : Nat) (p : Producer σ α ε) : List Nat :=
  match p.phase with
  | .waiting => if p.channel.closed then [] else [now]
  | _ => []

/-- What a `step` put into the channel. -/
def entered (p p' : Producer σ α ε) : List (Except ε (Frame α)) :=
  p'.channel.held.drop p.channel.held.length

/-- The `Producer` and what has happened so far. -/
structure Scene (σ α ε : Type) where
  producer : Producer σ α ε
  /-- When the producer asked the source. -/
  asked : List Nat := []
  /-- What the producer put into the channel, and when. -/
  sent : List (Nat × Except ε (Frame α)) := []
  /-- What the receiver has taken. -/
  received : List (Except ε (Frame α)) := []

/-- Whose turn it is. -/
inductive Act where
  /-- The producer makes a step at an instant. -/
  | produce (now : Nat)
  /-- The receiver takes a frame if there is one. -/
  | take
  /-- The receiver goes. -/
  | drop
  /-- The receiver goes in the midst of a step of the producer, which has looked for it before. -/
  | slip (now : Nat)

/-- When the producer makes a `step`, if it does. -/
def Act.now? : Act → Option Nat
  | .produce now | .slip now => some now
  | .take | .drop => none

/-- The receiver goes. -/
def Act.isParting : Act → Bool
  | .produce _ | .take => false
  | .drop | .slip _ => true

namespace Scene

/-- The scene in which an answer is opened, with `Producer.start`. -/
def start (interval now : Nat) (source : σ) : Scene σ α ε where
  producer := .start interval now source

def produce (src : Source σ α ε) (now : Nat) (s : Scene σ α ε) : Scene σ α ε :=
  let p := (step src now s.producer).producer
  { s with
    producer := p
    asked := s.asked ++ asks now s.producer
    sent := s.sent ++ (entered s.producer p).map fun frame => (now, frame) }

def take (s : Scene σ α ε) : Scene σ α ε :=
  match s.producer.channel.take? with
  | some (frame, channel) =>
    { s with producer := { s.producer with channel }, received := s.received ++ [frame] }
  | none => s

def drop (s : Scene σ α ε) : Scene σ α ε := { s with producer := s.producer.close }

def act (src : Source σ α ε) (s : Scene σ α ε) : Act → Scene σ α ε
  | .produce now => s.produce src now
  | .take => s.take
  | .drop => s.drop
  | .slip now => (s.produce src now).drop

/-- The scene after some acts: `act` after `act`. -/
def after (src : Source σ α ε) (s : Scene σ α ε) (acts : List Act) : Scene σ α ε :=
  acts.foldl (act src) s

/-- The receiver is gone. -/
def Deserted (s : Scene σ α ε) : Prop := s.producer.channel.closed = true

/-- The frames that were put into the channel. -/
def frames (s : Scene σ α ε) : List (Except ε (Frame α)) := s.sent.map (·.2)

end Scene

/-! ## What a step can do -/

/-- The producer with a frame more in its `Channel`. -/
def Producer.put (p : Producer σ α ε) (frame : Except ε (Frame α)) : Producer σ α ε :=
  { p with channel := { p.channel with held := p.channel.held ++ [frame] } }

/-- What a step of the producer makes of the `Scene`, and whether the producer then has to wait. -/
inductive Produced (src : Source σ α ε) (now : Nat) (s : Scene σ α ε) :
    Bool → Scene σ α ε → Prop
  | stopped : s.producer.phase = .stopped → Produced src now s true s
  | refused : s.Deserted → s.producer.phase ≠ .stopped →
      Produced src now s false { s with producer := { s.producer with phase := .stopped } }
  | full : ¬ s.Deserted → ¬ s.producer.channel.HasRoom →
      (s.producer.phase = .opening ∨ ∃ frame, s.producer.phase = .sending frame) →
      Produced src now s true s
  | opened : ¬ s.Deserted → s.producer.channel.HasRoom → s.producer.phase = .opening →
      Produced src now s false
        { s with
          producer := restart now (s.producer.put (.ok .heartbeat))
          sent := s.sent ++ [(now, .ok .heartbeat)] }
  | sent {frame : Except ε (Frame α)} : ¬ s.Deserted → s.producer.channel.HasRoom →
      s.producer.phase = .sending frame →
      Produced src now s false
        { s with
          producer := afterFrame now (s.producer.put frame) frame
          sent := s.sent ++ [(now, frame)] }
  | item {a : α} {source : σ} : ¬ s.Deserted → s.producer.phase = .waiting →
      src.ask now s.producer.source = (.item a, source) →
      Produced src now s false
        { s with
          producer := { s.producer with phase := .sending (.ok (.item a)), source }
          asked := s.asked ++ [now] }
  | failure {e : ε} {source : σ} : ¬ s.Deserted → s.producer.phase = .waiting →
      src.ask now s.producer.source = (.failure e, source) →
      Produced src now s false
        { s with
          producer := { s.producer with phase := .sending (.error e), source }
          asked := s.asked ++ [now] }
  | ended {source : σ} : ¬ s.Deserted → s.producer.phase = .waiting →
      src.ask now s.producer.source = (.ended, source) →
      Produced src now s false
        { s with
          producer := { s.producer with phase := .stopped, source }
          asked := s.asked ++ [now] }
  | tick {source : σ} : ¬ s.Deserted → s.producer.phase = .waiting →
      src.ask now s.producer.source = (.pending, source) → s.producer.ticker.isDue now = true →
      s.producer.ticker.canTake now = true →
      Produced src now s false
        { s with
          producer :=
            { s.producer with
              phase := .sending (.ok .heartbeat), ticker := s.producer.ticker.take now, source }
          asked := s.asked ++ [now] }
  | halted {source : σ} : ¬ s.Deserted → s.producer.phase = .waiting →
      src.ask now s.producer.source = (.pending, source) → s.producer.ticker.isDue now = true →
      s.producer.ticker.canTake now = false →
      Produced src now s false
        { s with
          producer := { s.producer with phase := .stopped, source }
          asked := s.asked ++ [now] }
  | idle {source : σ} : ¬ s.Deserted → s.producer.phase = .waiting →
      src.ask now s.producer.source = (.pending, source) → s.producer.ticker.isDue now = false →
      Produced src now s true
        { s with producer := { s.producer with source }, asked := s.asked ++ [now] }

variable {src : Source σ α ε} {now : Nat} {s : Scene σ α ε}

/-- `take` changes the channel and what was received, and nothing else. -/
theorem Scene.take_eq (s : Scene σ α ε) : ∃ channel received,
    s.take = { s with producer := { s.producer with channel }, received } ∧
      channel.closed = s.producer.channel.closed ∧
      channel.capacity = s.producer.channel.capacity ∧
      channel.held.length = s.producer.channel.held.length - 1 := by
  unfold take
  split
  · next frame channel htake =>
    obtain ⟨rest, hheld, rfl⟩ := Channel.eq_of_take? htake
    exact ⟨_, _, rfl, rfl, rfl, by rw [hheld]; rfl⟩
  · next htake =>
    have hnil : s.producer.channel.held = [] := Channel.held_of_take? htake
    exact ⟨_, _, rfl, rfl, rfl, by rw [hnil]; rfl⟩

@[simp] theorem Scene.phase_take (s : Scene σ α ε) : s.take.producer.phase = s.producer.phase := by
  obtain ⟨channel, received, htake, -⟩ := s.take_eq
  rw [htake]

@[simp] theorem Scene.asked_take (s : Scene σ α ε) : s.take.asked = s.asked := by
  obtain ⟨channel, received, htake, -⟩ := s.take_eq
  rw [htake]

theorem asks_cases (now : Nat) (p : Producer σ α ε) : asks now p = [] ∨ asks now p = [now] := by
  unfold asks
  split
  · split
    · exact .inl rfl
    · exact .inr rfl
  · exact .inl rfl

/-- A `step` that neither asks nor puts anything into the channel. -/
theorem Scene.produce_quiet {r : Step σ α ε} (hstep : step src now s.producer = r)
    (hasks : asks now s.producer = []) (hchannel : r.producer.channel = s.producer.channel) :
    s.produce src now = { s with producer := r.producer } := by
  have hentered : entered s.producer r.producer = [] := by
    rw [entered, hchannel, List.drop_length]
  simp only [produce, hstep, hasks, hentered, List.map_nil, List.append_nil]

/-- A `step` that puts one frame into the channel. -/
theorem Scene.produce_putting {r : Step σ α ε} {frame : Except ε (Frame α)}
    (hstep : step src now s.producer = r) (hasks : asks now s.producer = [])
    (hchannel : r.producer.channel = (s.producer.put frame).channel) :
    s.produce src now =
      { s with producer := r.producer, sent := s.sent ++ [(now, frame)] } := by
  have hentered : entered s.producer r.producer = [frame] := by
    rw [entered, hchannel]
    exact List.drop_left
  simp only [produce, hstep, hasks, hentered, List.map_singleton, List.append_nil]

/-- A `step` that asks the source. -/
theorem Scene.produce_asking {r : Step σ α ε} (hstep : step src now s.producer = r)
    (hasks : asks now s.producer = [now]) (hchannel : r.producer.channel = s.producer.channel) :
    s.produce src now = { s with producer := r.producer, asked := s.asked ++ [now] } := by
  have hentered : entered s.producer r.producer = [] := by
    rw [entered, hchannel, List.drop_length]
  simp only [produce, hstep, hasks, hentered, List.map_nil, List.append_nil]

/-- `restart` sets the ticker anew and changes what the producer is about, and nothing else. -/
theorem restart_eq (now : Nat) (p : Producer σ α ε) :
    restart now p = { p with phase := .waiting, ticker := p.ticker.reset now } ∧
      Ticker.Settable p.ticker.interval now ∨
    restart now p = { p with phase := .stopped } ∧ ¬ Ticker.Settable p.ticker.interval now := by
  unfold restart
  split
  · next h => exact .inl ⟨rfl, of_decide_eq_true h⟩
  · next h => exact .inr ⟨rfl, fun hset => h (decide_eq_true hset)⟩

theorem channel_restart (now : Nat) (p : Producer σ α ε) :
    (restart now p).channel = p.channel := by
  rcases restart_eq now p with ⟨h, -⟩ | ⟨h, -⟩ <;> rw [h]

theorem channel_afterFrame (now : Nat) (p : Producer σ α ε) (frame : Except ε (Frame α)) :
    (afterFrame now p frame).channel = p.channel := by
  unfold afterFrame
  split
  · rfl
  · exact channel_restart now p
  · rfl

/-- A producer that waits asks its source. By cases on what is answered. -/
theorem produced_of_asking (hclosed : ¬ s.Deserted) (hphase : s.producer.phase = .waiting) :
    Produced src now s (step src now s.producer).rests (s.produce src now) := by
  have hopen : s.producer.channel.closed = false := Bool.eq_false_iff.2 hclosed
  have hasks : asks now s.producer = [now] := by simp [asks, hphase, hopen]
  rcases hask : src.ask now s.producer.source with ⟨o, source⟩
  cases o with
  | item a =>
    have hstep : step src now s.producer =
        .moved { s.producer with phase := .sending (.ok (.item a)), source } := by
      simp [step, hphase, hopen, hask]
    rw [Scene.produce_asking hstep hasks rfl, hstep]
    exact .item hclosed hphase hask
  | failure e =>
    have hstep : step src now s.producer =
        .moved { s.producer with phase := .sending (.error e), source } := by
      simp [step, hphase, hopen, hask]
    rw [Scene.produce_asking hstep hasks rfl, hstep]
    exact .failure hclosed hphase hask
  | ended =>
    have hstep : step src now s.producer =
        .moved { s.producer with phase := .stopped, source } := by
      simp [step, hphase, hopen, hask]
    rw [Scene.produce_asking hstep hasks rfl, hstep]
    exact .ended hclosed hphase hask
  | pending =>
    cases hdue : s.producer.ticker.isDue now with
    | false =>
      have hstep : step src now s.producer = .resting { s.producer with source } := by
        simp [step, hphase, hopen, hask, hdue]
      rw [Scene.produce_asking hstep hasks rfl, hstep]
      exact .idle hclosed hphase hask hdue
    | true =>
      cases htake : s.producer.ticker.canTake now with
      | true =>
        have hstep : step src now s.producer =
            .moved
              { s.producer with
                phase := .sending (.ok .heartbeat)
                ticker := s.producer.ticker.take now
                source } := by
          simp [step, hphase, hopen, hask, hdue, htake]
        rw [Scene.produce_asking hstep hasks rfl, hstep]
        exact .tick hclosed hphase hask hdue htake
      | false =>
        have hstep : step src now s.producer =
            .moved { s.producer with phase := .stopped, source } := by
          simp [step, hphase, hopen, hask, hdue, htake]
        rw [Scene.produce_asking hstep hasks rfl, hstep]
        exact .halted hclosed hphase hask hdue htake

/-- A producer whose scene is `Deserted` stops. -/
theorem step_of_deserted (src : Source σ α ε) (now : Nat) (hclosed : s.Deserted)
    (hphase : s.producer.phase ≠ .stopped) :
    step src now s.producer = .moved { s.producer with phase := .stopped } ∧
      asks now s.producer = [] := by
  have hgone : s.producer.channel.closed = true := hclosed
  cases h : s.producer.phase with
  | stopped => exact absurd h hphase
  | opening | sending => simp only [step, asks, h, Channel.send_of_closed hgone, and_self]
  | waiting => simp [step, asks, h, hgone]

/-- A producer that has a frame to send waits for a channel that `HasRoom`. -/
theorem step_of_full (src : Source σ α ε) (now : Nat) (hopen : s.producer.channel.closed = false)
    (hfull : ¬ s.producer.channel.HasRoom)
    (hphase : s.producer.phase = .opening ∨ ∃ frame, s.producer.phase = .sending frame) :
    step src now s.producer = .resting s.producer ∧ asks now s.producer = [] := by
  rcases hphase with h | ⟨frame, h⟩ <;>
    simp only [step, asks, h, Channel.send_of_full hopen hfull, and_self]

/-- Every step of the producer is one that `Produced` has. By cases on the phase. -/
theorem produced (src : Source σ α ε) (now : Nat) (s : Scene σ α ε) :
    Produced src now s (step src now s.producer).rests (s.produce src now) := by
  by_cases hstopped : s.producer.phase = .stopped
  · have hstep : step src now s.producer = .resting s.producer := by simp only [step, hstopped]
    rw [Scene.produce_quiet hstep (by simp only [asks, hstopped]) rfl, hstep]
    exact .stopped hstopped
  by_cases hclosed : s.Deserted
  · obtain ⟨hstep, hasks⟩ := step_of_deserted src now hclosed hstopped
    rw [Scene.produce_quiet hstep hasks rfl, hstep]
    exact .refused hclosed hstopped
  have hopen := Bool.eq_false_iff.2 hclosed
  by_cases hfull : ¬ s.producer.channel.HasRoom ∧
      (s.producer.phase = .opening ∨ ∃ frame, s.producer.phase = .sending frame)
  · obtain ⟨hstep, hasks⟩ := step_of_full src now hopen hfull.1 hfull.2
    rw [Scene.produce_quiet hstep hasks rfl, hstep]
    exact .full hclosed hfull.1 hfull.2
  cases hphase : s.producer.phase with
  | stopped => exact absurd hphase hstopped
  | waiting => exact produced_of_asking hclosed hphase
  | opening =>
    have hroom : s.producer.channel.HasRoom :=
      Classical.byContradiction fun hno => hfull ⟨hno, .inl hphase⟩
    have hstep : step src now s.producer =
        .moved (restart now (s.producer.put (.ok .heartbeat))) := by
      simp only [step, hphase, Channel.send_of_room hopen hroom, Producer.put]
    have hasks : asks now s.producer = [] := by simp only [asks, hphase]
    rw [Scene.produce_putting hstep hasks (channel_restart _ _), hstep]
    exact .opened hclosed hroom hphase
  | sending frame =>
    have hroom : s.producer.channel.HasRoom :=
      Classical.byContradiction fun hno => hfull ⟨hno, .inr ⟨frame, hphase⟩⟩
    have hstep : step src now s.producer =
        .moved (afterFrame now (s.producer.put frame) frame) := by
      simp only [step, hphase, Channel.send_of_room hopen hroom, Producer.put]
    have hasks : asks now s.producer = [] := by simp only [asks, hphase]
    rw [Scene.produce_putting hstep hasks (channel_afterFrame _ _ _), hstep]
    exact .sent hclosed hroom hphase

end Heartbeats

end EventRelay
