import EventRelay.Proofs.Stream.Scenes
import EventRelay.Proofs.Stream.Tickers

/-!
# The course of an answer with heartbeats

What the producer is about tells how what it has sent goes with what the source has given
(`Course`), as long as the receiver is there and the ticker can be set. A step of the producer leads
from one place of the course to another. Once the receiver is gone the producer asks nothing and
stops with its next step.
-/

namespace EventRelay

namespace Heartbeats

open Offer (Over given)

variable {σ α ε : Type} {src : Source σ α ε} {source : σ} {now : Nat} {s : Scene σ α ε}
  {rhythm gone gone' : Prop} {phase : Phase α ε} {frames first : List (Except ε (Frame α))}
  {answers more : List (Offer α ε)}

/-! ## Frames -/

theorem erased_snoc (frames : List (Except ε (Frame α))) (frame : Except ε (Frame α)) :
    erased (frames ++ [frame]) = erased frames ++ (content? frame).toList := by
  rw [erased, List.filterMap_append]
  cases h : content? frame <;> simp [erased, h]

/-- The frames begin with a heartbeat, carry a first part of what is `given`, and end with a failure
if there is one. -/
structure Framed (frames : List (Except ε (Frame α))) (answers : List (Offer α ε)) : Prop where
  opens : ∀ frame rest, frames = frame :: rest → frame = .ok .heartbeat
  carries : erased frames <+: given answers
  fails : ∀ before e after, frames = before ++ .error e :: after → after = []

namespace Framed

theorem nil (answers : List (Offer α ε)) : Framed [] answers :=
  ⟨nofun, List.nil_prefix, fun before e after h => by simp at h⟩

/-- The first of frames that are `Framed` are so too. -/
theorem take (h : Framed frames answers) (hfirst : first <+: frames) : Framed first answers := by
  obtain ⟨rest, rfl⟩ := hfirst
  refine ⟨fun frame rest' hcut => ?_, ?_, fun before e after hcut => ?_⟩
  · exact h.opens frame (rest' ++ rest) (by rw [hcut, List.cons_append])
  · refine List.IsPrefix.trans ?_ h.carries
    rw [erased, erased, List.filterMap_append]
    exact List.prefix_append _ _
  · have hnil := h.fails before e (after ++ rest) (by rw [hcut]; simp)
    exact (List.append_eq_nil_iff.1 hnil).1

/-- What the source answers later takes nothing back. -/
theorem mono (h : Framed frames answers) (more : List (Offer α ε)) :
    Framed frames (answers ++ more) :=
  ⟨h.opens, h.carries.trans (Offer.given_isInitial _ _), h.fails⟩

end Framed

/-- The answer is open: everything that was `given` was sent, and the source goes on. -/
structure Steady (frames : List (Except ε (Frame α))) (answers : List (Offer α ε)) : Prop where
  opened : ∃ rest, frames = .ok .heartbeat :: rest
  sound : ∀ e, .error e ∉ frames
  goesOn : ¬ Over answers
  same : erased frames = given answers

namespace Steady

theorem opening : Steady [.ok .heartbeat] ([] : List (Offer α ε)) :=
  ⟨⟨[], rfl⟩, fun e h => by simp at h, fun ⟨_, h, _⟩ => by simp at h, rfl⟩

/-- What was sent is `Framed`, whatever the producer is about. -/
theorem framed (h : Steady frames answers) (more : List (Offer α ε)) :
    Framed frames (answers ++ more) := by
  refine ⟨fun frame rest hcut => ?_, ?_, fun before e after hcut => ?_⟩
  · obtain ⟨_, hopened⟩ := h.opened
    exact (List.cons.inj (hcut.symm.trans hopened)).1
  · rw [h.same]
    exact Offer.given_isInitial _ _
  · exact absurd (hcut ▸ List.mem_append_right _ List.mem_cons_self) (h.sound e)

theorem pending (h : Steady frames answers) : Steady frames (answers ++ [.pending]) where
  opened := h.opened
  sound := h.sound
  goesOn hover := (Offer.over_snoc.1 hover).elim h.goesOn nofun
  same := by rw [Offer.given_append _ h.goesOn, h.same, given, given, List.append_nil]

theorem beat (h : Steady frames answers) : Steady (frames ++ [.ok .heartbeat]) answers where
  opened := by
    obtain ⟨rest, rfl⟩ := h.opened
    exact ⟨rest ++ [.ok .heartbeat], rfl⟩
  sound e hmem := by
    rcases List.mem_append.1 hmem with hmem | hmem
    · exact h.sound e hmem
    · cases List.mem_singleton.1 hmem
  goesOn := h.goesOn
  same := by rw [erased_snoc, h.same, content?, Option.toList_none, List.append_nil]

/-- An item that was given and sent leaves the answer `Steady`. -/
theorem item (h : Steady frames answers) (a : α) :
    Steady (frames ++ [.ok (.item a)]) (answers ++ [.item a]) where
  opened := by
    obtain ⟨rest, rfl⟩ := h.opened
    exact ⟨rest ++ [.ok (.item a)], rfl⟩
  sound e hmem := by
    rcases List.mem_append.1 hmem with hmem | hmem
    · exact h.sound e hmem
    · cases List.mem_singleton.1 hmem
  goesOn hover := (Offer.over_snoc.1 hover).elim h.goesOn nofun
  same := by
    rw [erased_snoc, h.same, Offer.given_append _ h.goesOn]
    rfl

end Steady

/-- The source is `Over` and everything that was `given` was sent. -/
structure Closing (frames : List (Except ε (Frame α))) (answers : List (Offer α ε)) : Prop where
  framed : Framed frames answers
  finished : Over answers
  same : erased frames = given answers

theorem Steady.ended (h : Steady frames answers) : Closing frames (answers ++ [.ended]) where
  framed := h.framed _
  finished := Offer.over_snoc.2 (.inr rfl)
  same := by rw [Offer.given_append _ h.goesOn, h.same, given, List.append_nil]

/-- A failure that is sent as the last frame is what a `Steady` source gave last. -/
theorem Steady.failed (h : Steady frames answers) (e : ε) :
    Closing (frames ++ [.error e]) (answers ++ [.failure e]) := by
  have hsame : erased (frames ++ [.error e]) = given (answers ++ [.failure e]) := by
    rw [erased_snoc, h.same, Offer.given_append _ h.goesOn]
    rfl
  refine ⟨⟨fun frame rest hcut => ?_, ?_, fun before e' after hcut => ?_⟩,
    Offer.over_snoc.2 (.inr rfl), hsame⟩
  · obtain ⟨_, rfl⟩ := h.opened
    exact (List.cons.inj hcut).1.symm
  · exact hsame ▸ List.prefix_rfl
  · rcases List.eq_nil_or_concat after with rfl | ⟨init, last, rfl⟩
    · rfl
    · -- a failure before the last frame would be among those before
      have hinit : frames = before ++ .error e' :: init := by
        rw [List.concat_eq_append, ← List.cons_append, ← List.append_assoc] at hcut
        exact (List.append_inj' hcut rfl).1
      exact absurd (hinit ▸ List.mem_append_right _ List.mem_cons_self) (h.sound e')

/-! ## The course -/

/-- What was sent and answered by the time the producer is about something, phase by phase. -/
inductive Course (rhythm gone : Prop) :
    Phase α ε → List (Except ε (Frame α)) → List (Offer α ε) → Prop
  | opening : Course rhythm gone .opening [] []
  | waiting : ∀ {frames answers}, Steady frames answers →
      Course rhythm gone .waiting frames answers
  | beating : ∀ {frames answers}, Steady frames answers →
      Course rhythm gone (.sending (.ok .heartbeat)) frames answers
  | item (a : α) : ∀ {frames answers}, Steady frames answers →
      Course rhythm gone (.sending (.ok (.item a))) frames (answers ++ [.item a])
  | failing (e : ε) : ∀ {frames answers}, Steady frames answers →
      Course rhythm gone (.sending (.error e)) frames (answers ++ [.failure e])
  | closed : ∀ {frames answers}, Closing frames answers →
      Course rhythm gone .stopped frames answers
  /-- The ticker is not `Ticker.Settable`. -/
  | halted : ∀ {frames answers}, ¬ rhythm → Framed frames answers →
      Course rhythm gone .stopped frames answers
  | deserted : ∀ {frames answers}, gone → Framed frames answers →
      Course rhythm gone .stopped frames answers

namespace Course

theorem mono (h : Course rhythm gone phase frames answers) (hgone : gone → gone') :
    Course rhythm gone' phase frames answers := by
  cases h with
  | opening => exact .opening
  | waiting hsteady => exact .waiting hsteady
  | beating hsteady => exact .beating hsteady
  | item a hsteady => exact .item a hsteady
  | failing e hsteady => exact .failing e hsteady
  | closed hclosing => exact .closed hclosing
  | halted hnone hframed => exact .halted hnone hframed
  | deserted hg hframed => exact .deserted (hgone hg) hframed

theorem framed (h : Course rhythm gone phase frames answers) : Framed frames answers := by
  cases h with
  | opening => exact .nil _
  | waiting hsteady | beating hsteady => simpa using hsteady.framed []
  | item a hsteady | failing e hsteady => exact hsteady.framed _
  | closed hclosing => exact hclosing.framed
  | halted _ hframed | deserted _ hframed => exact hframed

theorem opens (h : Course rhythm gone .opening frames answers) : frames = [] ∧ answers = [] := by
  cases h with
  | opening => exact ⟨rfl, rfl⟩

theorem steady (h : Course rhythm gone .waiting frames answers) : Steady frames answers := by
  cases h with
  | waiting hsteady => exact hsteady

/-- A producer that stopped, with a rhythm and a receiver, is `Closing`: it had no other reason. -/
theorem closing (h : Course rhythm gone .stopped frames answers) (hrhythm : rhythm)
    (hthere : ¬ gone) : Closing frames answers := by
  cases h with
  | closed hclosing => exact hclosing
  | halted hnone => exact absurd hrhythm hnone
  | deserted hgone => exact absurd hgone hthere

theorem beat (h : Course rhythm gone (.sending (.ok .heartbeat)) frames answers) :
    Course rhythm gone .waiting (frames ++ [.ok .heartbeat]) answers := by
  cases h with
  | beating hsteady => exact .waiting hsteady.beat

/-- What was sent is `Steady` when the item is through, for a producer that then waits or halts. -/
theorem deliver {a : α} (h : Course rhythm gone (.sending (.ok (.item a))) frames answers) :
    Steady (frames ++ [.ok (.item a)]) answers := by
  cases h with
  | item _ hsteady => exact hsteady.item a

/-- The producer sets its ticker, or halts if it is not `Ticker.Settable`. -/
theorem restart {p : Producer σ α ε} (h : Steady frames answers)
    (hset : rhythm → Ticker.Settable p.ticker.interval now) :
    Course rhythm gone (restart now p).phase frames answers := by
  rcases restart_eq now p with ⟨heq, -⟩ | ⟨heq, hnot⟩
  · rw [heq]
    exact .waiting h
  · rw [heq]
    exact .halted (mt hset hnot) (by simpa using h.framed [])

theorem fail {e : ε} (h : Course rhythm gone (.sending (.error e)) frames answers) :
    Course rhythm gone .stopped (frames ++ [.error e]) answers := by
  cases h with
  | failing _ hsteady => exact .closed (hsteady.failed e)

end Course

/-- The scene is on its `Course`. Where there is a `rhythm` the ticker can be set at all times. -/
structure Orderly (src : Source σ α ε) (source : σ) (interval : Nat) (rhythm : Prop)
    (s : Scene σ α ε) : Prop where
  course : Course rhythm s.Deserted s.producer.phase s.frames (src.answers source s.asked)
  delivers : s.producer.channel.Delivers s.frames s.received
  source : src.after source s.asked = s.producer.source
  interval : s.producer.ticker.interval = interval
  size : s.producer.channel.capacity = capacity
  fits : s.producer.channel.held.length ≤ capacity

namespace Orderly

variable {interval : Nat} {p : Producer σ α ε} {frame : Except ε (Frame α)}

theorem start (src : Source σ α ε) (source : σ) (interval t : Nat) (rhythm : Prop) :
    Orderly src source interval rhythm (.start interval t source) where
  course := .opening
  delivers := ⟨fun _ => rfl, nofun, List.prefix_rfl⟩
  source := rfl
  interval := rfl
  size := rfl
  fits := Nat.zero_le _

/-- A frame was put into an open channel: it is among those that were sent, and will be
delivered. -/
theorem put (h : Orderly src source interval rhythm s) (hopen : ¬ s.Deserted)
    (hroom : s.producer.channel.HasRoom) (hchannel : p.channel = (s.producer.put frame).channel)
    (hsource : p.source = s.producer.source)
    (hinterval : p.ticker.interval = s.producer.ticker.interval)
    (hcourse : Course rhythm s.Deserted p.phase (s.frames ++ [frame])
      (src.answers source s.asked)) :
    Orderly src source interval rhythm
      { s with producer := p, sent := s.sent ++ [(now, frame)] } where
  course := by
    rw [Scene.frames, List.map_append]
    exact hcourse.mono fun hgone => absurd hgone hopen
  delivers := by
    rw [Scene.frames, List.map_append, hchannel]
    exact h.delivers.send (Bool.eq_false_iff.2 hopen)
  source := h.source.trans hsource.symm
  interval := hinterval.trans h.interval
  size := by
    rw [hchannel]
    exact h.size
  fits := by
    rw [hchannel, Producer.put, List.length_append, ← h.size]
    exact hroom

/-- The source was asked: its answer is among those that it gives at these instants. -/
theorem ask (h : Orderly src source interval rhythm s) {o : Offer α ε}
    (hask : src.ask now s.producer.source = (o, p.source))
    (hchannel : p.channel = s.producer.channel)
    (hinterval : p.ticker.interval = s.producer.ticker.interval)
    (hcourse : Course rhythm s.Deserted p.phase s.frames
      (src.answers source s.asked ++ [o])) :
    Orderly src source interval rhythm { s with producer := p, asked := s.asked ++ [now] } where
  course := by
    rw [Source.answers_snoc, h.source, hask]
    exact hcourse.mono fun hgone => (congrArg Channel.closed hchannel).trans hgone
  delivers := hchannel ▸ h.delivers
  source := by rw [Source.after_snoc, h.source, hask]
  interval := hinterval.trans h.interval
  size := hchannel ▸ h.size
  fits := hchannel ▸ h.fits

theorem interval_restart (now : Nat) (p : Producer σ α ε) :
    (restart now p).ticker.interval = p.ticker.interval := by
  rcases restart_eq now p with ⟨heq, -⟩ | ⟨heq, -⟩
  · rw [heq]
    rfl
  · rw [heq]

theorem source_restart (now : Nat) (p : Producer σ α ε) : (restart now p).source = p.source := by
  rcases restart_eq now p with ⟨heq, -⟩ | ⟨heq, -⟩ <;> rw [heq]

/-- A frame behind which the ticker is set anew. -/
theorem put_restart (h : Orderly src source interval rhythm s) (hopen : ¬ s.Deserted)
    (hroom : s.producer.channel.HasRoom)
    (hsteady : Steady (s.frames ++ [frame]) (src.answers source s.asked))
    (hset : rhythm → Ticker.Settable interval now) :
    Orderly src source interval rhythm
      { s with
        producer := restart now (s.producer.put frame)
        sent := s.sent ++ [(now, frame)] } := by
  refine h.put hopen hroom (channel_restart _ _) (source_restart _ _) (interval_restart _ _) ?_
  exact .restart hsteady fun hrhythm => h.interval.symm ▸ hset hrhythm

/-- A step of the producer keeps the scene `Orderly`. By cases on what it `produced`. -/
theorem produce (h : Orderly src source interval rhythm s)
    (hset : rhythm → Ticker.Settable interval now) :
    Orderly src source interval rhythm (s.produce src now) := by
  have hcourse := h.course
  have hproduced := produced src now s
  generalize (step src now s.producer).rests = rests, s.produce src now = s' at hproduced
  cases hproduced with
  | stopped | full => exact h
  | refused hgone => exact { h with course := .deserted hgone hcourse.framed }
  | opened hopen hroom hphase =>
    rw [hphase] at hcourse
    obtain ⟨hframes, hanswers⟩ := hcourse.opens
    refine h.put_restart hopen hroom ?_ hset
    rw [hframes, hanswers]
    exact .opening
  | @sent frame hopen hroom hphase =>
    rw [hphase] at hcourse
    rcases frame with e | _ | a
    · exact h.put hopen hroom rfl rfl rfl hcourse.fail
    · exact h.put hopen hroom rfl rfl rfl hcourse.beat
    · exact h.put_restart hopen hroom hcourse.deliver hset
  | item hopen hphase hask =>
    rw [hphase] at hcourse
    exact h.ask hask rfl rfl (.item _ hcourse.steady)
  | failure hopen hphase hask =>
    rw [hphase] at hcourse
    exact h.ask hask rfl rfl (.failing _ hcourse.steady)
  | ended hopen hphase hask =>
    rw [hphase] at hcourse
    exact h.ask hask rfl rfl (.closed hcourse.steady.ended)
  | tick hopen hphase hask =>
    rw [hphase] at hcourse
    exact h.ask hask rfl (Ticker.interval_take _ _) (.beating hcourse.steady.pending)
  | halted hopen hphase hask _ hnot =>
    rw [hphase] at hcourse
    refine h.ask hask rfl rfl (.halted (fun hrhythm => ?_) (hcourse.steady.framed _))
    have htake := Ticker.canTake_of_settable (h.interval.symm ▸ hset hrhythm)
    cases hnot.symm.trans htake
  | idle hopen hphase hask =>
    rw [hphase] at hcourse
    refine h.ask hask rfl rfl ?_
    rw [hphase]
    exact .waiting hcourse.steady.pending

theorem take (h : Orderly src source interval rhythm s) :
    Orderly src source interval rhythm s.take := by
  unfold Scene.take
  split
  · next frame channel htake =>
    obtain ⟨rest, hheld, rfl⟩ := Channel.eq_of_take? htake
    refine ⟨h.course, h.delivers.take htake, h.source, h.interval, h.size, ?_⟩
    have hfits := h.fits
    rw [hheld, List.length_cons] at hfits
    exact Nat.le_of_succ_le hfits
  · exact h

/-- Who takes a frame makes room for one, in a scene that is `Orderly`. -/
theorem room_take (h : Orderly src source interval rhythm s) :
    s.take.producer.channel.HasRoom := by
  obtain ⟨channel, received, htake, -, hcapacity, hlength⟩ := s.take_eq
  have hfits := h.fits
  have hsize := h.size
  unfold capacity at hfits hsize
  rw [htake, Channel.HasRoom, hlength, hcapacity]
  omega

theorem drop (h : Orderly src source interval rhythm s) :
    Orderly src source interval rhythm s.drop where
  course := h.course.mono fun _ => rfl
  delivers := h.delivers.close
  source := h.source
  interval := h.interval
  size := h.size
  fits := Nat.zero_le _

/-- Every `Act` keeps the scene `Orderly`. -/
theorem act (h : Orderly src source interval rhythm s) (a : Act)
    (hset : rhythm → ∀ now ∈ a.now?, Ticker.Settable interval now) :
    Orderly src source interval rhythm (s.act src a) := by
  cases a with
  | produce now => exact h.produce fun hrhythm => hset hrhythm now rfl
  | take => exact h.take
  | drop => exact h.drop
  | slip now => exact (h.produce fun hrhythm => hset hrhythm now rfl).drop

/-- So do any acts, one after the other, where no rhythm is asked for. -/
theorem after (h : Orderly src source interval False s) (acts : List Act) :
    Orderly src source interval False (s.after src acts) := by
  induction acts generalizing s with
  | nil => exact h
  | cons a rest ih => exact ih (h.act a False.elim)

end Orderly

/-! ## Where the receiver is gone -/

/-- In a scene that is `Deserted` the producer stops at its next step, and asks no more. -/
theorem Scene.Deserted.produce (h : s.Deserted) (src : Source σ α ε) (now : Nat) :
    (s.produce src now).Deserted ∧ (s.produce src now).asked = s.asked ∧
      (s.produce src now).producer.phase = .stopped := by
  have hproduced := produced src now s
  generalize (step src now s.producer).rests = rests, s.produce src now = s' at hproduced ⊢
  cases hproduced with
  | stopped hphase => exact ⟨h, rfl, hphase⟩
  | refused => exact ⟨h, rfl, rfl⟩
  | full hopen | opened hopen | sent hopen | item hopen | failure hopen | ended hopen | tick hopen
  | halted hopen | idle hopen => exact absurd h hopen

theorem Scene.Deserted.act (h : s.Deserted) (a : Act) :
    (s.act src a).Deserted ∧ (s.act src a).asked = s.asked := by
  cases a with
  | produce now => exact ⟨(h.produce src now).1, (h.produce src now).2.1⟩
  | take =>
    obtain ⟨channel, received, htake, hclosed, -⟩ := s.take_eq
    rw [Scene.act, htake]
    exact ⟨hclosed.trans h, rfl⟩
  | drop => exact ⟨rfl, rfl⟩
  | slip now => exact ⟨rfl, (h.produce src now).2.1⟩

/-- A source is not asked any more once the scene is `Deserted`. -/
theorem Scene.Deserted.asked_after (h : s.Deserted) (acts : List Act) :
    (s.after src acts).asked = s.asked := by
  induction acts generalizing s with
  | nil => rfl
  | cons a rest ih => exact (ih (h.act a).1).trans (h.act a).2

theorem Scene.produce_of_stopped (h : s.producer.phase = .stopped) (now : Nat) :
    s.produce src now = s :=
  Scene.produce_quiet (r := .resting s.producer) (by simp only [step, h])
    (by simp only [asks, h]) rfl

theorem Scene.phase_act_of_stopped (h : s.producer.phase = .stopped) (a : Act) :
    (s.act src a).producer.phase = .stopped := by
  cases a with
  | produce now => rwa [act, produce_of_stopped h]
  | take =>
    obtain ⟨channel, received, htake, -⟩ := s.take_eq
    rwa [act, htake]
  | drop => exact h
  | slip now => rwa [act, produce_of_stopped h]

theorem Scene.phase_after_of_stopped (h : s.producer.phase = .stopped) (acts : List Act) :
    (s.after src acts).producer.phase = .stopped := by
  induction acts generalizing s with
  | nil => exact h
  | cons a rest ih => exact ih (phase_act_of_stopped h a)

theorem Scene.Deserted.phase_after (h : s.Deserted) {acts : List Act} {now : Nat}
    (hacts : .produce now ∈ acts) : (s.after src acts).producer.phase = .stopped := by
  induction acts generalizing s with
  | nil => cases hacts
  | cons a rest ih =>
    rcases List.mem_cons.1 hacts with rfl | hrest
    · exact Scene.phase_after_of_stopped (h.produce src now).2.2 rest
    · exact ih (h.act a).1 hrest

theorem Scene.length_asked_produce (src : Source σ α ε) (s : Scene σ α ε) (now : Nat) :
    (s.produce src now).asked.length ≤ s.asked.length + 1 := by
  rw [produce, List.length_append]
  rcases asks_cases now s.producer with hasks | hasks <;> rw [hasks]
  · exact Nat.le_succ _
  · exact Nat.le_refl _

/-- The receiver goes: the scene is `Deserted`, and the source was asked once more at most. -/
theorem Scene.parting {a : Act} (s : Scene σ α ε) (ha : a.isParting = true) :
    (s.act src a).Deserted ∧ (s.act src a).asked.length ≤ s.asked.length + 1 := by
  cases a with
  | produce now | take => cases ha
  | drop => exact ⟨rfl, Nat.le_succ _⟩
  | slip now => exact ⟨rfl, s.length_asked_produce src now⟩

end Heartbeats

end EventRelay
