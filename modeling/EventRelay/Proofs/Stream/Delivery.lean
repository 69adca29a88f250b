import EventRelay.Proofs.Stream.Course

/-!
# What an answer with heartbeats delivers

Heartbeats do not alter what the source gives. What a receiver has got carries, heartbeats apart, a
first part of what the source gives up to its end or first failure. A receiver that keeps reading
gets all of that, if the source ends or fails at all, and then the end. For the producer can always
go on after a while: where the channel is full the receiver makes room, so the source is asked again
and again as time goes on. All this takes a ticker that can be set (`Ticker.Settable`) as long as
the source is read. Where there is no time between the heartbeats, or more than any clock can
measure, the first one is the whole answer.
-/

namespace EventRelay.Heartbeats

open Offer (Over given)

variable {σ α ε : Type} {src : Source σ α ε} {source : σ} {interval t now : Nat}
  {s : Scene σ α ε} {plan : Nat → Act} {limit m n : Nat} {rhythm : Prop}

/-- The scene after this many acts of a plan, each by `Scene.act`. -/
def Scene.along (src : Source σ α ε) (plan : Nat → Act) (s : Scene σ α ε) : Nat → Scene σ α ε
  | 0 => s
  | n + 1 => (s.along src plan n).act src (plan n)

/-- The receiver stays and takes frames again and again, and it is the producer's turn again and
again as time goes on up to a limit. -/
structure KeepsReading (plan : Nat → Act) (limit : Nat) : Prop where
  stays : ∀ n, (plan n).isParting = false
  takes : ∀ n, ∃ m, n ≤ m ∧ plan m = .take
  produces : ∀ n t, t ≤ limit → ∃ m now, n ≤ m ∧ t ≤ now ∧ plan m = .produce now
  within : ∀ n now, plan n = .produce now → now ≤ limit
  clock : ∀ m n now later, m ≤ n → plan m = .produce now → plan n = .produce later → now ≤ later

/-- The source is `Over`. The receiver has got all that it gives, however it is asked further on,
and has come to the end of the answer. -/
structure Scene.Complete (src : Source σ α ε) (source : σ) (s : Scene σ α ε) : Prop where
  finished : Over (src.answers source s.asked)
  whole : ∀ more, erased s.received = given (src.answers source (s.asked ++ more))
  stopped : s.producer.phase = .stopped
  empty : s.producer.channel.held = []

/-- The source was never asked. The receiver has got one heartbeat and come to the end. -/
structure Scene.Mute (s : Scene σ α ε) : Prop where
  unasked : s.asked = []
  received : s.received = [.ok .heartbeat]
  stopped : s.producer.phase = .stopped
  empty : s.producer.channel.held = []

/-! ## Plans -/

theorem Orderly.along (h : Orderly src source interval rhythm s) (plan : Nat → Act)
    (hset : rhythm → ∀ n, ∀ now ∈ (plan n).now?, Ticker.Settable interval now) (n : Nat) :
    Orderly src source interval rhythm (s.along src plan n) := by
  induction n with
  | zero => exact h
  | succ n ih => exact ih.act (plan n) fun hrhythm => hset hrhythm n

/-- A ticker that is `Ticker.Settable` at the limit is so whenever it is the producer's turn. -/
theorem KeepsReading.settable (h : KeepsReading plan limit) (hset : Ticker.Settable interval limit)
    (n : Nat) : ∀ now ∈ (plan n).now?, Ticker.Settable interval now := by
  intro now hnow
  have hstays := h.stays n
  cases hact : plan n with
  | produce t =>
    rw [hact] at hnow
    obtain rfl := Option.some.inj hnow
    exact hset.mono (h.within n t hact)
  | take =>
    rw [hact] at hnow
    cases hnow
  | drop | slip =>
    rw [hact] at hstays
    cases hstays

theorem KeepsReading.turn (h : KeepsReading plan limit) (n : Nat) :
    plan n = .take ∨ ∃ now, plan n = .produce now := by
  have hstays := h.stays n
  cases hact : plan n with
  | produce now => exact .inr ⟨now, rfl⟩
  | take => exact .inl rfl
  | drop | slip =>
    rw [hact] at hstays
    cases hstays

/-- What other acts keep is still so where the next act of a kind comes. -/
theorem exists_next {P : Scene σ α ε → Prop} {q : Act → Prop} (hnm : n ≤ m) (hq : q (plan m))
    (hP : P (s.along src plan n))
    (hkeep : ∀ k (s : Scene σ α ε), ¬ q (plan k) → P s → P (s.act src (plan k))) :
    ∃ k, n ≤ k ∧ q (plan k) ∧ P (s.along src plan k) := by
  -- by how many acts it is to the one that is known
  obtain ⟨d, rfl⟩ := Nat.exists_eq_add_of_le hnm
  clear hnm
  induction d generalizing n with
  | zero => exact ⟨n, Nat.le_refl n, hq, hP⟩
  | succ d ih =>
    by_cases hnow : q (plan n)
    · exact ⟨n, Nat.le_refl n, hnow, hP⟩
    · rw [← Nat.add_assoc, Nat.add_right_comm] at hq
      obtain ⟨k, hk, hrest⟩ := ih (n := n + 1) (hkeep n _ hnow hP) hq
      exact ⟨k, Nat.le_of_succ_le hk, hrest⟩

/-- The producer has another turn on the plan, `Act.produce`, and what the receiver keeps holds
there. -/
theorem KeepsReading.exists_produce (h : KeepsReading plan limit) {P : Scene σ α ε → Prop}
    (hP : P (s.along src plan n)) (hkeep : ∀ s : Scene σ α ε, P s → P s.take) :
    ∃ k now, n ≤ k ∧ plan k = .produce now ∧ P (s.along src plan k) := by
  obtain ⟨m, now, hm, -, hact⟩ := h.produces n 0 (Nat.zero_le _)
  obtain ⟨k, hk, ⟨later, hlater⟩, hPk⟩ :=
    exists_next (q := fun a => ∃ now, a = .produce now) hm ⟨now, hact⟩ hP fun k s hnot hs => by
      rcases h.turn k with htake | hproduce
      · rw [htake]
        exact hkeep s hs
      · exact absurd hproduce hnot
  exact ⟨k, later, hk, hlater, hPk⟩

/-- The receiver has another turn on the plan, `Act.take`, and what the producer keeps holds
there. -/
theorem KeepsReading.exists_take (h : KeepsReading plan limit) {P : Scene σ α ε → Prop}
    (hP : P (s.along src plan n)) (hkeep : ∀ (s : Scene σ α ε) now, P s → P (s.produce src now)) :
    ∃ k, n ≤ k ∧ plan k = .take ∧ P (s.along src plan k) := by
  obtain ⟨m, hm, hact⟩ := h.takes n
  refine exists_next (q := (· = .take)) hm hact hP fun k s hnot hs => ?_
  rcases h.turn k with htake | ⟨now, hproduce⟩
  · exact absurd htake hnot
  · rw [hproduce]
    exact hkeep s now hs

/-! ## The source is asked again and again -/

theorem Scene.deserted_act {a : Act} (ha : a.isParting = false) (h : ¬ s.Deserted) :
    ¬ (s.act src a).Deserted := by
  cases a with
  | drop | slip => cases ha
  | take =>
    obtain ⟨channel, received, htake, hclosed, -⟩ := s.take_eq
    rw [act, htake]
    exact fun hgone => h (hclosed.symm.trans hgone)
  | produce now =>
    have hproduced := produced src now s
    rw [act]
    generalize (step src now s.producer).rests = rests, s.produce src now = s' at hproduced ⊢
    cases hproduced with
    | refused hgone => exact absurd hgone h
    | opened =>
      rw [Deserted, channel_restart]
      exact h
    | sent =>
      rw [Deserted, channel_afterFrame]
      exact h
    | stopped | full | item | failure | ended | tick | halted | idle => exact h

theorem KeepsReading.open_along (h : KeepsReading plan limit) (hs : ¬ s.Deserted) (n : Nat) :
    ¬ (s.along src plan n).Deserted := by
  induction n with
  | zero => exact hs
  | succ n ih => exact Scene.deserted_act (h.stays n) ih

theorem phase_restart (now : Nat) (p : Producer σ α ε) :
    (restart now p).phase = .waiting ∨ (restart now p).phase = .stopped := by
  rcases restart_eq now p with ⟨heq, -⟩ | ⟨heq, -⟩
  · exact .inl (by rw [heq])
  · exact .inr (by rw [heq])

/-- Where the channel `HasRoom`, a producer that has a frame to send sends it. -/
theorem phase_produce_of_room (src : Source σ α ε) (now : Nat) (hopen : ¬ s.Deserted)
    (hroom : s.producer.channel.HasRoom) (hphase : s.producer.phase ≠ .waiting) :
    (s.produce src now).producer.phase = .waiting ∨
      (s.produce src now).producer.phase = .stopped := by
  have hproduced := produced src now s
  generalize (step src now s.producer).rests = rests, s.produce src now = s' at hproduced ⊢
  cases hproduced with
  | stopped hstopped => exact .inr hstopped
  | refused hgone => exact absurd hgone hopen
  | full _ hfull => exact absurd hroom hfull
  | opened => exact phase_restart _ _
  | @sent frame =>
    rcases frame with e | _ | a
    · exact .inr rfl
    · exact .inl rfl
    · exact phase_restart _ _
  | item _ hwaiting | failure _ hwaiting | ended _ hwaiting | tick _ hwaiting
  | halted _ hwaiting | idle _ hwaiting => exact absurd hwaiting hphase

theorem Scene.room_take (h : s.producer.channel.HasRoom) : s.take.producer.channel.HasRoom := by
  obtain ⟨channel, received, htake, -, hcapacity, hlength⟩ := s.take_eq
  unfold Channel.HasRoom at h
  rw [htake, Channel.HasRoom, hlength, hcapacity]
  omega

/-- Along a plan that `KeepsReading`, the producer comes to ask the source, or it stops. -/
theorem KeepsReading.exists_asking (h : KeepsReading plan limit)
    (hs : Orderly src source interval False s) (hopen : ¬ s.Deserted) (n : Nat) :
    (∃ m, (s.along src plan m).producer.phase = .stopped) ∨
      ∃ m now, n ≤ m ∧ plan m = .produce now ∧ (s.along src plan m).producer.phase = .waiting := by
  obtain ⟨k, hnk, htake⟩ := h.takes n
  have hroom : (s.along src plan (k + 1)).producer.channel.HasRoom := by
    rw [Scene.along, htake]
    exact (hs.along plan False.elim k).room_take
  -- nothing but the producer takes up the room that was made
  obtain ⟨l, now, hkl, hl, hroom', hphase⟩ :=
    h.exists_produce
      (P := fun x => x.producer.channel.HasRoom ∧
        x.producer.phase = (s.along src plan (k + 1)).producer.phase)
      ⟨hroom, rfl⟩ fun x hx => ⟨Scene.room_take hx.1, x.phase_take.trans hx.2⟩
  by_cases hwaiting : (s.along src plan l).producer.phase = .waiting
  · exact .inr ⟨l, now, by omega, hl, hwaiting⟩
  have hnext := phase_produce_of_room src now (h.open_along hopen l) hroom' hwaiting
  have hstep : s.along src plan (l + 1) = (s.along src plan l).produce src now := by
    rw [Scene.along, hl, Scene.act]
  rw [← hstep] at hnext
  refine hnext.symm.imp (fun hstopped => ⟨l + 1, hstopped⟩) fun hnow => ?_
  obtain ⟨m, later, hm, hact, hstill⟩ :=
    h.exists_produce (P := fun x => x.producer.phase = .waiting) hnow
      fun x hx => x.phase_take.trans hx
  exact ⟨m, later, by omega, hact, hstill⟩

/-! ## It is asked as time goes on -/

theorem Scene.asked_act (s : Scene σ α ε) (a : Act) : s.asked <+: (s.act src a).asked := by
  cases a with
  | produce now | slip now => exact List.prefix_append _ _
  | take =>
    obtain ⟨channel, received, htake, -⟩ := s.take_eq
    simp only [act, htake, List.prefix_rfl]
  | drop => exact List.prefix_rfl

/-- `Scene.asked` stays on record as a scene goes on. -/
theorem Scene.asked_along (src : Source σ α ε) (plan : Nat → Act) (s : Scene σ α ε) (hmn : m ≤ n) :
    (s.along src plan m).asked <+: (s.along src plan n).asked := by
  induction hmn with
  | refl => exact List.prefix_rfl
  | step _ ih => exact ih.trans (asked_act _ _)

theorem Scene.getElem?_asked_along (src : Source σ α ε) (plan : Nat → Act) (s : Scene σ α ε)
    (hmn : m ≤ n) {k : Nat} (hk : k < (s.along src plan m).asked.length) :
    (s.along src plan n).asked[k]? = (s.along src plan m).asked[k]? := by
  obtain ⟨rest, hrest⟩ := s.asked_along src plan hmn
  rw [← hrest, List.getElem?_append_left hk]

/-- Along a plan the source is asked where it is the producer's turn, and so later and later. -/
theorem KeepsReading.asked (h : KeepsReading plan limit) (hs : s.asked = []) (n : Nat) :
    (∀ x ∈ (s.along src plan n).asked, ∃ m, m < n ∧ plan m = .produce x) ∧
      (s.along src plan n).asked.Pairwise (· ≤ ·) := by
  induction n with
  | zero => simp [Scene.along, hs]
  | succ n ih =>
    obtain ⟨hturns, hsorted⟩ := ih
    have hbefore : ∀ x ∈ (s.along src plan n).asked, ∃ m, m < n + 1 ∧ plan m = .produce x :=
      fun x hx => (hturns x hx).imp fun m hm => ⟨Nat.lt_succ_of_lt hm.1, hm.2⟩
    rw [Scene.along]
    rcases h.turn n with htake | ⟨now, hproduce⟩
    · rw [htake, Scene.act, Scene.asked_take]
      exact ⟨hbefore, hsorted⟩
    · rw [hproduce, Scene.act, Scene.produce]
      rcases asks_cases now (s.along src plan n).producer with hasks | hasks <;> rw [hasks]
      · rw [List.append_nil]
        exact ⟨hbefore, hsorted⟩
      · refine ⟨fun x hx => ?_, List.pairwise_append.2 ⟨hsorted, List.pairwise_singleton _ _, ?_⟩⟩
        · rcases List.mem_append.1 hx with hx | hx
          · exact hbefore x hx
          · exact ⟨n, Nat.lt_succ_self n, List.mem_singleton.1 hx ▸ hproduce⟩
        · intro x hx y hy
          obtain ⟨m, hm, hact⟩ := hturns x hx
          rw [List.mem_singleton.1 hy]
          exact h.clock m n x now (Nat.le_of_lt hm) hact hproduce

theorem Scene.asked_produce (hopen : ¬ s.Deserted) (hphase : s.producer.phase = .waiting) :
    (s.produce src now).asked = s.asked ++ [now] := by
  have hasks : asks now s.producer = [now] := by
    simp only [asks, hphase]
    exact if_neg hopen
  rw [produce, hasks]

/-- Along the plan `Scene.asked` grows without end, as time goes on up to the limit. -/
def Endless (src : Source σ α ε) (plan : Nat → Act) (limit : Nat) (s : Scene σ α ε) : Prop :=
  ∀ n t, t ≤ limit → ∃ m now, n ≤ m ∧ t ≤ now ∧ (s.along src plan m).producer.phase = .waiting ∧
    (s.along src plan (m + 1)).asked = (s.along src plan m).asked ++ [now]

/-- A producer that never stops is `Endless`. -/
theorem KeepsReading.endless (h : KeepsReading plan limit)
    (hs : Orderly src source interval False s)
    (hopen : ¬ s.Deserted) (hnever : ∀ n, (s.along src plan n).producer.phase ≠ .stopped) :
    Endless src plan limit s := by
  intro n t ht
  obtain ⟨k, now, hk, hnow, hact⟩ := h.produces n t ht
  rcases h.exists_asking hs hopen k with ⟨m, hstopped⟩ | ⟨m, later, hm, hlater, hwaiting⟩
  · exact absurd hstopped (hnever m)
  · refine ⟨m, later, Nat.le_trans hk hm, ?_, hwaiting, ?_⟩
    · exact Nat.le_trans hnow (h.clock k m now later hm hact hlater)
    · rw [Scene.along, hlater]
      exact Scene.asked_produce (h.open_along hopen m) hwaiting

theorem Endless.exists_lt_length (h : Endless src plan limit s) (k : Nat) :
    ∃ n, k < (s.along src plan n).asked.length := by
  induction k with
  | zero =>
    obtain ⟨m, now, -, -, -, hasked⟩ := h 0 0 (Nat.zero_le _)
    exact ⟨m + 1, by simp [hasked]⟩
  | succ k ih =>
    obtain ⟨n, hn⟩ := ih
    obtain ⟨m, now, hm, -, -, hasked⟩ := h n 0 (Nat.zero_le _)
    have hle := (s.asked_along src plan hm).length_le
    refine ⟨m + 1, ?_⟩
    rw [hasked, List.length_append, List.length_singleton]
    omega

/-- These are the instants of `Scene.asked`, however far a scene has come. -/
def AskedAt (src : Source σ α ε) (plan : Nat → Act) (s : Scene σ α ε) (instants : Nat → Nat) :
    Prop :=
  ∀ n k, k < (s.along src plan n).asked.length →
    (s.along src plan n).asked[k]? = some (instants k)

/-- A source that is asked without end is `AskedAt` some sequence of instants. -/
theorem Endless.exists_askedAt (h : Endless src plan limit s) :
    ∃ instants, AskedAt src plan s instants := by
  -- what was asked first stays, so any scene that has come so far tells the same instant
  have hreach : ∀ k, ∃ t n, (s.along src plan n).asked[k]? = some t := fun k =>
    let ⟨n, hn⟩ := h.exists_lt_length k
    ⟨_, n, List.getElem?_eq_getElem hn⟩
  obtain ⟨instants, hinstants⟩ := Classical.skolem.1 hreach
  refine ⟨instants, fun n k hk => ?_⟩
  obtain ⟨m, hm⟩ := hinstants k
  rw [← hm]
  rcases Nat.le_total n m with hle | hle
  · exact (s.getElem?_asked_along src plan hle hk).symm
  · exact s.getElem?_asked_along src plan hle (List.getElem?_eq_some_iff.1 hm).1

namespace AskedAt

variable {instants : Nat → Nat} {i j : Nat}

/-- The instants at which it is asked do not go back. -/
theorem mono (h : AskedAt src plan s instants) (hendless : Endless src plan limit s)
    (hplan : KeepsReading plan limit) (hs : s.asked = []) (hij : i ≤ j) :
    instants i ≤ instants j := by
  obtain ⟨n, hn⟩ := hendless.exists_lt_length j
  rcases Nat.eq_or_lt_of_le hij with rfl | hlt
  · exact Nat.le_refl _
  · obtain ⟨hi, hgeti⟩ := List.getElem?_eq_some_iff.1 (h n i (Nat.lt_trans hlt hn))
    obtain ⟨hj, hgetj⟩ := List.getElem?_eq_some_iff.1 (h n j hn)
    rw [← hgeti, ← hgetj]
    exact List.pairwise_iff_getElem.1 (hplan.asked hs n).2 i j hi hj hlt

/-- They come up to the limit. -/
theorem exists_limit_le (h : AskedAt src plan s instants) (hendless : Endless src plan limit s) :
    ∃ k, limit ≤ instants k := by
  obtain ⟨m, now, -, ht, -, hnow⟩ := hendless 0 limit (Nat.le_refl _)
  refine ⟨(s.along src plan m).asked.length, ?_⟩
  have hlast := h (m + 1) (s.along src plan m).asked.length (by simp [hnow])
  rw [hnow, List.getElem?_concat_length] at hlast
  exact Option.some.inj hlast ▸ ht

theorem le_limit (h : AskedAt src plan s instants) (hendless : Endless src plan limit s)
    (hplan : KeepsReading plan limit) (hs : s.asked = []) (k : Nat) : instants k ≤ limit := by
  obtain ⟨n, hn⟩ := hendless.exists_lt_length k
  obtain ⟨m, -, hact⟩ := (hplan.asked hs n).1 _ (List.mem_of_getElem? (h n k hn))
  exact hplan.within m _ hact

theorem first (h : AskedAt src plan s instants) {k : Nat}
    (hk : k ≤ (s.along src plan n).asked.length) :
    (List.range k).map instants <+: (s.along src plan n).asked := by
  refine List.prefix_iff_getElem?.2 fun i hi => ?_
  rw [List.length_map, List.length_range] at hi
  rw [h n i (Nat.lt_of_lt_of_le hi hk), List.getElem_map, List.getElem_range]

end AskedAt

/-- If the source `Ends`, the producer stops: it cannot ask without end, as the source would be
`Over` then. -/
theorem KeepsReading.exists_stopped (h : KeepsReading plan limit)
    (hs : Orderly src source interval False s) (hopen : ¬ s.Deserted) (hasked : s.asked = [])
    (hends : src.Ends source limit) : ∃ n, (s.along src plan n).producer.phase = .stopped := by
  apply Classical.byContradiction
  intro hnone
  have hendless := h.endless hs hopen fun n hn => hnone ⟨n, hn⟩
  obtain ⟨instants, hinstants⟩ := hendless.exists_askedAt
  obtain ⟨k, hover⟩ := hends instants (fun i j hij => hinstants.mono hendless h hasked hij)
    (hinstants.le_limit hendless h hasked) (hinstants.exists_limit_le hendless)
  -- the source ended or failed by the time of some scene, and the producer asks it later on
  obtain ⟨n, hn⟩ := hendless.exists_lt_length k
  obtain ⟨m, now, hm, -, hwaiting, -⟩ := hendless n 0 (Nat.zero_le _)
  have hcourse := (hs.along plan False.elim m).course
  rw [hwaiting] at hcourse
  obtain ⟨rest, hrest⟩ := hinstants.first
    (Nat.le_trans (Nat.le_of_lt hn) (s.asked_along src plan hm).length_le)
  refine hcourse.steady.goesOn ?_
  rw [← hrest, Source.answers_append]
  exact hover.append _

/-! ## The receiver gets the rest -/

/-- A receiver takes what a producer has left in the channel. By induction on how much that is. -/
theorem KeepsReading.exists_empty (h : KeepsReading plan limit) (k : Nat)
    (hstopped : (s.along src plan n).producer.phase = .stopped)
    (hk : (s.along src plan n).producer.channel.held.length = k) :
    ∃ m, (s.along src plan m).producer.phase = .stopped ∧
      (s.along src plan m).producer.channel.held = [] := by
  induction k generalizing n with
  | zero => exact ⟨n, hstopped, List.length_eq_zero_iff.1 hk⟩
  | succ k ih =>
    obtain ⟨m, -, htake, hsame, hheld⟩ :=
      h.exists_take
        (P := fun x => x.producer.phase = .stopped ∧ x.producer.channel.held.length = k + 1)
        ⟨hstopped, hk⟩ fun x now hx => by rwa [Scene.produce_of_stopped hx.1]
    obtain ⟨channel, received, heq, -, -, hlength⟩ := (s.along src plan m).take_eq
    have hnext : s.along src plan (m + 1) = (s.along src plan m).take := by
      rw [Scene.along, htake, Scene.act]
    refine ih (n := m + 1) ?_ ?_
    · rw [hnext, Scene.phase_take, hsame]
    · rw [hnext, heq, hlength, hheld, Nat.add_sub_cancel]

theorem Scene.act_of_stopped {a : Act} (ha : a.isParting = false)
    (hstopped : s.producer.phase = .stopped) (hempty : s.producer.channel.held = []) :
    s.act src a = s := by
  cases a with
  | drop | slip => cases ha
  | produce now => exact produce_of_stopped hstopped now
  | take => simp only [act, take, Channel.take?, hempty]

/-- Behind a producer that has stopped the receiver comes to the end, and nothing happens then. -/
theorem KeepsReading.exists_end (h : KeepsReading plan limit)
    (hstopped : ∃ n, (s.along src plan n).producer.phase = .stopped) :
    ∃ n, (s.along src plan n).producer.phase = .stopped ∧
      (s.along src plan n).producer.channel.held = [] ∧
        ∀ m, n ≤ m → s.along src plan m = s.along src plan n := by
  obtain ⟨_, hstopped⟩ := hstopped
  obtain ⟨n, hn, hempty⟩ := h.exists_empty _ hstopped rfl
  refine ⟨n, hn, hempty, fun m hnm => ?_⟩
  induction hnm with
  | refl => rfl
  | step _ ih => rw [Scene.along, ih, Scene.act_of_stopped (h.stays _) hn hempty]

theorem Orderly.received_eq (h : Orderly src source interval rhythm s) (hopen : ¬ s.Deserted)
    (hempty : s.producer.channel.held = []) : s.received = s.frames := by
  rw [h.delivers.held (Bool.eq_false_iff.2 hopen), hempty, List.append_nil]

/-- A scene that is `Orderly`, with a rhythm, is `Scene.Complete` when the producer has stopped and
the channel is empty. -/
theorem Orderly.complete (h : Orderly src source interval True s) (hopen : ¬ s.Deserted)
    (hstopped : s.producer.phase = .stopped) (hempty : s.producer.channel.held = []) :
    s.Complete src source := by
  have hcourse := h.course
  rw [hstopped] at hcourse
  have hclosing := hcourse.closing trivial hopen
  refine ⟨hclosing.finished, fun more => ?_, hstopped, hempty⟩
  rw [Source.answers_append, Offer.given_append_of_over _ hclosing.finished, ← hclosing.same,
    h.received_eq hopen hempty]

/-! ## Where the ticker can never be set -/

/-- The producer has not asked and is not going to, as its ticker is never `Ticker.Settable`: it has
sent the first heartbeat at most. -/
structure Scene.Barred (s : Scene σ α ε) : Prop where
  never : ∀ now, ¬ Ticker.Settable s.producer.ticker.interval now
  there : ¬ s.Deserted
  unasked : s.asked = []
  place : s.producer.phase = .opening ∧ s.frames = [] ∨
    s.producer.phase = .stopped ∧ s.frames = [.ok .heartbeat]

namespace Scene.Barred

theorem start (hnever : ∀ now, ¬ Ticker.Settable interval now) (t : Nat) (source : σ) :
    (Scene.start interval t source : Scene σ α ε).Barred :=
  ⟨hnever, nofun, rfl, .inl ⟨rfl, rfl⟩⟩

theorem phase (h : s.Barred) : s.producer.phase = .opening ∨ s.producer.phase = .stopped :=
  h.place.imp And.left And.left

/-- A producer that is `Barred` sends the first heartbeat and stops. -/
theorem produce (h : s.Barred) (src : Source σ α ε) (now : Nat) : (s.produce src now).Barred := by
  have hphase := h.phase
  have hproduced := produced src now s
  generalize (step src now s.producer).rests = rests, s.produce src now = s' at hproduced ⊢
  cases hproduced with
  | stopped | full => exact h
  | refused hgone => exact absurd hgone h.there
  | opened _ _ hopening =>
    have hframes : s.frames = [] := by
      rcases h.place with ⟨-, hnil⟩ | ⟨hstopped, -⟩
      · exact hnil
      · cases hopening.symm.trans hstopped
    rcases restart_eq now (s.producer.put (.ok .heartbeat)) with ⟨-, hset⟩ | ⟨heq, -⟩
    · exact absurd hset (h.never now)
    · rw [heq]
      refine ⟨h.never, h.there, h.unasked, .inr ⟨rfl, ?_⟩⟩
      rw [frames, List.map_append, show s.sent.map (·.2) = [] from hframes]
      rfl
  | sent _ _ hother | item _ hother | failure _ hother | ended _ hother | tick _ hother
  | halted _ hother | idle _ hother =>
    rw [hother] at hphase
    rcases hphase with hphase | hphase <;> cases hphase

/-- A scene that is `Barred` stays so while the receiver is there. -/
theorem act (h : s.Barred) {a : Act} (ha : a.isParting = false) : (s.act src a).Barred := by
  cases a with
  | drop | slip => cases ha
  | produce now => exact h.produce src now
  | take =>
    have hthere : ¬ (s.act src .take).Deserted := deserted_act ha h.there
    obtain ⟨channel, received, htake, -⟩ := s.take_eq
    rw [Scene.act, htake] at hthere ⊢
    exact ⟨h.never, hthere, h.unasked, h.place⟩

theorem along (h : s.Barred) (hplan : KeepsReading plan limit) (n : Nat) :
    (s.along src plan n).Barred := by
  induction n with
  | zero => exact h
  | succ n ih => exact ih.act (hplan.stays n)

end Scene.Barred

theorem KeepsReading.exists_stopped_of_barred (h : KeepsReading plan limit)
    (hs : Orderly src source interval False s) (hbarred : s.Barred) :
    ∃ n, (s.along src plan n).producer.phase = .stopped := by
  rcases h.exists_asking hs hbarred.there 0 with hstopped | ⟨m, _, -, -, hwaiting⟩
  · exact hstopped
  · rcases (hbarred.along h m).phase with hphase | hphase <;> cases hwaiting.symm.trans hphase

/-- A scene that is `Barred` is `Scene.Mute` when the producer has stopped and the channel is
empty. -/
theorem Orderly.mute (h : Orderly src source interval False s) (hbarred : s.Barred)
    (hstopped : s.producer.phase = .stopped) (hempty : s.producer.channel.held = []) : s.Mute := by
  refine ⟨hbarred.unasked, ?_, hstopped, hempty⟩
  rw [h.received_eq hbarred.there hempty]
  rcases hbarred.place with ⟨hopening, -⟩ | ⟨-, hframes⟩
  · cases hopening.symm.trans hstopped
  · exact hframes

/-! ## The answer -/

/-- What a producer makes of its `Source`. -/
structure Faithful (src : Source σ α ε) (source : σ) (interval t : Nat) : Prop where
  /-- Whatever happens, what the receiver has got begins with a heartbeat, carries a first part of
  what the source gives up to its end or first failure, however it is asked further on, and has
  nothing behind a failure. -/
  framed : ∀ acts more, Framed ((Scene.start interval t source).after src acts).received
    (src.answers source (((Scene.start interval t source).after src acts).asked ++ more))
  /-- When the receiver goes, the source is asked once more at most, and the producer has stopped by
  the end of its next step. -/
  parting : ∀ acts a later, a.isParting = true →
    ((Scene.start interval t source).after src (acts ++ a :: later)).asked.length ≤
        ((Scene.start interval t source).after src acts).asked.length + 1 ∧
      ∀ now, .produce now ∈ later →
        ((Scene.start interval t source).after src (acts ++ a :: later)).producer.phase = .stopped
  /-- A receiver that keeps reading comes to the end, and gets all there is before, if the ticker
  can be set as long as the source is read. -/
  complete : ∀ limit, Ticker.Settable interval limit →
    ∀ plan, KeepsReading plan limit → src.Ends source limit →
      ∃ n, ∀ m, n ≤ m → ((Scene.start interval t source).along src plan m).Complete src source
  /-- If it can never be set, the receiver gets the first heartbeat, and then the end. -/
  mute : (∀ now, ¬ Ticker.Settable interval now) → ∀ plan limit, KeepsReading plan limit →
    ∃ n, ∀ m, n ≤ m → ((Scene.start interval t source).along src plan m).Mute

/-- **Heartbeats leave the source as it is.** -/
theorem framing_is_faithful (src : Source σ α ε) (source : σ) (interval t : Nat) :
    Faithful src source interval t := by
  have hstart := Orderly.start src source interval t
  have hopen : ¬ (Scene.start interval t source : Scene σ α ε).Deserted := nofun
  refine ⟨fun acts more => ?_, fun acts a later ha => ?_, fun limit hset plan hplan hends => ?_,
    fun hnever plan limit hplan => ?_⟩
  · have h := (hstart False).after acts
    rw [Source.answers_append]
    exact (h.course.framed.take h.delivers.first).mono _
  · obtain ⟨hgone, hasked⟩ := ((Scene.start interval t source).after src acts).parting ha
    have hcut : (Scene.start interval t source).after src (acts ++ a :: later) =
        (((Scene.start interval t source).after src acts).act src a).after src later :=
      List.foldl_append
    rw [hcut]
    refine ⟨?_, fun now hlater => hgone.phase_after hlater⟩
    rw [hgone.asked_after]
    exact hasked
  · obtain ⟨n, hstopped, hempty, hsame⟩ :=
      hplan.exists_end (hplan.exists_stopped (hstart False) hopen rfl hends)
    refine ⟨n, fun m hm => ?_⟩
    rw [hsame m hm]
    have horderly := (hstart True).along plan (fun _ => hplan.settable hset) n
    exact horderly.complete (hplan.open_along hopen n) hstopped hempty
  · have hbarred : (Scene.start interval t source : Scene σ α ε).Barred := .start hnever t source
    obtain ⟨n, hstopped, hempty, hsame⟩ :=
      hplan.exists_end (hplan.exists_stopped_of_barred (hstart False) hbarred)
    refine ⟨n, fun m hm => ?_⟩
    rw [hsame m hm]
    exact ((hstart False).along plan False.elim n).mute (hbarred.along hplan n) hstopped hempty

namespace Sample

/-- The producer and the receiver take turns. The clock stops at the limit. -/
def turns (limit n : Nat) : Act := if n % 2 = 0 then .produce (min n limit) else .take

theorem turns_of_produce {now : Nat} (h : turns limit n = .produce now) : now = min n limit := by
  unfold turns at h
  split at h
  · exact (Act.produce.inj h).symm
  · cases h

theorem keepsReading_turns (limit : Nat) : KeepsReading (turns limit) limit where
  stays n := by
    unfold turns
    split <;> rfl
  takes n := ⟨2 * n + 1, by omega, if_neg (by omega)⟩
  produces n t ht := ⟨2 * (n + t), min (2 * (n + t)) limit, by omega, by omega, if_pos (by omega)⟩
  within n now h := by
    rw [turns_of_produce h]
    exact Nat.min_le_right _ _
  clock m n now later hmn hm hn := by
    rw [turns_of_produce hm, turns_of_produce hn]
    omega

/-- One item that is there at once, and the end. -/
def one : Script Nat String := ⟨[(0, .item 1)], none⟩

theorem ends_one (limit : Nat) : Script.source.Ends one limit := by
  intro instants _ _ _
  refine ⟨2, .ended, ?_, rfl⟩
  simp [Source.answers, Script.source, Script.ask, one, List.range_succ]

/-- The producer and the receiver of the item after some turns. -/
def scene (interval limit n : Nat) : Scene (Script Nat String) Nat String :=
  (Scene.start interval 0 one).along Script.source (turns limit) n

end Sample

theorem framing_is_faithful_of_one :
    ∃ n, (Sample.scene 1 100 n).Complete Script.source Sample.one := by
  obtain ⟨n, hn⟩ := (framing_is_faithful Script.source Sample.one 1 0).complete 100 (by decide)
    (Sample.turns 100) (Sample.keepsReading_turns 100) (Sample.ends_one 100)
  exact ⟨n, hn n (Nat.le_refl n)⟩

/-- Without time between the heartbeats a producer stops after the first one and never asks. -/
theorem unfaithful_without_interval :
    KeepsReading (Sample.turns 100) 100 ∧ Script.source.Ends Sample.one 100 ∧
      ∀ n, ¬ (Sample.scene 0 100 n).Complete Script.source Sample.one := by
  refine ⟨Sample.keepsReading_turns 100, Sample.ends_one 100, fun n hn => ?_⟩
  have hbarred : (Scene.start 0 0 Sample.one : Scene (Script Nat String) Nat String).Barred :=
    .start (fun now hset => Nat.lt_irrefl 0 hset.1) 0 Sample.one
  have hover := hn.finished
  rw [Sample.scene, (hbarred.along (Sample.keepsReading_turns 100) n).unasked] at hover
  obtain ⟨o, ho, -⟩ := hover
  cases ho

end EventRelay.Heartbeats
