import EventRelay.Proofs.Stream.Course
import Mathlib.Data.List.Chain
import Mathlib.Logic.Relation

/-!
# When frames are sent

Time passes only where the producer has to wait, and the receiver always leaves it room. Then the
ticker is due an interval after the last frame, whenever the producer waits for the source: a tick
that is taken in time is the last frame itself, and a frame with an item sets the ticker anew. So a
heartbeat comes just an interval after the frame before it, and everything else when it is ready.
The producer has a bounded number of moves to make at an instant, so time does go on.
-/

namespace EventRelay

namespace Heartbeats

variable {α ε : Type}

/-! ## Timetables -/

/-- What comes, one after the other, and when it is ready. Where nothing comes the source ends. -/
structure Timetable (α ε : Type) where
  cue : Nat → Option (Except ε α)
  ready : Nat → Nat
  /-- Nothing is ready before what comes before it. -/
  inOrder : ∀ i j, i ≤ j → ready i ≤ ready j

namespace Timetable

def offer : Option (Except ε α) → Offer α ε
  | some (.ok a) => .item a
  | some (.error e) => .failure e
  | none => .ended

/-- The `Source` that keeps to a timetable. -/
def source (table : Timetable α ε) : Source Nat α ε where
  ask now i := if now < table.ready i then (.pending, i) else (offer (table.cue i), i + 1)
  wakesAt i := some (table.ready i)

theorem eq_of_pending {table : Timetable α ε} {now k k' : Nat}
    (h : table.source.ask now k = (.pending, k')) : now < table.ready k ∧ k' = k := by
  rw [source] at h
  simp only at h
  split at h
  · next hlt => exact ⟨hlt, (Prod.mk.inj h).2.symm⟩
  · have hoffer := (Prod.mk.inj h).1
    unfold offer at hoffer
    split at hoffer <;> cases hoffer

/-- What a source that keeps to a `Timetable` answers is ready. -/
theorem eq_of_answer {table : Timetable α ε} {now k k' : Nat} {o : Offer α ε}
    (h : table.source.ask now k = (o, k')) (ho : o ≠ .pending) :
    table.ready k ≤ now ∧ offer (table.cue k) = o ∧ k' = k + 1 := by
  rw [source] at h
  simp only at h
  split at h
  · exact absurd (Prod.mk.inj h).1.symm ho
  · next hge =>
    obtain ⟨hoffer, hk⟩ := Prod.mk.inj h
    exact ⟨Nat.le_of_not_lt hge, hoffer, hk.symm⟩

/-- What a cue is offered as tells which cue it was. -/
theorem offer_eq {cue : Option (Except ε α)} {o : Offer α ε} (h : offer cue = o) :
    (∀ a, o = .item a → cue = some (.ok a)) ∧ (∀ e, o = .failure e → cue = some (.error e)) ∧
      (o = .ended → cue = none) := by
  subst h
  rcases cue with _ | e | a <;> simp [offer]

/-- The `Timetable` goes on up to here: everything before is an item. -/
def GoesOn (table : Timetable α ε) (k : Nat) : Prop := ∀ i, i < k → ∃ a, table.cue i = some (.ok a)

/-- This comes, and the source `GoesOn` to it. -/
def Brings (table : Timetable α ε) (i : Nat) (r : Except ε α) : Prop :=
  table.GoesOn i ∧ table.cue i = some r

/-- The source ends or fails here, and `GoesOn` to here. -/
def EndsAt (table : Timetable α ε) (i : Nat) : Prop :=
  table.GoesOn i ∧ (table.cue i = none ∨ ∃ e, table.cue i = some (.error e))

theorem GoesOn.succ {table : Timetable α ε} {k : Nat} {a : α} (h : table.GoesOn k)
    (hcue : table.cue k = some (.ok a)) : table.GoesOn (k + 1) := by
  intro i hi
  rcases Nat.eq_or_lt_of_le (Nat.le_of_lt_succ hi) with rfl | hlt
  · exact ⟨a, hcue⟩
  · exact h i hlt

/-- What the source `GoesOn` to lies before the end. -/
theorem GoesOn.le {table : Timetable α ε} {i k : Nat} (h : table.GoesOn i) (hk : table.EndsAt k) :
    i ≤ k := by
  apply Nat.le_of_not_lt
  intro hlt
  obtain ⟨a, hcue⟩ := h k hlt
  rcases hk.2 with hnone | ⟨e, herror⟩
  · cases hnone.symm.trans hcue
  · cases herror.symm.trans hcue

/-- Nothing behind this place of the `Timetable` comes by now. -/
def Bounded (table : Timetable α ε) (b now : Nat) : Prop := now < table.ready b ∨ table.EndsAt b

theorem Bounded.le {table : Timetable α ε} {b k now : Nat} (h : table.Bounded b now)
    (hk : table.GoesOn k) (hready : table.ready k ≤ now) : k ≤ b := by
  rcases h with hlater | hend
  · apply Nat.le_of_not_lt
    intro hlt
    have hle := table.inOrder b k (Nat.le_of_lt hlt)
    omega
  · exact hk.le hend

end Timetable

/-! ## Passing time -/

/-- The producer makes its moves, with room for a frame, and where it has to wait time passes. The
receiver takes frames when it likes. -/
inductive Pass {σ : Type} (src : Source σ α ε) : Nat × Scene σ α ε → Nat × Scene σ α ε → Prop
  | move {now : Nat} {s : Scene σ α ε} : s.producer.channel.HasRoom →
      (step src now s.producer).rests = false → Pass src (now, s) (now, s.produce src now)
  | wait {now : Nat} {s : Scene σ α ε} : s.producer.channel.HasRoom →
      (step src now s.producer).rests = true → Pass src (now, s) (now + 1, s.produce src now)
  | take (now : Nat) (s : Scene σ α ε) : Pass src (now, s) (now, s.take)

/-! ## Frames in time -/

/-- What frames carry, and when they were sent: `content?` with the instants. -/
def timed (sent : List (Nat × Except ε (Frame α))) : List (Nat × Except ε α) :=
  sent.filterMap fun x => (content? x.2).map fun r => (x.1, r)

/-- What is so of a frame that was sent next after this instant. -/
structure Gap (interval last : Nat) (next : Nat × Except ε (Frame α)) : Prop where
  forward : last ≤ next.1
  close : next.1 ≤ last + interval
  beat : next.2 = .ok .heartbeat → next.1 = last + interval

/-- What was sent keeps time with the `Timetable` up to a place of it. The last frame was sent at
`last`. -/
structure Punctual (table : Timetable α ε) (interval : Nat)
    (sent : List (Nat × Except ε (Frame α))) (last k : Nat) : Prop where
  opens : ∃ rest, sent = (0, .ok .heartbeat) :: rest
  last : ∃ frame, sent.getLast? = some (last, frame)
  gaps : sent.IsChain fun a b => Gap interval a.1 b
  items : ∀ i t r, (timed sent)[i]? = some (t, r) → table.Brings i r ∧ t = table.ready i
  count : (timed sent).length = k

namespace Punctual

variable {table : Timetable α ε} {interval last k now : Nat}
  {sent : List (Nat × Except ε (Frame α))} {frame : Except ε (Frame α)} {r : Except ε α}

theorem opening : Punctual table interval [(0, .ok .heartbeat)] 0 0 :=
  ⟨⟨[], rfl⟩, ⟨_, rfl⟩, .singleton _, nofun, rfl⟩

theorem opens_snoc (h : Punctual table interval sent last k)
    (next : Nat × Except ε (Frame α)) : ∃ rest, sent ++ [next] = (0, .ok .heartbeat) :: rest := by
  obtain ⟨rest, rfl⟩ := h.opens
  exact ⟨rest ++ [next], rfl⟩

theorem gaps_snoc (h : Punctual table interval sent last k) {next : Nat × Except ε (Frame α)}
    (hnext : Gap interval last next) : (sent ++ [next]).IsChain fun a b => Gap interval a.1 b := by
  obtain ⟨frame, hlast⟩ := h.last
  refine h.gaps.append (.singleton _) fun a ha b hb => ?_
  obtain rfl := Option.some.inj (hlast.symm.trans ha)
  obtain rfl := Option.some.inj hb
  exact hnext

/-- A heartbeat an interval after the last frame keeps what was sent `Punctual`. -/
theorem beat (h : Punctual table interval sent last k) :
    Punctual table interval (sent ++ [(last + interval, .ok .heartbeat)]) (last + interval) k := by
  have htimed : timed (sent ++ [(last + interval, .ok .heartbeat)]) = timed sent := by
    simp [timed, content?]
  refine ⟨h.opens_snoc _, ⟨_, List.getLast?_concat⟩, h.gaps_snoc ⟨?_, ?_, fun _ => rfl⟩, ?_, ?_⟩
  · exact Nat.le_add_right _ _
  · exact Nat.le_refl _
  · rw [htimed]
    exact h.items
  · rw [htimed]
    exact h.count

/-- What the timetable `Brings` next was sent as soon as it was ready. -/
theorem content (h : Punctual table interval sent last k) (hframe : content? frame = some r)
    (hbrings : table.Brings k r) (hlast : last ≤ table.ready k)
    (hsoon : table.ready k ≤ last + interval) :
    Punctual table interval (sent ++ [(table.ready k, frame)]) (table.ready k) (k + 1) := by
  have htimed : timed (sent ++ [(table.ready k, frame)]) = timed sent ++ [(table.ready k, r)] := by
    simp [timed, hframe]
  refine ⟨h.opens_snoc _, ⟨_, List.getLast?_concat⟩, h.gaps_snoc ⟨hlast, hsoon, ?_⟩, ?_, ?_⟩
  · rintro rfl
    cases hframe
  · intro i t r' hi
    rw [htimed, List.getElem?_append] at hi
    split at hi
    · exact h.items i t r' hi
    · next hnot =>
      rw [h.count] at hi hnot
      obtain ⟨hlt, hget⟩ := List.getElem?_eq_some_iff.1 hi
      have hik : i = k := by
        rw [List.length_singleton] at hlt
        omega
      subst hik
      simp only [Nat.sub_self, List.getElem_cons_zero, Prod.mk.injEq] at hget
      obtain ⟨rfl, rfl⟩ := hget
      exact ⟨hbrings, rfl⟩
  · rw [htimed, List.length_append, h.count, List.length_singleton]

/-- What the timetable `Brings` was sent when it was ready, at its place among what was sent. -/
theorem get (h : Punctual table interval sent last k) {i : Nat} (hbrings : table.Brings i r)
    (hi : i < k) : (timed sent)[i]? = some (table.ready i, r) := by
  obtain ⟨⟨t, r'⟩, hget⟩ : ∃ x, (timed sent)[i]? = some x :=
    ⟨_, List.getElem?_eq_getElem (h.count.symm ▸ hi : i < (timed sent).length)⟩
  obtain ⟨hthere, rfl⟩ := h.items i t r' hget
  rw [hget, Option.some.inj (hthere.2.symm.trans hbrings.2)]

end Punctual

/-! ## The producer in time -/

/-- What was sent by now, and when the ticker is due, by what the producer is about and how far the
source has come. -/
inductive OnTime (table : Timetable α ε) (interval now : Nat) :
    Phase α ε → Nat → Nat → List (Nat × Except ε (Frame α)) → Prop
  | opening {due : Nat} : now = 0 → OnTime table interval now .opening due 0 []
  | waiting {last k : Nat} : ∀ {sent}, Punctual table interval sent last k → table.GoesOn k →
      last ≤ now → now ≤ last + interval → now ≤ table.ready k →
      OnTime table interval now .waiting (last + interval) k sent
  | beating {last k : Nat} : ∀ {sent}, Punctual table interval sent last k → table.GoesOn k →
      now = last + interval → now ≤ table.ready k →
      OnTime table interval now (.sending (.ok .heartbeat)) (now + interval) k sent
  /-- What was ready just now is to be sent. -/
  | passing {last k due : Nat} {r : Except ε α} {frame : Except ε (Frame α)} : ∀ {sent},
      Punctual table interval sent last k → table.GoesOn k → last ≤ now → now ≤ last + interval →
      now = table.ready k → table.cue k = some r → content? frame = some r →
      OnTime table interval now (.sending frame) due (k + 1) sent
  | failed {last k due : Nat} {e : ε} : ∀ {sent}, Punctual table interval sent last (k + 1) →
      table.GoesOn k → table.cue k = some (.error e) → table.ready k ≤ now →
      OnTime table interval now .stopped due (k + 1) sent
  | ended {last k due : Nat} : ∀ {sent}, Punctual table interval sent last k →
      table.GoesOn k → table.cue k = none → table.ready k ≤ now →
      OnTime table interval now .stopped due (k + 1) sent
  /-- The ticker was not `Ticker.Settable` behind the last frame. -/
  | halted {last k due : Nat} : ∀ {sent}, Punctual table interval sent last k →
      ¬ Ticker.Settable interval now → OnTime table interval now .stopped due k sent

namespace OnTime

variable {table : Timetable α ε} {interval now due k : Nat}
  {sent : List (Nat × Except ε (Frame α))}

/-- A producer that is `OnTime` has sent what is `Punctual`, and is behind with nothing that was
ready before now. -/
theorem punctual {phase : Phase α ε} (h : OnTime table interval now phase due k sent) :
    sent = [] ∧ now = 0 ∧ phase ≠ .stopped ∨
    ∃ last n, Punctual table interval sent last n ∧
      (phase ≠ .stopped → now ≤ last + interval) ∧
      (Ticker.Settable interval now → ∀ i r, table.Brings i r → table.ready i < now → i < n) ∧
      (Ticker.Settable interval now → phase = .stopped →
        ∃ i, table.EndsAt i ∧ table.ready i ≤ now) := by
  have hbefore : ∀ n, now ≤ table.ready n → ∀ i, table.ready i < now → i < n := by
    intro n hn i hi
    apply Nat.lt_of_not_le
    intro hle
    have hlater := table.inOrder n i hle
    omega
  cases h with
  | opening hnow => exact .inl ⟨rfl, hnow, nofun⟩
  | waiting hpunctual hgoes hlast hsoon hready =>
    exact .inr ⟨_, _, hpunctual, fun _ => hsoon, fun _ i _ _ => hbefore _ hready i, nofun⟩
  | beating hpunctual hgoes hnow hready =>
    exact .inr ⟨_, _, hpunctual, fun _ => Nat.le_of_eq hnow,
      fun _ i _ _ => hbefore _ hready i, nofun⟩
  | passing hpunctual hgoes hlast hsoon hnow =>
    exact .inr ⟨_, _, hpunctual, fun _ => hsoon,
      fun _ i _ _ => hbefore _ (Nat.le_of_eq hnow) i, nofun⟩
  | failed hpunctual hgoes hcue hready =>
    refine .inr ⟨_, _, hpunctual, fun hne => absurd rfl hne, fun _ i r hbrings _ => ?_, ?_⟩
    · exact Nat.lt_succ_of_le (hbrings.1.le ⟨hgoes, .inr ⟨_, hcue⟩⟩)
    · exact fun _ _ => ⟨_, ⟨hgoes, .inr ⟨_, hcue⟩⟩, hready⟩
  | ended hpunctual hgoes hcue hready =>
    refine .inr ⟨_, _, hpunctual, fun hne => absurd rfl hne, fun _ i r hbrings _ => ?_, ?_⟩
    · refine Nat.lt_of_le_of_ne (hbrings.1.le ⟨hgoes, .inl hcue⟩) ?_
      rintro rfl
      cases hcue.symm.trans hbrings.2
    · exact fun _ _ => ⟨_, ⟨hgoes, .inl hcue⟩, hready⟩
  | halted hpunctual hnot =>
    exact .inr ⟨_, _, hpunctual, fun hne => absurd rfl hne, fun hset => absurd hset hnot,
      fun hset => absurd hset hnot⟩

theorem begin (h : OnTime table interval now .opening due k sent) :
    OnTime table interval now .waiting (now + interval) k (sent ++ [(now, .ok .heartbeat)]) := by
  cases h with
  | opening hnow =>
    subst hnow
    exact .waiting .opening nofun (Nat.le_refl _) (Nat.zero_le _) (Nat.zero_le _)

theorem quit {due' : Nat} (h : OnTime table interval now .opening due k sent)
    (hnot : ¬ Ticker.Settable interval now) :
    OnTime table interval now .stopped due' k (sent ++ [(now, .ok .heartbeat)]) := by
  cases h with
  | opening hnow =>
    subst hnow
    exact .halted .opening hnot

theorem later (h : OnTime table interval now .stopped due k sent) :
    OnTime table interval (now + 1) .stopped due k sent := by
  cases h with
  | failed hpunctual hgoes hcue hready => exact .failed hpunctual hgoes hcue (by omega)
  | ended hpunctual hgoes hcue hready => exact .ended hpunctual hgoes hcue (by omega)
  | halted hpunctual hnot =>
    exact .halted hpunctual (mt (fun hset => hset.mono (Nat.le_succ now)) hnot)

/-- Time passes while nothing is ready and no tick is due. -/
theorem idle (h : OnTime table interval now .waiting due k sent) (hready : now < table.ready k)
    (hdue : ¬ due ≤ now) : OnTime table interval (now + 1) .waiting due k sent := by
  cases h with
  | waiting hpunctual hgoes hlast hsoon =>
    exact .waiting hpunctual hgoes (by omega) (by omega) hready

/-- A tick that is taken while the producer is `OnTime` is taken when it is due. -/
theorem tick (h : OnTime table interval now .waiting due k sent) (hready : now < table.ready k)
    (hdue : due ≤ now) :
    due = now ∧ OnTime table interval now (.sending (.ok .heartbeat)) (now + interval) k sent := by
  cases h with
  | waiting hpunctual hgoes hlast hsoon =>
    have hnow := Nat.le_antisymm hsoon hdue
    exact ⟨hnow.symm, .beating hpunctual hgoes hnow (Nat.le_of_lt hready)⟩

/-- What is ready is answered at once, and so sent at the instant at which it came to be ready. -/
theorem answer {due' : Nat} {r : Except ε α} {frame : Except ε (Frame α)}
    (h : OnTime table interval now .waiting due k sent) (hready : table.ready k ≤ now)
    (hcue : table.cue k = some r) (hframe : content? frame = some r) :
    OnTime table interval now (.sending frame) due' (k + 1) sent := by
  cases h with
  | waiting hpunctual hgoes hlast hsoon hnow =>
    exact .passing hpunctual hgoes hlast hsoon (Nat.le_antisymm hnow hready) hcue hframe

theorem due_beat (h : OnTime table interval now (.sending (.ok .heartbeat)) due k sent) :
    due = now + interval := by
  cases h with
  | beating => rfl
  | passing _ _ _ _ _ _ hframe => cases hframe

theorem goesOn (h : OnTime table interval now .waiting due k sent) : table.GoesOn k := by
  cases h with
  | waiting _ hgoes => exact hgoes

theorem stop {due' : Nat} (h : OnTime table interval now .waiting due k sent)
    (hready : table.ready k ≤ now) (hcue : table.cue k = none) :
    OnTime table interval now .stopped due' (k + 1) sent := by
  cases h with
  | waiting hpunctual hgoes => exact .ended hpunctual hgoes hcue hready

theorem beat (h : OnTime table interval now (.sending (.ok .heartbeat)) due k sent) :
    OnTime table interval now .waiting due k (sent ++ [(now, .ok .heartbeat)]) := by
  cases h with
  | beating hpunctual hgoes hnow hready =>
    subst hnow
    exact .waiting hpunctual.beat hgoes (Nat.le_refl _) (Nat.le_add_right _ _) hready
  | passing _ _ _ _ _ _ hframe => cases hframe

/-- Behind an item the ticker is set anew. -/
theorem deliver {a : α} (h : OnTime table interval now (.sending (.ok (.item a))) due k sent) :
    OnTime table interval now .waiting (now + interval) k (sent ++ [(now, .ok (.item a))]) := by
  cases h with
  | @passing last k _ r _ _ hpunctual hgoes hlast hsoon hnow hcue hframe =>
    subst hnow
    obtain rfl := Option.some.inj hframe
    exact .waiting (hpunctual.content hframe ⟨hgoes, hcue⟩ hlast hsoon) (hgoes.succ hcue)
      (Nat.le_refl _) (Nat.le_add_right _ _) (table.inOrder _ _ (Nat.le_succ k))

/-- An item is through behind which the ticker is not `Ticker.Settable`. -/
theorem halt {a : α} {due' : Nat}
    (h : OnTime table interval now (.sending (.ok (.item a))) due k sent)
    (hnot : ¬ Ticker.Settable interval now) :
    OnTime table interval now .stopped due' k (sent ++ [(now, .ok (.item a))]) := by
  cases h with
  | passing hpunctual hgoes hlast hsoon hnow hcue hframe =>
    subst hnow
    obtain rfl := Option.some.inj hframe
    exact .halted (hpunctual.content hframe ⟨hgoes, hcue⟩ hlast hsoon) hnot

theorem fail {e : ε} {due' : Nat} (h : OnTime table interval now (.sending (.error e)) due k sent) :
    OnTime table interval now .stopped due' k (sent ++ [(now, .error e)]) := by
  cases h with
  | passing hpunctual hgoes hlast hsoon hnow hcue hframe =>
    subst hnow
    obtain rfl := Option.some.inj hframe
    exact .failed (hpunctual.content hframe ⟨hgoes, hcue⟩ hlast hsoon) hgoes hcue (Nat.le_refl _)

end OnTime

/-- The scene keeps time: its producer is `OnTime` and its clock reads so. -/
structure Timely (table : Timetable α ε) (interval now : Nat) (s : Scene Nat α ε) : Prop where
  there : ¬ s.Deserted
  rhythm : s.producer.ticker.interval = interval
  onTime : OnTime table interval now s.producer.phase s.producer.ticker.due s.producer.source s.sent

namespace Timely

variable {table : Timetable α ε} {interval now : Nat} {s : Scene Nat α ε}

theorem start (table : Timetable α ε) (interval : Nat) :
    Timely table interval 0 (.start interval 0 0) :=
  ⟨nofun, rfl, .opening rfl⟩

theorem take (h : Timely table interval now s) : Timely table interval now s.take := by
  obtain ⟨channel, received, htake, hclosed, -⟩ := s.take_eq
  rw [htake]
  exact ⟨fun hgone => h.there (hclosed.symm.trans hgone), h.rhythm, h.onTime⟩

/-- A producer that has to wait lets the clock go on by one. -/
theorem wait (h : Timely table interval now s) (hroom : s.producer.channel.HasRoom)
    (hrests : (step table.source now s.producer).rests = true) :
    Timely table interval (now + 1) (s.produce table.source now) := by
  have hproduced := produced table.source now s
  rw [hrests] at hproduced
  have honTime := h.onTime
  generalize s.produce table.source now = s' at hproduced
  cases hproduced with
  | full _ hfull => exact absurd hroom hfull
  | stopped hphase =>
    rw [hphase] at honTime
    refine ⟨h.there, h.rhythm, ?_⟩
    rw [hphase]
    exact honTime.later
  | idle hopen hphase hask hdue =>
    obtain ⟨hready, rfl⟩ := Timetable.eq_of_pending hask
    rw [hphase] at honTime
    refine ⟨h.there, h.rhythm, ?_⟩
    rw [hphase]
    exact honTime.idle hready (of_decide_eq_false hdue)

/-- A move of the producer takes no time. By cases on what it `produced`. -/
theorem move (h : Timely table interval now s)
    (hrests : (step table.source now s.producer).rests = false) :
    Timely table interval now (s.produce table.source now) := by
  have hproduced := produced table.source now s
  rw [hrests] at hproduced
  obtain ⟨hthere, rfl, honTime⟩ := h
  generalize s.produce table.source now = s' at hproduced
  cases hproduced with
  | refused hgone => exact absurd hgone hthere
  | opened _ _ hphase =>
    rw [hphase] at honTime
    rcases restart_eq now (s.producer.put (.ok .heartbeat)) with ⟨heq, -⟩ | ⟨heq, hnot⟩
    · rw [heq]
      exact ⟨hthere, rfl, honTime.begin⟩
    · rw [heq]
      exact ⟨hthere, rfl, honTime.quit hnot⟩
  | @sent frame _ _ hphase =>
    rw [hphase] at honTime
    rcases frame with e | _ | a
    · exact ⟨hthere, rfl, honTime.fail⟩
    · exact ⟨hthere, rfl, honTime.beat⟩
    · rw [afterFrame]
      rcases restart_eq now (s.producer.put (.ok (.item a))) with ⟨heq, -⟩ | ⟨heq, hnot⟩
      · rw [heq]
        exact ⟨hthere, rfl, honTime.deliver⟩
      · rw [heq]
        exact ⟨hthere, rfl, honTime.halt hnot⟩
  | item _ hphase hask =>
    obtain ⟨hready, hoffer, rfl⟩ := Timetable.eq_of_answer hask nofun
    rw [hphase] at honTime
    exact ⟨hthere, rfl, honTime.answer hready ((Timetable.offer_eq hoffer).1 _ rfl) rfl⟩
  | failure _ hphase hask =>
    obtain ⟨hready, hoffer, rfl⟩ := Timetable.eq_of_answer hask nofun
    rw [hphase] at honTime
    exact ⟨hthere, rfl, honTime.answer hready ((Timetable.offer_eq hoffer).2.1 _ rfl) rfl⟩
  | ended _ hphase hask =>
    obtain ⟨hready, hoffer, rfl⟩ := Timetable.eq_of_answer hask nofun
    rw [hphase] at honTime
    exact ⟨hthere, rfl, honTime.stop hready ((Timetable.offer_eq hoffer).2.2 rfl)⟩
  | tick _ hphase hask hdue =>
    obtain ⟨hready, rfl⟩ := Timetable.eq_of_pending hask
    rw [hphase] at honTime
    obtain ⟨heq, hbeating⟩ := honTime.tick hready (of_decide_eq_true hdue)
    -- a tick that is taken just when it is due keeps the rhythm
    have htake : s.producer.ticker.take now =
        ⟨s.producer.ticker.interval, now + s.producer.ticker.interval⟩ := by
      rw [← heq, Ticker.take_due]
    rw [htake]
    exact ⟨hthere, rfl, hbeating⟩
  | halted _ hphase hask hdue hnot =>
    obtain ⟨hready, rfl⟩ := Timetable.eq_of_pending hask
    rw [hphase] at honTime
    -- the tick is taken just when it is due
    obtain ⟨rfl, -⟩ := honTime.tick hready (of_decide_eq_true hdue)
    cases hnot.symm.trans (Ticker.canTake_due _)

/-- Every `Pass` keeps a scene `Timely`. -/
theorem pass {x y : Nat × Scene Nat α ε} (h : Timely table interval x.1 x.2)
    (hpass : Pass table.source x y) : Timely table interval y.1 y.2 := by
  cases hpass with
  | move _ hrests => exact h.move hrests
  | wait hroom hrests => exact h.wait hroom hrests
  | take => exact h.take

end Timely

/-- The clock reads so in this scene of an answer that was opened at its start, time having passed
only where the producer had to wait. -/
def Passes (table : Timetable α ε) (interval now : Nat) (s : Scene Nat α ε) : Prop :=
  Relation.ReflTransGen (Pass table.source) (0, .start interval 0 0) (now, s)

namespace Passes

variable {table : Timetable α ε} {interval now later : Nat} {s : Scene Nat α ε}

/-- Wherever an answer `Passes` to, its scene is `Timely`. By induction on the steps. -/
theorem timely (h : Passes table interval now s) : Timely table interval now s := by
  suffices hkept : ∀ x, Relation.ReflTransGen (Pass table.source) (0, .start interval 0 0) x →
      Timely table interval x.1 x.2 from hkept _ h
  intro x hx
  induction hx with
  | refl => exact .start table interval
  | tail _ hpass ih => exact ih.pass hpass

theorem orderly (h : Passes table interval now s) : Orderly table.source 0 interval False s := by
  suffices hkept : ∀ x, Relation.ReflTransGen (Pass table.source) (0, .start interval 0 0) x →
      Orderly table.source 0 interval False x.2 from hkept _ h
  intro x hx
  induction hx with
  | refl => exact .start table.source 0 interval 0 False
  | tail _ hpass ih =>
    cases hpass with
    | move | wait => exact ih.produce False.elim
    | take => exact ih.take

end Passes

/-! ## Time goes on -/

/-- How much a producer has to do besides asking, by its `Phase`. -/
def Phase.toDo : Phase α ε → (isDue : Bool) → Nat
  | .opening, _ | .sending _, _ => 1
  | .waiting, true => 2
  | .waiting, false | .stopped, _ => 0

/-- How much the producer has to do before it has to wait, if nothing behind place `b` of the
timetable comes by now: `Phase.toDo` and two for each place. -/
def backlog (now b : Nat) (p : Producer Nat α ε) : Nat :=
  2 * (b + 1 - p.source) + p.phase.toDo (p.ticker.isDue now)

/-- Each move of the producer makes the `backlog` smaller. -/
theorem Timely.backlog_lt {table : Timetable α ε} {interval now b : Nat} {s : Scene Nat α ε}
    (h : Timely table interval now s) (hpos : 0 < interval) (hb : table.Bounded b now)
    (hrests : (step table.source now s.producer).rests = false) :
    backlog now b (s.produce table.source now).producer < backlog now b s.producer := by
  have hproduced := produced table.source now s
  rw [hrests] at hproduced
  obtain ⟨hthere, rfl, honTime⟩ := h
  have hlater : (s.producer.ticker.reset now).isDue now = false :=
    decide_eq_false (Nat.not_le_of_gt (Nat.lt_add_of_pos_right hpos))
  generalize s.produce table.source now = s' at hproduced
  cases hproduced with
  | refused hgone => exact absurd hgone hthere
  | opened _ _ hphase =>
    rcases restart_eq now (s.producer.put (.ok .heartbeat)) with ⟨heq, -⟩ | ⟨heq, -⟩
    · rw [heq]
      simp [backlog, Phase.toDo, hphase, Producer.put, hlater]
    · rw [heq]
      simp [backlog, Phase.toDo, hphase, Producer.put]
  | @sent frame _ _ hphase =>
    rw [hphase] at honTime
    rcases frame with e | _ | a
    · simp [backlog, Phase.toDo, hphase, afterFrame, Producer.put]
    · have hdue : s.producer.ticker.isDue now = false := by
        rw [Ticker.isDue, honTime.due_beat]
        exact decide_eq_false (Nat.not_le_of_gt (Nat.lt_add_of_pos_right hpos))
      simp [backlog, Phase.toDo, hphase, afterFrame, Producer.put, hdue]
    · rw [afterFrame]
      rcases restart_eq now (s.producer.put (.ok (.item a))) with ⟨heq, -⟩ | ⟨heq, -⟩
      · rw [heq]
        simp [backlog, Phase.toDo, hphase, Producer.put, hlater]
      · rw [heq]
        simp [backlog, Phase.toDo, hphase, Producer.put]
  | item _ hphase hask | failure _ hphase hask | ended _ hphase hask =>
    obtain ⟨hready, -, rfl⟩ := Timetable.eq_of_answer hask (by rintro ⟨⟩)
    rw [hphase] at honTime
    have hle := hb.le honTime.goesOn hready
    simp only [backlog, Phase.toDo, hphase]
    omega
  | tick _ hphase hask hdue | halted _ hphase hask hdue =>
    obtain ⟨-, rfl⟩ := Timetable.eq_of_pending hask
    simp [backlog, Phase.toDo, hphase, hdue]

namespace Passes

variable {table : Timetable α ε} {interval now later b : Nat} {s : Scene Nat α ε}

/-- The producer comes to wait, and time passes. By induction on its `backlog`. -/
theorem exists_next (h : Passes table interval now s) (hpos : 0 < interval)
    (hb : table.Bounded b now) :
    ∃ s', Relation.ReflTransGen (Pass table.source) (now, s) (now + 1, s') := by
  induction hn : backlog now b s.producer using Nat.strong_induction_on generalizing s with
  | h n ih =>
    -- the receiver makes room first, which leaves the producer as much to do as before
    have htake : Pass table.source (now, s) (now, s.take) := .take now s
    have hroom := h.orderly.room_take
    cases hrests : (step table.source now s.take.producer).rests with
    | true => exact ⟨_, .tail (.single htake) (.wait hroom hrests)⟩
    | false =>
      have hmove := Pass.move hroom hrests
      have hnext : Passes table interval now s.take := h.tail htake
      have hlt := hnext.timely.backlog_lt hpos hb hrests
      have hsame : backlog now b s.take.producer = n := by
        obtain ⟨channel, received, heq, -⟩ := s.take_eq
        rw [heq]
        exact hn
      obtain ⟨s', hs'⟩ := ih _ (hsame ▸ hlt) (hnext.tail hmove) rfl
      exact ⟨s', .head htake (.head hmove hs')⟩

/-- As long as what is ready is `Bounded`, time goes on from wherever it has come to. -/
theorem exists_later (h : Passes table interval now s) (hpos : 0 < interval)
    (hb : table.Bounded b later) (hle : now ≤ later) :
    ∃ s', Relation.ReflTransGen (Pass table.source) (now, s) (later, s') := by
  induction hle with
  | refl => exact ⟨s, .refl⟩
  | @step t hle ih =>
    have hb' : table.Bounded b t := hb.imp_left (Nat.lt_of_succ_lt)
    obtain ⟨s', hs'⟩ := ih hb'
    obtain ⟨s'', hs''⟩ := Passes.exists_next (h.trans hs') hpos hb'
    exact ⟨s'', hs'.trans hs''⟩

end Passes

/-! ## When frames are sent -/

/-- What was sent by now in a `Scene`, and how it ended. -/
structure Regular (table : Timetable α ε) (interval now : Nat) (s : Scene Nat α ε) : Prop where
  /-- The first frame is a heartbeat at the start, and time passes only behind it. -/
  opens : s.sent = [] ∧ now = 0 ∨ ∃ rest, s.sent = (0, .ok .heartbeat) :: rest
  /-- Whatever was sent besides heartbeats comes in its order, just when it was ready. -/
  items : ∀ i t r, (timed s.sent)[i]? = some (t, r) → table.Brings i r ∧ t = table.ready i
  /-- What was ready before now was sent, as long as the ticker can be set. -/
  prompt : Ticker.Settable interval now → ∀ i r, table.Brings i r → table.ready i < now →
    (timed s.sent)[i]? = some (table.ready i, r)
  /-- A frame comes within an interval of the one before it, and a heartbeat just an interval after
  it. -/
  gaps : s.sent.IsChain fun a b => Gap interval a.1 b
  /-- Nor is there a longer silence behind the last frame, until the answer ends. -/
  silence : s.producer.phase ≠ .stopped → ∀ last ∈ s.sent.getLast?, now ≤ last.1 + interval
  /-- As long it ends only where the source has ended or failed. -/
  ends : Ticker.Settable interval now → s.producer.phase = .stopped →
    ∃ i, table.EndsAt i ∧ table.ready i ≤ now

/-- **Heartbeats keep time.** Whatever time has come to, the frames were sent when they were due.
And time goes on from there to any instant by which no more than so much is ready. -/
theorem heartbeats_keep_time {table : Timetable α ε} {interval now : Nat} {s : Scene Nat α ε}
    (h : Passes table interval now s) :
    Regular table interval now s ∧
      (0 < interval → ∀ b later, table.Bounded b later → now ≤ later →
        ∃ s', Relation.ReflTransGen (Pass table.source) (now, s) (later, s')) := by
  refine ⟨?_, fun hpos b later hb hle => h.exists_later hpos hb hle⟩
  rcases h.timely.onTime.punctual with
    ⟨hsent, rfl, hphase⟩ | ⟨last, n, hpunctual, hsoon, hall, hend⟩
  · refine ⟨.inl ⟨hsent, rfl⟩, ?_, fun _ i r _ hready => absurd hready (Nat.not_lt_zero _), ?_, ?_,
      fun _ hstopped => absurd hstopped hphase⟩
    · rw [hsent]
      exact nofun
    · rw [hsent]
      exact .nil
    · rw [hsent]
      exact nofun
  · refine ⟨.inr hpunctual.opens, hpunctual.items, fun hset i r hbrings hready => ?_,
      hpunctual.gaps, fun hphase x hx => ?_, hend⟩
    · exact hpunctual.get hbrings (hall hset i r hbrings hready)
    · obtain ⟨frame, hlast⟩ := hpunctual.last
      obtain rfl := Option.some.inj (hlast.symm.trans hx)
      exact hsoon hphase

namespace Sample

/-- One item after three milliseconds, and the end after three more. -/
def late : Timetable Nat String where
  cue i := if i = 0 then some (.ok 7) else none
  ready i := if i = 0 then 3 else 6
  inOrder i j hij := by
    split <;> split <;> omega

theorem passes_late : ∃ s, Passes late 2 6 s ∧ s.producer.phase = .stopped ∧ s.sent =
    [(0, .ok .heartbeat), (2, .ok .heartbeat), (3, .ok (.item 7)), (5, .ok .heartbeat)] := by
  have h₀ : Passes late 2 0 (.start 2 0 0) := .refl
  have h₁ := h₀.tail (.move (by decide) rfl)
  have h₂ := h₁.tail (.wait (by decide) rfl)
  have h₃ := h₂.tail (.wait (by decide) rfl)
  have h₄ := h₃.tail (.move (by decide) rfl)
  have h₅ := h₄.tail (.move (by decide) rfl)
  have h₆ := h₅.tail (.wait (by decide) rfl)
  have h₇ := h₆.tail (.move (by decide) rfl)
  have h₈ := h₇.tail (.move (by decide) rfl)
  have h₉ := h₈.tail (.wait (by decide) rfl)
  have h₁₀ := h₉.tail (.wait (by decide) rfl)
  have h₁₁ := h₁₀.tail (.move (by decide) rfl)
  have h₁₂ := h₁₁.tail (.move (by decide) rfl)
  have h₁₃ := h₁₂.tail (.wait (by decide) rfl)
  have h₁₄ := h₁₃.tail (.move (by decide) rfl)
  exact ⟨_, h₁₄, rfl, rfl⟩

end Sample

theorem heartbeats_keep_time_of_late : ∃ s, s.sent =
    [(0, .ok .heartbeat), (2, .ok .heartbeat), (3, .ok (.item 7)), (5, .ok .heartbeat)] ∧
      Regular Sample.late 2 6 s := by
  obtain ⟨s, hs, -, hsent⟩ := Sample.passes_late
  exact ⟨s, hsent, (heartbeats_keep_time hs).1⟩

end Heartbeats

end EventRelay
