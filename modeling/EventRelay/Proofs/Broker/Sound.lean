import EventRelay.Proofs.Broker.World

/-!
# Sound work

Work is sound in a world if each of its calls leads from one world to a later one, whatever the
others did since the call before and whatever the call is answered. It is defined along the work, so
that it is shown part by part: of work done one after the other it is enough that each part is sound
in every world that the part before it may leave.
-/

namespace EventRelay

variable {registry : Registry} {α β ε : Type}

/-- Every call leads to a later world, in which just the acknowledgement is new, if any, that it
completed; and the outcome is as `Q` says. -/
def Sound : Work α → List Said → (α → World registry → Prop) → World registry → Prop
  | .done a, _, Q, w => ∀ w₁, w ≤ w₁ → Q a w₁
  | .call c next, said, Q, w => ∀ w₁, w ≤ w₁ → ∀ a m', Answers w₁.memory c a m' →
      ∃ w₂, w₁ ≤ w₂ ∧ w₂.memory = m' ∧
        (∀ flow b r, w₂.completed flow b r ↔ w₁.completed flow b r ∨
          ((⟨c, a⟩ : Said) = ⟨.progress (.record flow b r), .ok ()⟩ ∧ Popped said flow b r)) ∧
        Sound (next a) (said ++ [⟨c, a⟩]) Q w₂

namespace Sound

variable {p : Work α} {said : List Said} {Q Q' : α → World registry → Prop}
  {w w' : World registry}

/-- What was found `Sound` stays so, whatever the others do. -/
theorem mono (h : Sound p said Q w) (hw : w ≤ w') : Sound p said Q w' := by
  cases p with
  | done a => exact fun w₁ hle => h w₁ (hw.trans hle)
  | call c next => exact fun w₁ hle => h w₁ (hw.trans hle)

theorem imp (h : Sound p said Q w) (hQ : ∀ a w₁, w ≤ w₁ → Q a w₁ → Q' a w₁) :
    Sound p said Q' w := by
  induction p generalizing said w with
  | done a => exact fun w₁ hle => hQ a w₁ hle (h w₁ hle)
  | call c next ih =>
    intro w₁ hle a m' hans
    obtain ⟨w₂, hle₂, hm, hc, hnext⟩ := h w₁ hle a m' hans
    exact ⟨w₂, hle₂, hm, hc, ih a hnext fun b w₃ hle₃ => hQ b w₃ (hle.trans (hle₂.trans hle₃))⟩

/-- What the outcome is like holds from then on, as `Sound` is about every later world. -/
theorem stays (h : Sound p said Q w) : Sound p said (fun a w₁ => ∀ w₂, w₁ ≤ w₂ → Q a w₂) w := by
  induction p generalizing said w with
  | done a => exact fun w₁ hle w₂ hle₂ => h w₂ (hle.trans hle₂)
  | call c next ih =>
    intro w₁ hle a m' hans
    obtain ⟨w₂, hle₂, hm, hc, hnext⟩ := h w₁ hle a m' hans
    exact ⟨w₂, hle₂, hm, hc, ih a hnext⟩

/-- `Sound` goes through a sequence: the second part is sound in the worlds that the first ends
in. -/
theorem bind {f : α → Work β} {Q : β → World registry → Prop}
    (h : Sound p said (fun a w₁ => ∀ said', Sound (f a) said' Q w₁) w) :
    Sound (p.andThen f) said Q w := by
  induction p generalizing said w with
  | done a => exact h w le_rfl said
  | call c next ih =>
    intro w₁ hle a m' hans
    obtain ⟨w₂, hle₂, hm, hc, hnext⟩ := h w₁ hle a m' hans
    exact ⟨w₂, hle₂, hm, hc, ih a hnext⟩

/-- `Sound` of a call that completes no acknowledgement. -/
theorem call {c : Call} {next : c.Answer → Work α}
    (hc : ∀ flow b r, c ≠ .progress (.record flow b r))
    (h : ∀ w₁, w ≤ w₁ → ∀ a m', Answers w₁.memory c a m' →
      ∃ w₂, w₁ ≤ w₂ ∧ w₂.memory = m' ∧ w₂.completed = w₁.completed ∧
        Sound (next a) (said ++ [⟨c, a⟩]) Q w₂) :
    Sound (.call c next) said Q w := by
  intro w₁ hle a m' hans
  obtain ⟨w₂, hle₂, hm, hcomp, hnext⟩ := h w₁ hle a m' hans
  refine ⟨w₂, hle₂, hm, fun flow b r => ?_, hnext⟩
  rw [hcomp]
  refine ⟨.inl, fun hor => hor.elim id fun hnew => ?_⟩
  exact absurd (congrArg Said.call hnew.1) (hc flow b r)

/-- `Sound` of a call that leaves everything as it is. -/
theorem look {c : Call} {next : c.Answer → Work α}
    (hc : ∀ flow b r, c ≠ .progress (.record flow b r))
    (h : ∀ w₁, w ≤ w₁ → ∀ a m', Answers w₁.memory c a m' →
      m' = w₁.memory ∧ Sound (next a) (said ++ [⟨c, a⟩]) Q w₁) :
    Sound (.call c next) said Q w := by
  refine call hc fun w₁ hle a m' hans => ?_
  obtain ⟨rfl, hnext⟩ := h w₁ hle a m' hans
  exact ⟨w₁, le_rfl, rfl, rfl, hnext⟩

end Sound

/-! ## Calls on the log -/

theorem Answers.log {m m' : Memory} {c : LogCall} {a : c.Answer} (h : Answers m (.log c) a m') :
    a = (Memory.answerLog m.log c).1 ∧ m' = { m with log := (Memory.answerLog m.log c).2 } := by
  cases h with
  | given => exact ⟨rfl, rfl⟩

theorem Answers.progress {m m' : Memory} {c : ProgressCall} {a : c.Answer}
    (h : Answers m (.progress c) a m') :
    a = (Memory.answerProgress m.progress c).1 ∧
      m' = { m with progress := (Memory.answerProgress m.progress c).2 } := by
  cases h with
  | given => exact ⟨rfl, rfl⟩

section

variable {said : List Said} {w : World registry}

/-- `Sound` of the calls that leave the log as it is. -/
theorem sound_log {c : LogCall} {Q : c.Answer → World registry → Prop}
    (hlog : ∀ l : EventLog, (Memory.answerLog l c).2 = l)
    (hQ : ∀ w₁, w ≤ w₁ → ∀ w₂, w₁ ≤ w₂ → Q (Memory.answerLog w₁.memory.log c).1 w₂) :
    Sound (Work.log c) said Q w := by
  refine Sound.look (fun _ _ _ h => by cases h) fun w₁ hle a m' hans => ?_
  obtain ⟨rfl, rfl⟩ := hans.log
  rw [hlog]
  exact ⟨rfl, hQ w₁ hle⟩

theorem answerLog_next (l : EventLog) (reader : Reader) :
    (Memory.answerLog l (.next reader)).2 = l := by
  unfold Memory.answerLog
  cases reader with
  | memory cursor => cases h : l.next? cursor <;> simp [h]
  | table | ended => rfl

/-- Only `LogCall.append` changes the events. -/
theorem answerLog_events (l : EventLog) {c : LogCall} (hc : ∀ batch, c ≠ .append batch) :
    (Memory.answerLog l c).2.events = l.events := by
  cases c with
  | append batch => exact absurd rfl (hc batch)
  | storeSnapshot s =>
    simp only [Memory.answerLog, EventLog.storeSnapshot]
    cases s.validate <;> rfl
  | next reader => rw [answerLog_next]
  | read | last | hasCausedBy | snapshot | aggregates | nextAggregate => rfl

/-- An event comes from a cursor in memory, by `EventLog.next?`. -/
theorem answerLog_next_ok {l : EventLog} {reader reader' : Reader} {e : Event}
    (h : (Memory.answerLog l (.next reader)).1 = (some (.ok e), reader')) :
    ∃ c c', reader = .memory c ∧ reader' = .memory c' ∧ l.next? c = some (e, c') := by
  unfold Memory.answerLog at h
  cases reader with
  | memory cursor =>
    cases hnext : l.next? cursor with
    | none => simp [hnext] at h
    | some out =>
      simp only [hnext, Prod.mk.injEq, Option.some.injEq, Except.ok.injEq] at h
      obtain ⟨rfl, rfl⟩ := h
      exact ⟨cursor, out.2, rfl, rfl, hnext⟩
  | table | ended => simp at h

/-- A read gives a cursor at its start, `EventLog.openCursor`. -/
theorem sound_read (selection : Selection) :
    Sound (Work.log (.read selection)) said
      (fun out (_ : World registry) => ∀ reader, out = .ok reader →
        reader = .memory (EventLog.openCursor selection)) w := by
  refine sound_log (fun _ => rfl) fun w₁ _ w₂ _ reader h => ?_
  exact (Except.ok.inj h).symm

/-- What is read is stored. -/
theorem sound_next (reader : Reader) :
    Sound (Work.log (.next reader)) said
      (fun out (w₁ : World registry) => ∀ e reader', out = (some (.ok e), reader') →
        e ∈ w₁.memory.log.events) w := by
  refine sound_log (fun l => answerLog_next l reader) fun w₁ _ w₂ hle e reader' h => ?_
  obtain ⟨c, c', -, -, hnext⟩ := answerLog_next_ok h
  exact World.stored_of_le hle (EventLog.mem_of_next? hnext)

/-- What is read of a stream is the event of the revision that comes next. -/
theorem sound_next_stream (a : Uuid) (range : RevisionRange) {n : Nat} (hn : 0 < n) :
    Sound (Work.log (.next (.memory (.stream a range n)))) said
      (fun out (w₁ : World registry) => ∀ e reader', out = (some (.ok e), reader') →
        e ∈ w₁.memory.log.events ∧ e.aggregateId = a ∧ e.revision = n ∧
          reader' = .memory (.stream a range (n + 1))) w := by
  refine sound_log (fun l => answerLog_next l _) fun w₁ _ w₂ hle e reader' h => ?_
  obtain ⟨c, c', hc, rfl, hnext⟩ := answerLog_next_ok h
  obtain rfl := Reader.memory.inj hc
  obtain ⟨hmem, hagg, hrev, rfl⟩ := w₁.lawful.numbered.next?_stream hn hnext
  exact ⟨World.stored_of_le hle hmem, hagg, hrev, rfl⟩

/-- `append` is sound: the events of an accepted batch are stored. -/
theorem sound_append (batch : List Event) :
    Sound (Work.log (.append batch)) said
      (fun out (w₁ : World registry) => out = .ok () →
        ∀ e ∈ batch, e ∈ w₁.memory.log.events) w := by
  refine Sound.call (fun _ _ _ h => by cases h) fun w₁ hle a m' hans => ?_
  obtain ⟨rfl, rfl⟩ := hans.log
  cases happ : w₁.memory.log.append batch with
  | ok l =>
    have hanswer : Memory.answerLog w₁.memory.log (.append batch) = (.ok (), l) := by
      simp [Memory.answerLog, happ]
    rw [hanswer]
    refine ⟨w₁.store happ, World.le_store happ, rfl, rfl, fun w₂ hle₂ _ e he => ?_⟩
    exact World.stored_of_le hle₂ (World.mem_store happ he)
  | error e =>
    have hanswer : Memory.answerLog w₁.memory.log (.append batch) = (.error e, w₁.memory.log) := by
      simp [Memory.answerLog, happ]
    rw [hanswer]
    exact ⟨w₁, le_rfl, rfl, rfl, fun w₂ _ hok => by cases hok⟩

/-! ## Calls on the queue -/

/-- A call on the queue leads to a later world if what it enqueues is stored, as `Stocked` asks. -/
theorem World.exists_queue {c : QueueCall Event} {a : c.Answer} {m' : Memory}
    (hans : Answers w.memory (.queue c) a m')
    (hc : ∀ flow e priority, c = .enqueue flow e priority → e ∈ w.memory.log.events) :
    ∃ w₂, w ≤ w₂ ∧ w₂.memory = m' ∧ w₂.completed = w.completed := by
  cases hans with
  | failed => exact ⟨w, le_rfl, rfl, rfl⟩
  | given r =>
    have hitems : ∀ flow, ∀ e ∈ (Memory.answerQueue w.memory.queue r c).2.items flow,
        e ∈ w.memory.log.events := by
      intro flow e he
      rcases w.lawful.stocked.wf.mem_items_answer he with he | ⟨priority, heq⟩
      · exact w.lawful.stocked.stored flow e he
      · exact hc flow e priority heq
    refine ⟨w.requeue _ ⟨w.lawful.stocked.wf.answer r c, hitems⟩, ?_, rfl, rfl⟩
    exact ⟨List.prefix_refl _, fun _ _ _ h => h, fun _ _ _ h => h⟩

theorem sound_queue {c : QueueCall Event}
    (hc : ∀ flow e priority, c = .enqueue flow e priority → e ∈ w.memory.log.events) :
    Sound (Work.queue c) said (fun _ _ => True) w := by
  refine Sound.call (fun _ _ _ h => by cases h) fun w₁ hle a m' hans => ?_
  obtain ⟨w₂, hle₂, hm, hcomp⟩ := World.exists_queue hans
    fun flow e priority h => World.stored_of_le hle (hc flow e priority h)
  exact ⟨w₂, hle₂, hm, hcomp, fun _ _ => trivial⟩

/-- What is acknowledged is stored, for it waited in a queue that is `Stocked`. -/
theorem World.mem_of_acknowledge {lock : Lock} {e : Event} {m' : Memory}
    (hans : Answers w.memory (.queue (.acknowledge lock)) (.ok e) m') :
    e ∈ w.memory.log.events := by
  generalize ha : (Except.ok e : Except QueueError Event) = a at hans
  cases hans with
  | given r =>
    have hmem := w.lawful.stocked.wf.mem_items_of_acknowledge ha.symm
    exact w.lawful.stocked.stored _ _ hmem

/-! ## Calls on the progress table, and calls that keep nothing -/

/-- About what `Progress.isSettled` holds of when it was looked up, nothing is left to do. -/
theorem sound_get (flow : String) (a : Uuid) :
    Sound (Work.progress (.get flow a)) said
      (fun out (w₁ : World registry) => ∀ p, out = .ok p → ∀ r, p.isSettled r = true →
        w₁.Passed flow a r) w := by
  refine Sound.look (fun _ _ _ h => by cases h) fun w₁ hle out m' hans => ?_
  obtain ⟨rfl, rfl⟩ := hans.progress
  refine ⟨rfl, fun w₂ hle₂ p hp r hr => ?_⟩
  obtain rfl := Except.ok.inj hp
  exact (w₁.passed_of_settled hr).mono hle₂

/-- The watermark may go up where all below is `World.Passed`. -/
theorem sound_advance {flow : String} {a : Uuid} {n : Nat} (h : ∀ r ≤ n, w.Passed flow a r) :
    Sound (Work.progress (.advance flow a n)) said (fun _ _ => True) w := by
  refine Sound.call (fun _ _ _ h => by cases h) fun w₁ hle out m' hans => ?_
  obtain ⟨rfl, rfl⟩ := hans.progress
  have hpassed : ∀ r ≤ n, w₁.Passed flow a r := fun r hr => (h r hr).mono hle
  exact ⟨w₁.advance flow a n hpassed, World.le_advance hpassed, rfl, rfl, fun _ _ => trivial⟩

theorem sound_wake : Sound Work.wake said (fun _ _ => True) w := by
  refine Sound.look (fun _ _ _ h => by cases h) fun w₁ hle out m' hans => ?_
  cases hans with
  | given => exact ⟨rfl, fun _ _ => trivial⟩

theorem sound_note (n : Notice) : Sound (Work.note n) said (fun _ _ => True) w := by
  refine Sound.look (fun _ _ _ h => by cases h) fun w₁ hle out m' hans => ?_
  cases hans with
  | given => exact ⟨rfl, fun _ _ => trivial⟩

end

/-! ## Work that stops at the first failure -/

/-- The work is `Sound`, and if it does not fail its result is as `Q` says. -/
def SoundPart (x : ExceptT ε (Procedure Call Call.Answer) α) (Q : α → World registry → Prop)
    (w : World registry) : Prop :=
  ∀ said, Sound x.run said (fun out w₁ => ∀ a, out = .ok a → Q a w₁) w

namespace SoundPart

variable {x : ExceptT ε (Procedure Call Call.Answer) α} {Q Q' : α → World registry → Prop}
  {w w' : World registry}

theorem imp (h : SoundPart x Q w) (hQ : ∀ a w₁, w ≤ w₁ → Q a w₁ → Q' a w₁) :
    SoundPart x Q' w :=
  fun said => (h said).imp fun _ w₁ hle hout a ha => hQ a w₁ hle (hout a ha)

theorem pure {a : α} (h : ∀ w₁, w ≤ w₁ → Q a w₁) :
    SoundPart (Pure.pure a : ExceptT ε (Procedure Call Call.Answer) α) Q w := by
  intro said w₁ hle b hb
  obtain rfl := Except.ok.inj hb
  exact h w₁ hle

theorem throw (e : ε) :
    SoundPart (MonadExcept.throw e : ExceptT ε (Procedure Call Call.Answer) α) Q w := by
  intro said w₁ hle b hb
  cases hb

/-- `Sound.bind` for a part that may fail. A failure ends the whole with nothing more to do. -/
theorem bind {f : α → ExceptT ε (Procedure Call Call.Answer) β} {Q : β → World registry → Prop}
    (h : SoundPart x (fun a w₁ => SoundPart (f a) Q w₁) w) : SoundPart (x >>= f) Q w := by
  intro said
  refine Sound.bind ((h said).imp fun out w₁ hle hout said' => ?_)
  cases out with
  | ok a => exact hout a rfl said'
  | error e => exact fun w₂ hle₂ b hb => by cases hb

end SoundPart

end EventRelay
