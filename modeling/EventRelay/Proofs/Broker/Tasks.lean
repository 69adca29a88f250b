import EventRelay.Proofs.Broker.Sound

/-!
# Every task is sound

Publishing and replaying enqueue what is stored. An acknowledgement records what it popped. A
recovery moves a watermark up over revisions about which nothing was left to do when it came to
them, and so there is nothing left to do when it moves it, whatever the others did meanwhile.
-/

namespace EventRelay

variable {registry : Registry} {α : Type} {said : List Said} {w : World registry} {e : Event}

/-! ## Handing out -/

theorem sound_wake_done (a : α) (w : World registry) :
    Sound (Work.wake >>= fun _ => Pure.pure a) said (fun _ _ => True) w :=
  Sound.bind (sound_wake.imp fun _ _ _ _ _ _ _ => trivial)

/-- `Dispatch.enqueue` is sound for an event that is stored. -/
theorem sound_enqueue {flow : String} {priority : Int} (he : e ∈ w.memory.log.events) :
    Sound (Dispatch.enqueue flow e priority) said (fun _ _ => True) w := by
  have hstored : ∀ flow' e' priority', QueueCall.enqueue flow e priority =
      .enqueue flow' e' priority' → e' ∈ w.memory.log.events := by
    intro _ _ _ h
    obtain ⟨-, rfl, -⟩ := QueueCall.enqueue.inj h
    exact he
  refine Sound.bind ((sound_queue hstored).imp fun out w₁ _ _ said' => ?_)
  cases out with
  | ok => exact sound_wake_done _ _
  | error => exact fun _ _ => trivial

/-- A call on the queue other than `QueueCall.enqueue`, and the waking that follows it if it
succeeds. -/
theorem sound_settle {c : QueueCall Event} {f : c.Answer → Work α}
    (hc : ∀ flow e priority, c ≠ .enqueue flow e priority)
    (hf : ∀ out said' (w₁ : World registry), Sound (f out) said' (fun _ _ => True) w₁) :
    Sound (Work.queue c >>= f) said (fun _ _ => True) w := by
  refine Sound.bind ((sound_queue fun flow e priority h => absurd h (hc flow e priority)).imp
    fun out w₁ _ _ said' => ?_)
  exact hf out said' w₁

theorem sound_note_done (n : Notice) (a : α) (w : World registry) :
    Sound (Work.note n >>= fun _ => Pure.pure a) said (fun _ _ => True) w :=
  Sound.bind ((sound_note n).imp fun _ _ _ _ _ _ _ => trivial)

theorem sound_sweep : Sound Dispatch.sweep said (fun _ (_ : World registry) => True) w := by
  refine sound_settle (fun _ _ _ h => by cases h) fun out said' w₁ => ?_
  split
  · exact fun _ _ => trivial
  · exact fun _ _ => trivial
  · exact sound_wake_done _ _

/-- `Dispatch.acknowledge` records only what it popped before, so it is sound begun with nothing
said. -/
theorem sound_acknowledge (lock : Lock) :
    Sound (Dispatch.acknowledge lock) [] (fun _ _ => True) w := by
  refine Sound.call (fun _ _ _ h => by cases h) fun w₁ _ a m' hans => ?_
  obtain ⟨w₂, hle₂, hm, hcomp⟩ := World.exists_queue hans (fun _ _ _ h => by cases h)
  refine ⟨w₂, hle₂, hm, hcomp, ?_⟩
  cases a with
  | error => exact fun _ _ => trivial
  | ok e =>
    have he : e ∈ w₂.memory.log.events := World.stored_of_le hle₂ (World.mem_of_acknowledge hans)
    refine Sound.look (fun _ _ _ h => by cases h) fun w₃ hle₃ a m' hans => ?_
    cases hans with
    | given =>
      refine ⟨rfl, fun w₄ hle₄ a m' hans => ?_⟩
      obtain ⟨rfl, rfl⟩ := hans.progress
      have he₄ := World.stored_of_le (hle₃.trans hle₄) he
      refine ⟨w₄.record lock.lane e he₄, World.le_record he₄, rfl, fun flow b r => ?_, ?_⟩
      · refine or_congr_right ⟨?_, ?_⟩
        · rintro ⟨rfl, rfl, rfl⟩
          exact ⟨rfl, lock.token, e, by simp, rfl, rfl⟩
        · rintro ⟨h, -⟩
          obtain ⟨rfl, rfl, rfl⟩ := ProgressCall.record.inj (Call.progress.inj (Said.mk.inj h).1)
          exact ⟨rfl, rfl, rfl⟩
      · exact sound_note_done _ _ _

/-! ## Publishing -/

theorem sound_enqueueFor {heldBack : Publish.HeldBack} {flow : String}
    (he : e ∈ w.memory.log.events) :
    Sound (Publish.enqueueFor e heldBack flow) said (fun _ _ => True) w := by
  unfold Publish.enqueueFor
  split
  · exact sound_note_done _ _ _
  · refine Sound.bind ((sound_enqueue he).imp fun out w₁ _ _ said' => ?_)
    split
    · exact sound_note_done _ _ _
    · exact fun _ _ => trivial
    · exact sound_note_done _ _ _

theorem sound_enqueueForAll {flows : List String} {heldBack : Publish.HeldBack}
    (he : e ∈ w.memory.log.events) :
    Sound (Publish.enqueueForAll e flows heldBack) said (fun _ _ => True) w := by
  induction flows generalizing heldBack said w with
  | nil => exact fun _ _ => trivial
  | cons flow flows ih =>
    refine Sound.bind ((sound_enqueueFor he).imp fun heldBack w₁ hle _ said' => ?_)
    exact ih (World.stored_of_le hle he)

/-- A batch is enqueued after it was stored, event by event, for its `Registry.owners`. -/
theorem sound_enqueueBatch {batch : List Event} {heldBack : Publish.HeldBack}
    (hb : ∀ e ∈ batch, e ∈ w.memory.log.events) :
    Sound (Publish.enqueueBatch registry batch heldBack) said (fun _ _ => True) w := by
  induction batch generalizing heldBack said w with
  | nil => exact fun _ _ => trivial
  | cons e rest ih =>
    have he := hb e List.mem_cons_self
    refine Sound.bind ((sound_enqueueForAll he).imp fun heldBack w₁ hle _ said' => ?_)
    exact ih fun e' he' => World.stored_of_le hle (hb e' (List.mem_cons_of_mem _ he'))

/-- Publishing is sound: what it enqueues was accepted by `sound_append`. -/
theorem sound_publish (batch : List Event) :
    Sound (Publish.publish registry batch) said (fun _ _ => True) w := by
  refine Sound.bind ((sound_append batch).imp fun out w₁ _ hout said' => ?_)
  cases out with
  | ok => exact Sound.bind ((sound_enqueueBatch (hout rfl)).imp fun _ _ _ _ _ _ _ => trivial)
  | error => exact fun _ _ => trivial

/-! ## Replaying -/

/-- A `Sound` answer that is taken as it is, or with its failure as one of the whole. -/
theorem soundPart_of_sound {β ε : Type} {p : Work α}
    {f : α → Procedure Call Call.Answer (Except ε β)} (conv : α → Except ε β)
    (hf : ∀ a, f a = .done (conv a)) {Q : β → World registry → Prop}
    (h : ∀ said, Sound p said (fun a w₁ => ∀ b, conv a = .ok b → Q b w₁) w) :
    SoundPart (ExceptT.mk (p >>= f)) Q w := by
  intro said
  refine Sound.bind ((h said).stays.imp fun a w₁ _ hout said' => ?_)
  rw [hf]
  exact hout

/-- `soundPart_of_sound` where only the failure is given another form. -/
theorem soundPart_mapError {δ ε : Type} {p : Work (Except δ α)}
    {f : Except δ α → Procedure Call Call.Answer (Except ε α)} (wrap : δ → ε)
    (hf : ∀ out, f out = .done (out.mapError wrap)) {Q : α → World registry → Prop}
    (h : ∀ said, Sound p said (fun out w₁ => ∀ a, out = .ok a → Q a w₁) w) :
    SoundPart (ExceptT.mk (p >>= f)) Q w := by
  refine soundPart_of_sound _ hf fun said => (h said).imp fun out _ _ hQ a ha => hQ a ?_
  cases out with
  | ok b => rw [Except.ok.inj ha]
  | error e => cases ha

namespace Replay

theorem soundPart_always {p : Work α} {Q : α → World registry → Prop}
    (h : ∀ said, Sound p said Q w) : SoundPart (always p) Q w :=
  soundPart_of_sound .ok (fun _ => rfl) fun said =>
    (h said).imp fun _ _ _ hQ _ hb => Except.ok.inj hb ▸ hQ

/-- An event that was read is stored, so it may be enqueued for each of the flows. -/
theorem soundPart_enqueueForAll {flows : List String} {report : ReplayReport}
    (he : e ∈ w.memory.log.events) :
    SoundPart (enqueueForAll e flows report) (fun _ _ => True) w := by
  induction flows generalizing report w with
  | nil => exact SoundPart.pure fun _ _ => trivial
  | cons flow flows ih =>
    refine SoundPart.bind ((soundPart_always fun said => sound_enqueue he).imp
      fun out w₁ hle _ => ?_)
    have he₁ := World.stored_of_le hle he
    split
    · exact ih he₁
    · exact ih he₁
    · exact SoundPart.throw _

/-- A visit of the next event keeps `Covers`: the event is settled or not wanted and the walk goes
over it, or the walk stops raising its mark. -/
theorem soundPart_visit {window : ReplayWindow} {report : ReplayReport}
    (he : e ∈ w.memory.log.events) :
    SoundPart (visit registry window report e) (fun _ _ => True) w := by
  unfold visit
  split
  · exact soundPart_enqueueForAll he
  · refine SoundPart.bind ((soundPart_always fun said => sound_note _).imp fun _ _ _ _ => ?_)
    exact SoundPart.pure fun _ _ => trivial

/-- A replay enqueues what `sound_next` says is stored, whatever its `count`. -/
theorem soundPart_walk {window : ReplayWindow} {count : Nat} {reader : Reader}
    {report : ReplayReport} :
    SoundPart (walk registry window count reader report) (fun _ _ => True) w := by
  induction count generalizing reader report w with
  | zero => exact SoundPart.pure fun _ _ => trivial
  | succ count ih =>
    refine SoundPart.bind ((soundPart_always fun said => sound_next reader).imp
      fun out w₁ _ hout => ?_)
    split
    · exact SoundPart.pure fun _ _ => trivial
    · exact SoundPart.throw _
    · exact SoundPart.bind ((soundPart_visit (hout _ _ rfl)).imp fun _ _ _ _ => ih)

theorem soundPart_visitWindows {windows : List (ReplayWindow × RevisionRange)}
    {report : ReplayReport} :
    SoundPart (visitWindows registry windows report) (fun _ _ => True) w := by
  induction windows generalizing report w with
  | nil => exact SoundPart.pure fun _ _ => trivial
  | cons entry rest ih =>
    refine SoundPart.bind ((soundPart_always fun said => sound_read _).imp fun out w₁ _ _ => ?_)
    split
    · exact SoundPart.throw _
    · exact SoundPart.bind (soundPart_walk.imp fun _ _ _ _ => ih)

/-- A replay is `Sound`, whichever windows it is given. -/
theorem sound_perform (windows : List ReplayWindow) :
    Sound (perform registry windows) said (fun _ _ => True) w := by
  have hparts : SoundPart (parts registry windows) (fun _ _ => True) w := by
    refine SoundPart.bind (SoundPart.imp (Q := fun _ _ => True)
      (fun _ _ _ _ _ => trivial) fun ranges w₁ _ _ => ?_)
    refine SoundPart.bind (soundPart_visitWindows.imp fun report w₂ _ _ => ?_)
    refine SoundPart.bind ((soundPart_always fun said => sound_note _).imp fun _ _ _ _ => ?_)
    exact SoundPart.pure fun _ _ => trivial
  refine Sound.bind ((hparts said).imp fun out w₁ _ _ said' => ?_)
  cases out with
  | ok => exact fun _ _ => trivial
  | error => exact sound_note_done _ _ _

end Replay

/-! ## Recovering -/

namespace Recovery

theorem soundPart_always {p : Work α} {Q : α → World registry → Prop}
    (h : ∀ said, Sound p said Q w) : SoundPart (always p) Q w :=
  soundPart_of_sound .ok (fun _ => rfl) fun said =>
    (h said).imp fun _ _ _ hQ _ hb => Except.ok.inj hb ▸ hQ

theorem soundPart_onLog {p : Work (Except LogError α)} {Q : α → World registry → Prop}
    (h : ∀ said, Sound p said (fun out w₁ => ∀ a, out = .ok a → Q a w₁) w) :
    SoundPart (onLog p) Q w :=
  soundPart_mapError .log (fun out => by cases out <;> rfl) h

theorem soundPart_onQueue {p : Work (Except QueueError α)} {Q : α → World registry → Prop}
    (h : ∀ said, Sound p said (fun out w₁ => ∀ a, out = .ok a → Q a w₁) w) :
    SoundPart (onQueue p) Q w :=
  soundPart_mapError .queue (fun out => by cases out <;> rfl) h

theorem soundPart_onProgress {p : Work (Except ProgressError α)} {Q : α → World registry → Prop}
    (h : ∀ said, Sound p said (fun out w₁ => ∀ a, out = .ok a → Q a w₁) w) :
    SoundPart (onProgress p) Q w :=
  soundPart_mapError .progress (fun out => by cases out <;> rfl) h

/-- Nothing is left to do up to `Walk.settledUpTo`, and as long as nothing was left to do at all,
that is up to the revision before the next. -/
def Covers (w : World registry) (flow : String) (a : Uuid) (next : Nat) (walk : Walk) : Prop :=
  (∀ r ≤ walk.settledUpTo, w.Passed flow a r) ∧
    (walk.contiguous = true → walk.settledUpTo + 1 = next)

variable {flow : String} {a : Uuid} {next : Nat} {p : Progress}

/-- What a walk `Covers` stays covered in later worlds. -/
theorem Covers.mono {w' : World registry} {s : Walk} (h : Covers w flow a next s) (hle : w ≤ w') :
    Covers w' flow a next s :=
  ⟨fun r hr => (h.1 r hr).mono hle, h.2⟩

theorem soundPart_visit {s : Walk} (hs : Covers w flow a next s)
    (hp : ∀ r, p.isSettled r = true → w.Passed flow a r) (he : e ∈ w.memory.log.events)
    (hagg : e.aggregateId = a) (hrev : e.revision = next) :
    SoundPart (visit registry flow p s e) (fun s' w₁ => Covers w₁ flow a (next + 1) s') w := by
  -- what was found left to do ends the contiguous part, so the rest keeps what is covered
  have hkeep : ∀ s' : Walk, s'.settledUpTo = s.settledUpTo → s'.contiguous = false →
      ∀ w₁, w ≤ w₁ → Covers w₁ flow a (next + 1) s' := by
    intro s' hupto hcont w₁ hle
    refine ⟨fun r hr => ?_, fun h => ?_⟩
    · rw [hupto] at hr
      exact (hs.1 r hr).mono hle
    · rw [hcont] at h
      cases h
  unfold visit
  by_cases hpass : (!registry.routesTo e flow || p.isSettled e.revision) = true
  · have hnext : w.Passed flow a next := by
      rw [Bool.or_eq_true, Bool.not_eq_true'] at hpass
      rcases hpass with hroute | hsettled
      · exact .inr (.inr ⟨e, he, hagg, hrev, hroute⟩)
      · exact hp next (hrev ▸ hsettled)
    rw [if_pos hpass]
    -- only a walk that passed over nothing so far goes up to this event
    by_cases hcont : s.contiguous = true
    · rw [if_pos hcont]
      refine SoundPart.pure fun w₁ hle => ⟨fun r hr => ?_, fun _ => by simp only [hrev]⟩
      have hupto := hs.2 hcont
      simp only [hrev] at hr
      rcases Nat.lt_or_ge s.settledUpTo r with hlt | hge
      · obtain rfl : r = next := by omega
        exact hnext.mono hle
      · exact (hs.1 r hge).mono hle
    · rw [if_neg hcont]
      exact SoundPart.pure (hkeep s rfl (Bool.eq_false_iff.2 hcont))
  · rw [if_neg hpass]
    refine SoundPart.bind ((soundPart_always fun said => sound_enqueue he).imp
      fun out w₁ hle _ => ?_)
    have hkeep' : ∀ s' : Walk, s'.settledUpTo = s.settledUpTo → s'.contiguous = false →
        ∀ w₂, w₁ ≤ w₂ → Covers w₂ flow a (next + 1) s' :=
      fun s' hupto hcont w₂ hle₂ => hkeep s' hupto hcont w₂ (hle.trans hle₂)
    split
    · refine SoundPart.bind ((soundPart_always fun said => sound_note _).imp fun _ w₂ hle₂ _ => ?_)
      refine SoundPart.pure fun w₃ hle₃ => hkeep' _ ?_ ?_ w₃ (hle₂.trans hle₃)
      · rfl
      · rfl
    · exact SoundPart.pure (hkeep' _ rfl rfl)
    · exact SoundPart.throw _

/-- At the end of a walk `Walk.settledUpTo` is over `World.Passed` revisions only. -/
theorem soundPart_walk {range : RevisionRange} {count : Nat} {s : Walk} (hnext : 0 < next)
    (hs : Covers w flow a next s) (hp : ∀ r, p.isSettled r = true → w.Passed flow a r) :
    SoundPart (walk registry flow p count (.memory (.stream a range next)) s)
      (fun s' w₁ => ∀ r ≤ s'.settledUpTo, w₁.Passed flow a r) w := by
  induction count generalizing next s w with
  | zero => exact SoundPart.pure fun w₁ hle => (hs.mono hle).1
  | succ count ih =>
    refine SoundPart.bind ((soundPart_always fun said => sound_next_stream a range hnext).imp
      fun out w₁ hle hout => ?_)
    have hs₁ := hs.mono hle
    have hp₁ : ∀ r, p.isSettled r = true → w₁.Passed flow a r := fun r hr => (hp r hr).mono hle
    split
    · exact SoundPart.pure fun w₂ hle₂ => (hs₁.mono hle₂).1
    · exact SoundPart.throw _
    · next e reader =>
      obtain ⟨he, hagg, hrev, rfl⟩ := hout e reader rfl
      refine SoundPart.bind ((soundPart_visit hs₁ hp₁ he hagg hrev).imp fun s' w₂ hle₂ hs' => ?_)
      exact ih (Nat.succ_pos next) hs' fun r hr => (hp₁ r hr).mono hle₂

theorem first_of_between {m : Nat} {last? : Option Nat} {range : RevisionRange}
    (h : RevisionRange.between (some m) last? = .ok range) : range.first = m := by
  unfold RevisionRange.between at h
  split at h
  · cases h
  · split at h
    · cases h
    · split at h
      · cases h
      · rw [← Except.ok.inj h]
        rfl

/-- The watermark goes up to `Walk.settledUpTo`, which `soundPart_walk` makes sound. -/
theorem soundPart_visitFlow {latest : Nat} {report : RecoveryReport} :
    SoundPart (visitFlow registry a latest report flow) (fun _ _ => True) w := by
  refine SoundPart.bind ((soundPart_onProgress fun said => sound_get flow a).imp
    fun p w₁ _ hp => ?_)
  split
  · exact SoundPart.pure fun _ _ => trivial
  · refine SoundPart.bind (SoundPart.imp (soundPart_onLog (Q := fun range _ =>
      range.first = p.watermark + 1) fun said w₂ _ range hrange => first_of_between hrange)
        fun range w₂ hle₂ hfirst => ?_)
    refine SoundPart.bind ((soundPart_onLog fun said => sound_read _).imp
      fun reader w₃ hle₃ hreader => ?_)
    have hp₃ : ∀ r, p.isSettled r = true → w₃.Passed flow a r :=
      fun r hr => (hp r hr).mono (hle₂.trans hle₃)
    have hstart : Covers w₃ flow a range.first { settledUpTo := p.watermark, report := report } :=
      ⟨fun r hr => hp₃ r (Progress.isSettled_iff.2 (.inl hr)), fun _ => hfirst.symm⟩
    rw [hreader]
    refine SoundPart.bind ((soundPart_walk (by omega) hstart hp₃).imp fun s w₄ _ hs => ?_)
    split
    · refine SoundPart.bind (SoundPart.imp (Q := fun _ _ => True)
        (soundPart_onProgress fun said => (sound_advance hs).imp fun _ _ _ _ _ _ => trivial)
          fun _ _ _ _ => ?_)
      exact SoundPart.pure fun _ _ => trivial
    · exact SoundPart.pure fun _ _ => trivial

theorem soundPart_visitFlows {latest : Nat} {flows : List String} {report : RecoveryReport} :
    SoundPart (visitFlows registry a latest flows report) (fun _ _ => True) w := by
  induction flows generalizing report w with
  | nil => exact SoundPart.pure fun _ _ => trivial
  | cons flow flows ih => exact SoundPart.bind (soundPart_visitFlow.imp fun _ _ _ _ => ih)

theorem soundPart_visitAggregates {delivered : List (Except LogError Aggregate)}
    {report : RecoveryReport} :
    SoundPart (visitAggregates registry delivered report) (fun _ _ => True) w := by
  induction delivered generalizing report w with
  | nil => exact SoundPart.pure fun _ _ => trivial
  | cons x rest ih =>
    refine SoundPart.bind (SoundPart.imp (Q := fun _ _ => True) (soundPart_onLog fun said =>
      sound_log (fun _ => rfl) fun _ _ _ _ _ _ => trivial) fun aggregate w₁ _ _ => ?_)
    refine SoundPart.bind (SoundPart.imp (Q := fun _ _ => True) (soundPart_always fun said =>
      sound_log (fun _ => rfl) fun _ _ _ _ => trivial) fun out w₂ _ _ => ?_)
    split
    · exact SoundPart.bind (soundPart_visitFlows.imp fun _ _ _ _ => ih)
    · exact ih
    · exact SoundPart.throw _

theorem soundPart_sweepLeases :
    SoundPart sweepLeases (fun _ (_ : World registry) => True) w := by
  have hnotes : ∀ (expired : List Lease) (w₁ : World registry),
      SoundPart (forIn expired PUnit.unit fun lease (_ : PUnit) =>
        (do always (Work.note (.leaseExpired lease)); pure (.yield .unit) : Part (ForInStep PUnit)))
        (fun _ _ => True) w₁ := by
    intro expired
    induction expired with
    | nil => exact fun w₁ => SoundPart.pure fun _ _ => trivial
    | cons lease rest ih =>
      intro w₁
      rw [List.forIn_cons]
      refine SoundPart.bind (SoundPart.imp (SoundPart.bind
        ((soundPart_always fun said => sound_note _).imp fun _ _ _ _ =>
          SoundPart.pure (Q := fun step _ => step = ForInStep.yield PUnit.unit) fun _ _ => rfl))
        fun step w₂ _ hstep => ?_)
      rw [hstep]
      exact ih w₂
  refine SoundPart.bind (SoundPart.imp (soundPart_onQueue (Q := fun _ _ => True) fun said =>
    sound_sweep.imp fun _ _ _ _ _ _ => trivial) fun expired w₁ _ _ => ?_)
  exact SoundPart.bind ((hnotes expired w₁).imp fun _ _ _ _ => SoundPart.pure fun _ _ => trivial)

/-- A tick of recovery is `Sound`. -/
theorem sound_run : Sound (run registry) said (fun _ _ => True) w := by
  have hparts : SoundPart (parts registry) (fun _ _ => True) w := by
    refine SoundPart.bind (soundPart_sweepLeases.imp fun expired w₁ _ _ => ?_)
    split
    · exact SoundPart.pure fun _ _ => trivial
    · refine SoundPart.bind (SoundPart.imp (Q := fun _ _ => True) (soundPart_onLog fun said =>
        sound_log (fun _ => rfl) fun _ _ _ _ _ _ => trivial) fun delivered w₂ _ _ => ?_)
      exact soundPart_visitAggregates
  exact (hparts said).imp fun _ _ _ _ => trivial

end Recovery

/-- **Every task is `Sound`**, begun in any world. -/
theorem Task.sound (t : Task) (w : World registry) :
    Sound (t.work registry) [] (fun _ _ => True) w := by
  cases t with
  | publish batch => exact sound_publish batch
  | lease =>
    refine sound_settle (fun _ _ _ h => by cases h) fun out said' w₁ => ?_
    split
    · exact sound_note_done _ _ _
    · exact fun _ _ => trivial
  | renew lock => exact (sound_queue fun _ _ _ h => by cases h).imp fun _ _ _ _ => trivial
  | release lock =>
    refine sound_settle (fun _ _ _ h => by cases h) fun out said' w₁ => ?_
    cases out with
    | ok => exact sound_wake_done _ _
    | error => exact fun _ _ => trivial
  | acknowledge lock => exact sound_acknowledge lock
  | defer lock priority =>
    refine sound_settle (fun _ _ _ h => by cases h) fun out said' w₁ => ?_
    cases out with
    | ok => exact sound_wake_done _ _
    | error => exact fun _ _ => trivial
  | sweep => exact sound_sweep
  | replay windows => exact Replay.sound_perform windows
  | recover => exact Recovery.sound_run

end EventRelay
