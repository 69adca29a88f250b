import EventRelay.Proofs.Broker.Settled
import EventRelay.Proofs.Broker.Words
import EventRelay.Proofs.Progress.Canonical
import EventRelay.Proofs.Recovery.Asking

/-!
# Progress is never ahead of the log

Whatever is queued is stored, so only stored revisions are ever settled, and a recovery moves a
watermark up only to what it has read. What a party was told of progress and of last events may be
stale when it acts on it, but the log only grows, so that stays within the log. Therefore no party
ever leads the memory to a revision beyond the greatest word while the log has room for one more
event, and a recovery stops for nothing but an enqueueing that failed.
-/

namespace EventRelay

/-! ## Progress within a log -/

/-- Nothing is settled beyond `latest`, and what is settled apart is not right above the
watermark. -/
structure Progress.Within (p : Progress) (latest : Nat) : Prop where
  watermark : p.watermark ≤ latest
  acknowledged : ∀ n ∈ p.acknowledged, p.watermark + 1 < n ∧ n ≤ latest

namespace Progress

variable {p : Progress} {latest latest' : Nat}

theorem Within.mono (h : p.Within latest) (hle : latest ≤ latest') : p.Within latest' where
  watermark := Nat.le_trans h.watermark hle
  acknowledged n hn := ⟨(h.acknowledged n hn).1, Nat.le_trans (h.acknowledged n hn).2 hle⟩

/-- A `Tidy` progress is within the log if what it settles is. -/
theorem Tidy.within (h : p.Tidy) (hs : ∀ n, p.isSettled n = true → n ≤ latest) :
    p.Within latest where
  watermark := hs _ p.isSettled_watermark
  acknowledged n hn := ⟨h.gap n hn, hs n (isSettled_iff.2 (.inr hn))⟩

end Progress

/-- Each `ProgressCall` keeps the form of every entry. -/
theorem Answers.tidy {m m' : Memory} {c : Call} {a : c.Answer} (hans : Answers m c a m')
    (h : ∀ flow b, (m.progress.get flow b).Tidy) (flow : String) (b : Uuid) :
    (m'.progress.get flow b).Tidy := by
  cases hans with
  | failed => exact h flow b
  | given r =>
    cases c with
    | progress c =>
      have hget := Progress.get_answerProgress m.progress c flow b
      exact hget ▸ Progress.tidy_foldl (h flow b) _
    | log | queue | wake | note => exact h flow b

/-- What is left of the party `Asks` only what its task may, and nothing that it was told is ahead
of the log. -/
structure Party.Keeps (registry : Registry) (p : Party) (l : EventLog) : Prop where
  asks : Asks (p.task.Asking registry) p.task.Ending p.rest p.said
  progress : ∀ flow a q, Recovery.ToldProgress p.said flow a q → q.Within (l.latest a)
  last : ∀ a latest, Recovery.ToldLatest p.said a latest → latest ≤ l.latest a

namespace Party.Keeps

variable {registry : Registry}

theorem start (t : Task) (l : EventLog) :
    (⟨t, t.work registry, []⟩ : Party).Keeps registry l where
  asks := t.asks registry
  progress flow a q h := nomatch h
  last a latest := by
    rintro ⟨_, _, h, -⟩
    cases h

variable {p : Party} {l l' : EventLog}

/-- What was told stays `Within` the log as it grows. -/
theorem mono (h : p.Keeps registry l) (hle : l.events <+: l'.events) : p.Keeps registry l' where
  asks := h.asks
  progress flow a q hq := (h.progress flow a q hq).mono (EventLog.latest_mono hle a)
  last a latest ht := Nat.le_trans (h.last a latest ht) (EventLog.latest_mono hle a)

/-- An answer is within the log if the progress was, so the party goes on keeping to its task. -/
theorem answered {t : Task} {c : Call} {next : c.Answer → Work t.Outcome} {said : List Said}
    {m m' : Memory} {a : c.Answer} (h : (⟨t, .call c next, said⟩ : Party).Keeps registry m.log)
    (hn : m.log.Numbered) (hwithin : ∀ flow b, (m.progress.get flow b).Within (m.log.latest b))
    (hans : Answers m c a m') : (⟨t, next a, said ++ [⟨c, a⟩]⟩ : Party).Keeps registry m.log where
  asks := h.asks.2 a ⟨m, m', hans⟩
  progress flow b q hq := by
    rcases List.mem_append.1 hq with hq | hq
    · exact h.progress flow b q hq
    · cases List.mem_singleton.1 hq
      exact Except.ok.inj hans.progress.1 ▸ hwithin flow b
  last b latest := by
    rintro ⟨x, e, hx, rfl, rfl⟩
    rcases List.mem_append.1 hx with hx | hx
    · exact h.last x.id e.revision ⟨x, e, hx, rfl, rfl⟩
    · cases List.mem_singleton.1 hx
      exact Nat.le_of_eq (hn.last_eq_ok hans.log.1.symm).2.2

end Party.Keeps

/-! ## Every system that can be reached -/

namespace System

variable {registry : Registry} {s s' : System} {w : World registry}

/-- Progress is kept `Tidy`, and every party `Keeps` to its task. -/
structure Kept (registry : Registry) (s : System) : Prop where
  tidy : ∀ flow a, (s.memory.progress.get flow a).Tidy
  parties : ∀ p ∈ s.parties, p.Keeps registry s.memory.log

/-- What is settled is `World.Passed`, and that is never beyond the log. -/
theorem InWorld.le_latest (hw : InWorld s w) {flow : String} {a : Uuid} {r : Nat}
    (h : s.memory.progress.Settled flow a r) : r ≤ s.memory.log.latest a := by
  rw [← hw.memory] at h ⊢
  exact w.le_latest_of_passed (w.passed_of_settled h)

/-- The form is `Kept`, and the bound is that of the world. -/
theorem Kept.within (h : s.Kept registry) (hw : InWorld s w) (flow : String) (a : Uuid) :
    (s.memory.progress.get flow a).Within (s.memory.log.latest a) :=
  (h.tidy flow a).within fun _ hr => hw.le_latest hr

/-- `Kept` holds after each step. The one who moves is `Party.Keeps.answered`; for the others the
log only grew. -/
theorem Kept.step (h : s.Kept registry) (hw : InWorld s w) (hs : Step registry s s') :
    s'.Kept registry where
  tidy := by
    cases hs with
    | start => exact h.tidy
    | call _ _ _ _ hans => exact hans.tidy h.tidy
  parties := by
    obtain ⟨w', hle, hw'⟩ := hw.step hs
    have hstored : s.memory.log.events <+: s'.memory.log.events :=
      hw.memory ▸ hw'.memory ▸ hle.stored
    have hn : s.memory.log.Numbered := hw.memory ▸ w.lawful.numbered
    refine hs.forall_parties h.parties (fun t => .start t _) ?_ fun p hp => hp.mono hstored
    intro t c a next said hans hp
    exact (hp.answered hn (h.within hw) hans).mono hstored

theorem Reachable.kept (hs : Reachable registry s) : s.Kept registry := by
  induction hs with
  | refl => exact ⟨fun _ _ => Progress.tidy_empty, List.forall_mem_nil _⟩
  | tail hreach hstep ih =>
    obtain ⟨w, hw⟩ := Reachable.exists_world hreach
    exact ih.step hw hstep

/-- No enqueueing fails: each call is answered as `Memory.answer` has it, by whichever memory. -/
def Faithful {σ : Type} (handler : (c : Call) → σ → c.Answer × σ) : Prop :=
  ∀ c st, ∃ (m : Memory) (r : Call.Reading), (handler c st).1 = (m.answer r c).1

theorem Faithful.enqueue_ne_storage {σ : Type} {handler : (c : Call) → σ → c.Answer × σ}
    (h : Faithful handler) {flow : String} {e : Event} {priority : Int} {reason : String} (st : σ) :
    (handler (.queue (.enqueue flow e priority)) st).1 ≠ .error (.storage reason) := by
  intro hout
  obtain ⟨m, r, heq⟩ := h (.queue (.enqueue flow e priority)) st
  have hstorage : (m.queue.enqueue flow e priority).1 = .error (.storage reason) :=
    heq.symm.trans hout
  rcases Dispatch.enqueue_fst_cases m.queue flow e priority with hok | ⟨lane, key, herr⟩
  · exact absurd (hok.symm.trans hstorage) nofun
  · exact absurd (Except.error.inj (herr.symm.trans hstorage)) nofun

/-- Progress and everything that rests on it stay within the log, and so within `Word`s. -/
structure WithinLog (s : System) : Prop where
  /-- What is recorded is within the log. -/
  records : ∀ flow a, (s.memory.progress.get flow a).Within (s.memory.log.latest a)
  /-- So is what a party was told, however long ago. -/
  told : ∀ p ∈ s.parties, ∀ flow a q, Recovery.ToldProgress p.said flow a q →
    q.Within (s.memory.log.latest a)
  /-- What a party calls for next fits into words, where there is room for one event more. -/
  answered : s.memory.log.length + 1 < Word.count →
    ∀ t c next said, (⟨t, .call c next, said⟩ : Party) ∈ s.parties →
    (∀ batch, c = .log (.append batch) → s.memory.log.length + batch.length + 1 < Word.count) →
    ∀ r, Word.answer s.memory r c = some (s.memory.answer r c)
  /-- The revisions above a watermark that was told, up to a last one that was, are a range. -/
  ranges : s.memory.log.length + 1 < Word.count →
    ∀ p ∈ s.parties, ∀ flow a q latest, Recovery.ToldProgress p.said flow a q →
      Recovery.ToldLatest p.said a latest → q.watermark < latest →
      ∃ first range, Word.succ q.watermark = some first ∧
        RevisionRange.between (some first) (some latest) = .ok range
  /-- A recovery reads nothing but such a range. -/
  reads : ∀ selection next said,
    (⟨.recover, .call (.log (.read selection)) next, said⟩ : Party) ∈ s.parties →
      ∃ a range, selection = .stream a range ∧ Recovery.Uncovers said a range
  /-- Nothing but a failed enqueueing stopped a recovery. -/
  stopped : ∀ err said, (⟨.recover, .done (.error err), said⟩ : Party) ∈ s.parties →
    Recovery.StoppedBy said err
  /-- A recovery comes to its end with a report, unless an enqueueing fails. -/
  recovers : ∀ rest said, (⟨.recover, rest, said⟩ : Party) ∈ s.parties →
    (∀ reason, ¬ EnqueueFailed said reason) →
    ∀ (σ : Type) (handler : (c : Call) → σ → c.Answer × σ), Faithful handler → ∀ st,
      ∃ report, (rest.run handler st).1 = .ok report

/-! ## Room for the revisions -/

/-- The system in which a party's next call has been answered is reachable too. -/
theorem Reachable.exists_answered {t : Task} {c : Call} {next : c.Answer → Work t.Outcome}
    {said : List Said} (hs : Reachable registry s)
    (hp : (⟨t, .call c next, said⟩ : Party) ∈ s.parties) (r : Call.Reading) :
    ∃ s', Reachable registry s' ∧ s'.memory = (s.memory.answer r c).2 := by
  obtain ⟨m, parties⟩ := s
  obtain ⟨before, after, rfl⟩ := List.append_of_mem hp
  exact ⟨_, hs.tail (.call before next said after (.given r c)), rfl⟩

/-- What a call settles is stored: it is settled in the system after the call, which is `WithinLog`
like all others. -/
theorem Reachable.le_latest_of_settles {t : Task} {c : ProgressCall}
    {next : c.Answer → Work t.Outcome} {said : List Said} (hs : Reachable registry s)
    (hp : (⟨t, .call (.progress c) next, said⟩ : Party) ∈ s.parties) (r : Call.Reading)
    {flow : String} {a : Uuid} {n : Nat}
    (hsettles : (Memory.answerProgress s.memory.progress c).2.Settled flow a n) :
    n ≤ s.memory.log.latest a := by
  obtain ⟨s', hs', hm⟩ := hs.exists_answered hp r
  obtain ⟨w', hw'⟩ := hs'.exists_world
  have hsettled : s'.memory.progress.Settled flow a n := by
    rw [hm]
    exact hsettles
  have hle := hw'.le_latest hsettled
  rw [hm] at hle
  exact hle

/-- As long as there is room, `Word.answer` is defined at the next call of every party and agrees
with `Memory.answer`. -/
theorem Reachable.answered {t : Task} {c : Call} {next : c.Answer → Work t.Outcome}
    {said : List Said} (hs : Reachable registry s)
    (hroom : s.memory.log.length + 1 < Word.count)
    (hp : (⟨t, .call c next, said⟩ : Party) ∈ s.parties)
    (hbatch : ∀ batch, c = .log (.append batch) →
      s.memory.log.length + batch.length + 1 < Word.count) (r : Call.Reading) :
    Word.answer s.memory r c = some (s.memory.answer r c) := by
  obtain ⟨w, hw⟩ := hs.exists_world
  have hsettled : ∀ flow a n, s.memory.progress.Settled flow a n → n + 1 < Word.count :=
    fun flow a n hn => Word.succ_lt_of_le_latest hroom (hw.le_latest hn)
  cases c with
  | log c =>
    cases c with
    | append batch => exact Word.answer_append r (hbatch batch rfl)
    | next reader =>
      have hpositive := ((hs.kept.parties _ hp).asks.1 rfl).goesOnAbove reader rfl
      exact Word.answer_next r hroom hpositive
    | read | last | hasCausedBy | storeSnapshot | snapshot | aggregates | nextAggregate => rfl
  | progress c =>
    cases c with
    | get => rfl
    | record flow a n =>
      have hn : (s.memory.progress.record flow a n).Settled flow a n :=
        ProgressTable.settled_record.2 (.inr ⟨rfl, rfl, rfl⟩)
      have hfits := Word.succ_lt_of_le_latest hroom (hs.le_latest_of_settles hp r hn)
      exact Word.answer_record r (hsettled flow a) hfits
    | advance flow a n =>
      have hn : (s.memory.progress.advance flow a n).Settled flow a n :=
        ProgressTable.settled_advance.2 (.inr ⟨rfl, rfl, Nat.le_refl n⟩)
      have hfits := Word.succ_lt_of_le_latest hroom (hs.le_latest_of_settles hp r hn)
      exact Word.answer_advance r (hsettled flow a) hfits
  | queue | wake | note => rfl

/-! ## Recoveries -/

/-- A recovery that was not told of a failure and is `Faithful`ly answered from now on comes to a
report. -/
theorem Kept.recovers {rest : Work (Except RecoveryError RecoveryReport)} {said : List Said}
    (h : s.Kept registry) (hp : (⟨.recover, rest, said⟩ : Party) ∈ s.parties)
    (hsaid : ∀ reason, ¬ EnqueueFailed said reason) {σ : Type}
    {handler : (c : Call) → σ → c.Answer × σ} (hfaithful : Faithful handler) (st : σ) :
    ∃ report, (rest.run handler st).1 = .ok report := by
  have hpossible : ∀ c st, Possible c (handler c st).1 := by
    intro c st
    obtain ⟨m, r, heq⟩ := hfaithful c st
    exact ⟨m, (m.answer r c).2, heq ▸ Answers.given r c⟩
  obtain ⟨said', hstopped, hanswers⟩ := (h.parties _ hp).asks.run hpossible st
  cases hout : (rest.run handler st).1 with
  | ok report => exact ⟨report, rfl⟩
  | error err =>
    -- it would have been stopped by an enqueueing that failed, before or from now on
    obtain ⟨reason, -, flow, e, priority, hmem⟩ := hstopped.2 err hout
    rcases List.mem_append.1 hmem with hmem | hmem
    · exact absurd ⟨flow, e, priority, hmem⟩ (hsaid reason)
    · obtain ⟨st', heq⟩ := hanswers _ hmem
      exact absurd heq.symm (hfaithful.enqueue_ne_storage st')

/-- **Progress is never ahead of the log.** However publishers, workers, replays and recoveries
interleave: no watermark is above the number of stored events of its aggregate, and what is settled
apart lies above the revision after the watermark and within that number. So as long as the log has
room for one more event, no revision that is worked out from another leaves the words of 64 bits; a
recovery is never refused the range that it asks for; and it comes to a report unless an enqueueing
fails. -/
theorem progress_within_log (hs : Reachable registry s) : s.WithinLog := by
  obtain ⟨w, hw⟩ := hs.exists_world
  have hkept := hs.kept
  refine
    { records := hkept.within hw
      told := fun p hp => (hkept.parties p hp).progress
      answered := fun hroom t c next said hp => hs.answered hroom hp
      ranges := fun hroom p hp flow a q latest hq hlatest hlt => ?_
      reads := fun selection next said hp => ((hkept.parties _ hp).asks.1 rfl).reads selection rfl
      stopped := fun err said hp => (hkept.parties _ hp).asks.2 err rfl
      recovers := fun rest said hp hsaid σ handler hfaithful => hkept.recovers hp hsaid hfaithful }
  have hwatermark := ((hkept.parties p hp).progress flow a q hq).watermark
  obtain ⟨range, hrange, -⟩ := Recovery.between_eq_ok (Nat.succ_pos q.watermark) hlt
  have hfirst := Word.succ_eq (Word.succ_lt_of_le_latest hroom hwatermark)
  exact ⟨q.watermark + 1, range, hfirst, hrange⟩

/-- The first of two published events is put back, and the second is acknowledged before it. It is
settled apart, at the length of the log. -/
theorem progress_within_log_of_two :
    ∃ s, Reachable Sample.registry s ∧ s.WithinLog ∧ s.memory.log.latest (.ofNat 7) = 2 ∧
      s.memory.progress.get "mail" (.ofNat 7) = ⟨0, [2]⟩ := by
  obtain ⟨s, hs, hm⟩ := exists_leads_carryOut Sample.registry
    [(.publish [Sample.placed 1, Sample.placed 2], Sample.clockAt 1),
      (.lease, Sample.clockAt 2), (.defer ⟨"mail", .ofNat 2⟩ 9, Sample.clockAt 3),
      (.lease, Sample.clockAt 4), (.acknowledge ⟨"mail", .ofNat 4⟩, Sample.clockAt 5)] {}
  exact ⟨s, hs, progress_within_log hs, hm ▸ by decide, hm ▸ by decide⟩

end System

end EventRelay
