import EventRelay.Proofs.Broker.Asking
import EventRelay.Proofs.Recovery.Effect

/-!
# What a recovery asks for, and where it stops

A recovery asks for a stream only if the last revision that it was told is above the watermark that
it was told, so the range that it asks for is never refused. It puts an event into the lane of a
flow only if it read the event, the flow wants it, and it is not settled in the progress that it
looks at. It stops where the storing of an event in a lane fails, and nowhere else, for nothing else
that it asks for is answered with a failure, and it reports that it put events into lanes only if it
did. With that it is known of every task what it may ask for.
-/

namespace EventRelay

namespace Recovery

variable {registry : Registry} {α : Type} {said said' : List Said} {flow : String} {a : Uuid}
  {latest : Nat} {P : List Said → Call → Prop} {E : List Said → RecoveryError → Prop}
  {Q : List Said → α → Prop}

/-- The `Progress` of a flow on an aggregate was told. -/
def ToldProgress (said : List Said) (flow : String) (a : Uuid) (p : Progress) : Prop :=
  (⟨.progress (.get flow a), .ok p⟩ : Said) ∈ said

/-- The last event of an aggregate was told by a `LogCall.last`, and this is its revision. -/
def ToldLatest (said : List Said) (a : Uuid) (latest : Nat) : Prop :=
  ∃ x e, (⟨.log (.last x), .ok e⟩ : Said) ∈ said ∧ x.id = a ∧ e.revision = latest

theorem ToldLatest.later (h : ToldLatest said a latest) (hle : said <+: said') :
    ToldLatest said' a latest := by
  obtain ⟨x, e, hmem, h⟩ := h
  exact ⟨x, e, hle.subset hmem, h⟩

/-- The range goes from right above a watermark up to a last revision, both as they were told:
`ToldProgress`, `ToldLatest`. -/
def Uncovers (said : List Said) (a : Uuid) (range : RevisionRange) : Prop :=
  ∃ flow p latest, ToldProgress said flow a p ∧ ToldLatest said a latest ∧
    p.watermark < latest ∧ range.first = p.watermark + 1 ∧ range.last? = some latest

/-- The event was read, by a `LogCall.next`. -/
def ToldEvent (said : List Said) (e : Event) : Prop :=
  ∃ reader reader', (⟨.log (.next reader), (some (.ok e), reader')⟩ : Said) ∈ said

/-- The flow lacks the event, as the party was told: the flow wants it, it was read, and it is not
settled in the progress that `lookingAt?` has. -/
structure Lacks (registry : Registry) (said : List Said) (flow : String) (e : Event) : Prop where
  routed : registry.routesTo e flow = true
  told : ToldEvent said e
  unsettled : ∃ p, lookingAt? said = some ⟨flow, e.aggregateId, p⟩ ∧ p.isSettled e.revision = false

/-- What a recovery may ask for: it stores nothing, reads what it `Uncovers` and goes on above
revision 0, and puts into lanes what the flows `Lacks`. -/
structure Proceeds (registry : Registry) (said : List Said) (c : Call) : Prop where
  goesOn : GoesOnAbove said c
  storesNot : ∀ batch, c ≠ .log (.append batch)
  reads : ∀ selection, c = .log (.read selection) →
    ∃ a range, selection = .stream a range ∧ Uncovers said a range
  offers : ∀ flow e priority, c = .queue (.enqueue flow e priority) → Lacks registry said flow e

theorem Proceeds.log {c : LogCall} (hgoes : ∀ reader, c = .next reader → reader.Positive)
    (hstores : ∀ batch, c ≠ .append batch) (hreads : ∀ selection, c = .read selection →
      ∃ a range, selection = .stream a range ∧ Uncovers said a range) :
    Proceeds registry said (.log c) where
  goesOn reader h := hgoes reader (Call.log.inj h)
  storesNot batch h := hstores batch (Call.log.inj h)
  reads selection h := hreads selection (Call.log.inj h)
  offers := nofun

theorem Proceeds.enqueue {e : Event} {priority : Int} (h : Lacks registry said flow e) :
    Proceeds registry said (.queue (.enqueue flow e priority)) where
  goesOn := nofun
  storesNot := nofun
  reads := nofun
  offers _ _ _ heq := by
    obtain ⟨rfl, rfl, -⟩ := QueueCall.enqueue.inj (Call.queue.inj heq)
    exact h

/-- Something was `Enqueued` if the report says so. -/
def Truthful (said : List Said) (report : RecoveryReport) : Prop :=
  report.reEnqueued ≠ 0 → Enqueued said

theorem Truthful.later {report : RecoveryReport} (h : Truthful said report) (hle : said <+: said') :
    Truthful said' report := fun hne => (h hne).later hle

/-- The failure is `EnqueueFailed`: that of an event that was to be stored in a lane. -/
def StoppedBy (said : List Said) (err : RecoveryError) : Prop :=
  ∃ reason, err = .queue (.storage reason) ∧ EnqueueFailed said reason

/-! ## Parts -/

/-- Work that is not answered with a failure, where a failure would be one of the recovery. -/
theorem asks_mapError {δ : Type} {p : Work (Except δ α)}
    {f : Except δ α → Procedure Call Call.Answer (Except RecoveryError α)}
    (wrap : δ → RecoveryError) (hf : ∀ out, f out = .done (out.mapError wrap))
    (h : Asks P (fun said' out => ∃ a, out = .ok a ∧ Q said' a) p said) :
    PartAsks P E Q (ExceptT.mk (p >>= f)) said := by
  refine PartAsks.of_asks _ hf (h.imp ?_)
  rintro said' _ - ⟨a, rfl, hQ⟩
  exact ⟨fun b hb => Except.ok.inj hb ▸ hQ, nofun⟩

theorem asks_onLog {p : Work (Except LogError α)}
    (h : Asks P (fun said' out => ∃ a, out = .ok a ∧ Q said' a) p said) :
    PartAsks P E Q (onLog p) said :=
  asks_mapError .log (fun out => by cases out <;> rfl) h

theorem asks_onQueue {p : Work (Except QueueError α)}
    (h : Asks P (fun said' out => ∃ a, out = .ok a ∧ Q said' a) p said) :
    PartAsks P E Q (onQueue p) said :=
  asks_mapError .queue (fun out => by cases out <;> rfl) h

theorem asks_onProgress {p : Work (Except ProgressError α)}
    (h : Asks P (fun said' out => ∃ a, out = .ok a ∧ Q said' a) p said) :
    PartAsks P E Q (onProgress p) said :=
  asks_mapError .progress (fun out => by cases out <;> rfl) h

theorem asks_get (flow : String) (a : Uuid) :
    PartAsks P E (fun said' p => ToldProgress said' flow a p ∧ lookingAt? said' = some ⟨flow, a, p⟩)
      (onProgress (Work.progress (.get flow a))) said :=
  asks_onProgress (Asks.progress fun t => ⟨t.get flow a, rfl,
    by simp [ToldProgress, Memory.answerProgress], lookingAt?_snoc _ _⟩)

theorem asks_note (n : Notice) :
    PartAsks P E (fun said' _ => lookingAt? said' = lookingAt? said) (always (Work.note n)) said :=
  PartAsks.always ⟨nofun, fun _ _ => by simp only [Asks, lookingAt?_snoc, Said.look]⟩

/-- What is read of a stream is an event of its aggregate, and the reader stays on the stream. -/
theorem asks_next_stream {range : RevisionRange} {n : Nat}
    (h : P said (.log (.next (.memory (.stream a range n))))) :
    Asks P (fun said' out => (∀ e reader', out = (some (.ok e), reader') →
        lookingAt? said' = lookingAt? said ∧ ToldEvent said' e ∧ e.aggregateId = a ∧
          reader' = .memory (.stream a range (n + 1))) ∧
      ∀ e reader', out ≠ (some (.error e), reader'))
      (Work.log (.next (.memory (.stream a range n)))) said := by
  refine Asks.log h fun l => ⟨fun e reader' hout => ?_, fun _ _ => answerLog_next_ne_error⟩
  obtain ⟨c, c', hc, rfl, hnext⟩ := answerLog_next_ok hout
  obtain rfl := Reader.memory.inj hc
  obtain ⟨hget, rfl⟩ := EventLog.next?_stream_eq_some hnext
  have hagg := (EventLog.mem_streamOf.1 (List.mem_of_getElem? hget)).2
  rw [hout]
  refine ⟨?_, ⟨_, _, List.mem_append_right _ (List.mem_singleton_self _)⟩, hagg, rfl⟩
  simp only [lookingAt?_snoc, Said.look]

/-! ## Looking after a flow -/

/-- A visit enqueues an event only where the flow `Lacks` it, and counts it only if it was taken. -/
theorem asks_visit {p : Progress} {w : Walk} {e : Event}
    (hlook : lookingAt? said = some ⟨flow, e.aggregateId, p⟩) (htold : ToldEvent said e)
    (hcount : Truthful said w.report) :
    PartAsks (Proceeds registry) StoppedBy
      (fun said' w' => lookingAt? said' = lookingAt? said ∧ Truthful said' w'.report)
      (visit registry flow p w e) said := by
  unfold visit
  split
  · split <;> exact .pure ⟨rfl, hcount⟩
  · next hpass =>
    have hlacks : Lacks registry said flow e := by
      simp only [Bool.or_eq_true, Bool.not_eq_true', not_or, Bool.not_eq_false,
        Bool.not_eq_true] at hpass
      exact ⟨hpass.1, htold, p, hlook, hpass.2⟩
    refine PartAsks.bind ((PartAsks.always (Dispatch.asks_enqueue (.enqueue hlacks))).imp
      fun said₁ out hle₁ hout => ?_)
    obtain ⟨hlook₁, hput, herror⟩ := hout
    split
    · refine PartAsks.bind ((asks_note _).imp fun said₂ _ hle₂ hlook₂ => .pure ?_)
      exact ⟨hlook₂.trans hlook₁, fun _ => (hput rfl).later hle₂⟩
    · exact .pure ⟨hlook₁, hcount.later hle₁⟩
    · next err hother =>
      rcases herror err rfl with ⟨lane, key, rfl⟩ | ⟨reason, rfl, hfailed⟩
      · exact absurd rfl (hother lane key)
      · exact .throw ⟨reason, rfl, hfailed⟩

/-- `walk` goes on above revision 0 and asks what its visits ask. By induction on how often it may
read. -/
theorem asks_walk {p : Progress} (count : Nat) {range : RevisionRange} {n : Nat} (hn : 0 < n)
    {w : Walk} (hlook : lookingAt? said = some ⟨flow, a, p⟩) (hcount : Truthful said w.report) :
    PartAsks (Proceeds registry) StoppedBy (fun said' w' => Truthful said' w'.report)
      (walk registry flow p count (.memory (.stream a range n)) w) said := by
  induction count generalizing n w said with
  | zero => exact .pure hcount
  | succ count ih =>
    have hask : Proceeds registry said (.log (.next (.memory (.stream a range n)))) := by
      refine .log (fun reader hreader => ?_) nofun nofun
      obtain rfl := LogCall.next.inj hreader
      intro a' range' n' h
      cases h
      exact hn
    refine PartAsks.bind
      ((PartAsks.always (asks_next_stream hask)).imp fun said₁ out hle₁ hout => ?_)
    split
    · exact .pure (hcount.later hle₁)
    · exact absurd rfl (hout.2 _ _)
    · obtain ⟨hsame, htold, rfl, rfl⟩ := hout.1 _ _ rfl
      refine PartAsks.bind ((asks_visit (hsame.trans hlook) htold (hcount.later hle₁)).imp
        fun said₂ w' _ h => ?_)
      exact ih (Nat.succ_pos n) (h.1.trans (hsame.trans hlook)) h.2

/-- The range that is walked `Uncovers` what the flow was told to lack. -/
theorem asks_visitFlow (hlatest : ToldLatest said a latest) {report : RecoveryReport}
    (hcount : Truthful said report) :
    PartAsks (Proceeds registry) StoppedBy (fun said' report' => Truthful said' report')
      (visitFlow registry a latest report flow) said := by
  unfold visitFlow
  refine PartAsks.bind ((asks_get flow a).imp fun said₁ p hle₁ hp => ?_)
  obtain ⟨htold, hlook⟩ := hp
  split
  · exact .pure (hcount.later hle₁)
  · next hlt =>
    -- the watermark is below the last revision, so the range between them is accepted
    obtain ⟨range, hrange, hfirst, hlast⟩ :=
      between_eq_ok (Nat.succ_pos p.watermark) (Nat.lt_of_not_le hlt)
    have huncovers : Uncovers said₁ a range :=
      ⟨flow, p, latest, htold, hlatest.later hle₁, Nat.lt_of_not_le hlt, hfirst, hlast⟩
    rw [hrange]
    refine PartAsks.bind (asks_onLog (Asks.pure ⟨range, rfl, ?_⟩))
    have hask : Proceeds registry said₁ (.log (.read (.stream a range))) := by
      refine .log nofun nofun fun selection h => ?_
      obtain rfl := LogCall.read.inj h
      exact ⟨a, range, rfl, huncovers⟩
    have hread : PartAsks (Proceeds registry) StoppedBy
        (fun said₂ reader => lookingAt? said₂ = some ⟨flow, a, p⟩ ∧
          reader = .memory (.stream a range range.first))
        (onLog (Work.log (.read (.stream a range)))) said₁ := by
      refine asks_onLog ((asks_read hask).imp fun said₂ out _ hout => ?_)
      obtain ⟨hsame, rfl⟩ := hout
      exact ⟨_, rfl, hsame.trans hlook, rfl⟩
    refine PartAsks.bind (hread.imp fun said₂ reader hle₂ hreader => ?_)
    obtain ⟨hlook₂, rfl⟩ := hreader
    refine PartAsks.bind ((asks_walk _ range.first_positive hlook₂
      (hcount.later (hle₁.trans hle₂))).imp fun said₃ w _ hw => ?_)
    split
    · refine PartAsks.bind ((asks_onProgress (Q := fun _ _ => True)
        (Asks.progress fun t => ⟨(), rfl, trivial⟩)).imp fun _ _ hle₄ _ => .pure (hw.later hle₄))
    · exact .pure hw

theorem asks_visitFlows (hlatest : ToldLatest said a latest) (flows : List String)
    {report : RecoveryReport} (hcount : Truthful said report) :
    PartAsks (Proceeds registry) StoppedBy (fun said' report' => Truthful said' report')
      (visitFlows registry a latest flows report) said := by
  induction flows generalizing report said with
  | nil => exact .pure hcount
  | cons flow flows ih =>
    exact PartAsks.bind ((asks_visitFlow hlatest hcount).imp
      fun _ _ hle hcount' => ih (hlatest.later hle) hcount')

/-! ## The whole recovery -/

theorem asks_last {x : Aggregate} (h : P said (.log (.last x))) :
    Asks P (fun said' out => (∀ e, out = .ok e → ToldLatest said' x.id e.revision) ∧
      ∀ err, out = .error err → ∃ reason, err = .notFound reason) (Work.log (.last x)) said := by
  refine Asks.log h fun l => ⟨fun e he => ?_, fun err herr => ?_⟩
  · exact ⟨x, e, by simp [he], rfl, rfl⟩
  · exact ⟨_, (EventLog.last_eq_error herr).1⟩

/-- Each aggregate is looked after up to the last revision that was told of it. -/
theorem asks_visitAggregates {delivered : List (Except LogError Aggregate)}
    (hdelivered : ∀ d ∈ delivered, ∃ x, d = .ok x) {report : RecoveryReport}
    (hcount : Truthful said report) :
    PartAsks (Proceeds registry) StoppedBy (fun said' report' => Truthful said' report')
      (visitAggregates registry delivered report) said := by
  induction delivered generalizing report said with
  | nil => exact .pure hcount
  | cons d rest ih =>
    obtain ⟨⟨x, rfl⟩, hrest⟩ := List.forall_mem_cons.1 hdelivered
    unfold visitAggregates
    have hnext : PartAsks (Proceeds registry) StoppedBy (fun _ _ => True)
        (onLog (Work.log (.nextAggregate (.ok x)))) said :=
      asks_onLog (Asks.log (.log nofun nofun nofun) fun l => ⟨x, rfl, trivial⟩)
    refine hnext.andThen fun x said₁ hle₁ => ?_
    refine PartAsks.bind ((PartAsks.always (asks_last (.log nofun nofun nofun))).imp
      fun said₂ out hle₂ hout => ?_)
    have hcount₂ :
        Truthful said₂ { report with aggregatesChecked := report.aggregatesChecked + 1 } :=
      Truthful.later hcount (hle₁.trans hle₂)
    split
    · next e =>
      exact PartAsks.bind ((asks_visitFlows (hout.1 e rfl) _ hcount₂).imp
        fun _ _ _ hcount' => ih hrest hcount')
    · exact ih hrest hcount₂
    · next err hother =>
      obtain ⟨reason, rfl⟩ := hout.2 err rfl
      exact absurd rfl (hother reason)

theorem asks_sweepLeases : PartAsks P StoppedBy (fun _ _ => True) sweepLeases said := by
  have hsweep : PartAsks P StoppedBy (fun _ _ => True) (onQueue Dispatch.sweep) said := by
    refine asks_onQueue (Dispatch.asks_sweep.imp fun said' out _ hout => ?_)
    cases out with
    | ok expired => exact ⟨expired, rfl, trivial⟩
    | error err => exact absurd rfl (hout err)
  have hnotes : ∀ (expired : List Lease) (said₁ : List Said), PartAsks P StoppedBy
      (fun _ _ => True) (forIn expired PUnit.unit fun lease _ => do
        always (Work.note (.leaseExpired lease))
        pure (ForInStep.yield PUnit.unit)) said₁ := by
    intro expired
    induction expired with
    | nil => exact fun _ => .pure trivial
    | cons lease rest ih =>
      intro said₁
      rw [List.forIn_cons]
      refine PartAsks.andThen ((PartAsks.always (.note _)).andThen fun _ _ _ => .pure trivial) ?_
      intro step said₂ _
      cases step with
      | done => exact .pure trivial
      | yield => exact ih said₂
  refine hsweep.andThen fun expired said₁ _ => ?_
  exact (hnotes expired said₁).andThen fun _ _ _ => .pure trivial

/-- **A recovery puts only into lanes what the flows `Lacks`**, reads only what it `Uncovers`, stops
only where an event could not be put into a lane, and reports only what it did. -/
theorem asks_run : Asks (Proceeds registry)
    (fun said' out => (∀ report, out = .ok report → Truthful said' report) ∧
      ∀ err, out = .error err → StoppedBy said' err) (run registry) said := by
  have hparts : PartAsks (Proceeds registry) StoppedBy (fun said' report => Truthful said' report)
      (parts registry) said := by
    refine asks_sweepLeases.andThen fun expired said₁ _ => ?_
    split
    · exact .pure nofun
    · have hall : PartAsks (Proceeds registry) StoppedBy
          (fun _ delivered => ∀ d ∈ delivered, ∃ x, d = .ok x)
          (onLog (Work.log .aggregates)) said₁ := by
        refine asks_onLog (Asks.log (.log nofun nofun nofun) fun l => ⟨_, rfl, fun d hd => ?_⟩)
        obtain ⟨x, -, rfl⟩ := List.mem_map.1 hd
        exact ⟨x, rfl⟩
      have hnone : ∀ said', Truthful said' { expiredLeases := expired } := fun _ h => absurd rfl h
      exact PartAsks.bind
        (hall.imp fun _ _ _ hdelivered => asks_visitAggregates hdelivered (hnone _))
  exact hparts

end Recovery

/-! ## All tasks -/

namespace Task

/-- What a task may ask for after what was said, of the calls that `Call.isGuarded` holds of.
Whoever only leases and settles items makes none of them. -/
def Asking (registry : Registry) : Task → List Said → Call → Prop
  | recover => Recovery.Proceeds registry
  | publish _ | replay _ => GoesOnAbove
  | lease | renew _ | release _ | acknowledge _ | defer .. | sweep => fun _ _ => False

/-- How a `Task` may end after what was said. -/
def Ending : (t : Task) → List Said → t.Outcome → Prop
  | recover => fun said out => (∀ report, out = .ok report → Recovery.Truthful said report) ∧
      ∀ err, out = .error err → Recovery.StoppedBy said err
  | publish _ | lease | renew _ | release _ | acknowledge _ | defer .. | sweep | replay _ =>
    fun _ _ => True

/-- Every task `Asks` what `Asking` lets it, and ends as `Ending` says. -/
theorem asks (registry : Registry) (t : Task) :
    Asks (t.Asking registry) t.Ending (t.work registry) [] := by
  cases t with
  | publish batch => exact Publish.asks_publish batch
  | lease =>
    refine Dispatch.asks_settle rfl fun out said => ?_
    split
    · exact Dispatch.asks_note_done _ _
    · exact trivial
  | renew lock => exact Asks.queue nofun fun _ _ => trivial
  | release | defer =>
    refine Dispatch.asks_settle rfl fun out said => ?_
    cases out with
    | ok => exact Dispatch.asks_wake_done _
    | error => exact trivial
  | acknowledge lock => exact Dispatch.asks_acknowledge lock
  | sweep => exact Dispatch.asks_sweep.imp fun _ _ _ _ => trivial
  | replay windows => exact Replay.asks_perform windows
  | recover => exact Recovery.asks_run

variable {registry : Registry}

theorem Asking.goesOnAbove {t : Task} {said : List Said} {c : Call}
    (h : t.Asking registry said c) : GoesOnAbove said c := by
  cases t with
  | recover => exact h.goesOn
  | publish | replay => exact h
  | lease | renew | release | acknowledge | defer | sweep => exact h.elim

end Task

end EventRelay
