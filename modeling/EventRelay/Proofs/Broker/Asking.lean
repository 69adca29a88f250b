import EventRelay.Proofs.Broker.Sound

/-!
# What parties ask for, and where they stop

What a party asks the log for, and which events it puts into lanes, rests on what it was told
before, however long ago, and so does its outcome. `Asks` follows both along the work with
everything that was said, and nothing is assumed of the memory but that some memory gives each
answer (`Possible`). Every read begins above revision 0 and goes on from there, and an event is not
put into a lane only if its key is there or if storing it failed.
-/

namespace EventRelay

variable {registry : Registry} {α β ε : Type} {said : List Said}

/-- Some memory may give this answer to the call, as `Answers` has it. -/
def Possible (c : Call) (a : c.Answer) : Prop := ∃ m m', Answers m c a m'

/-- The call is on the log, or is a `QueueCall.enqueue`. -/
def Call.isGuarded : Call → Bool
  | log _ | queue (.enqueue ..) => true
  | queue _ | progress _ | wake | note _ => false

/-- The work makes a call that `Call.isGuarded` holds of only if `P` holds of it and of what was
said before, and ends as `Q` says. -/
def Asks (P : List Said → Call → Prop) (Q : List Said → α → Prop) : Work α → List Said → Prop
  | .done a, said => Q said a
  | .call c next, said =>
    (c.isGuarded = true → P said c) ∧ ∀ a, Possible c a → Asks P Q (next a) (said ++ [⟨c, a⟩])

namespace Asks

variable {P : List Said → Call → Prop} {Q Q' : List Said → α → Prop} {p : Work α}

/-- `Asks` goes through a sequence: what the first part ends with, the second begins with. -/
theorem bind {f : α → Work β} {Q : List Said → β → Prop}
    (h : Asks P (fun said' a => Asks P Q (f a) said') p said) : Asks P Q (p >>= f) said := by
  induction p generalizing said with
  | done a => exact h
  | call c next ih => exact ⟨h.1, fun a ha => ih a (h.2 a ha)⟩

/-- `Asks` with a weaker end. What was said only grows, so the end may use that it did. -/
theorem imp (h : Asks P Q p said)
    (hQ : ∀ said' a, said <+: said' → Q said' a → Q' said' a) : Asks P Q' p said := by
  induction p generalizing said with
  | done a => exact hQ said a (List.prefix_refl _) h
  | call c next ih =>
    refine ⟨h.1, fun a ha => ih a (h.2 a ha) fun said' b hle => ?_⟩
    exact hQ said' b ((List.prefix_append _ _).trans hle)

theorem pure {a : α} (h : Q said a) : Asks P Q (Pure.pure a) said := h

/-- A call on the log that `P` allows, with whatever `Memory.answerLog` answers to it. -/
theorem log {c : LogCall} {Q : List Said → c.Answer → Prop} (hc : P said (.log c))
    (hQ : ∀ m, Q (said ++ [⟨.log c, (Memory.answerLog m c).1⟩]) (Memory.answerLog m c).1) :
    Asks P Q (Work.log c) said := by
  refine ⟨fun _ => hc, ?_⟩
  rintro a ⟨m, m', hans⟩
  rw [hans.log.1]
  exact hQ m.log

theorem progress {c : ProgressCall} {Q : List Said → c.Answer → Prop}
    (hQ : ∀ t, Q (said ++ [⟨.progress c, (Memory.answerProgress t c).1⟩])
      (Memory.answerProgress t c).1) : Asks P Q (Work.progress c) said := by
  refine ⟨nofun, ?_⟩
  rintro a ⟨m, m', hans⟩
  rw [hans.progress.1]
  exact hQ m.progress

/-- A call on the queue, with any answer that is `Possible`. `P` is asked of it only if it is
guarded. -/
theorem queue {c : QueueCall Event} {Q : List Said → c.Answer → Prop}
    (hc : (Call.queue c).isGuarded = true → P said (.queue c))
    (hQ : ∀ a, Possible (.queue c) a → Q (said ++ [⟨.queue c, a⟩]) a) :
    Asks P Q (Work.queue c) said := ⟨hc, hQ⟩

theorem wake : Asks P (fun _ _ => True) Work.wake said := ⟨nofun, fun _ _ => trivial⟩

theorem note (n : Notice) : Asks P (fun _ _ => True) (Work.note n) said :=
  ⟨nofun, fun _ _ => trivial⟩

/-- Work that goes on whatever its first part comes to: `Asks.bind` with nothing known in
between. -/
theorem andThen {f : α → Work β} {Q : List Said → β → Prop} (h : Asks P (fun _ _ => True) p said)
    (hf : ∀ a said', said <+: said' → Asks P Q (f a) said') : Asks P Q (p >>= f) said :=
  bind (h.imp fun said' a hle _ => hf a said' hle)

/-- Work that `Asks`, followed to its end by a handler that gives only `Possible` answers, ends as
`Q` says. -/
theorem run {σ : Type} {handler : (c : Call) → σ → c.Answer × σ} (h : Asks P Q p said)
    (hpossible : ∀ c s, Possible c (handler c s).1) (s : σ) :
    ∃ said', Q (said ++ said') (p.run handler s).1 ∧
      ∀ x ∈ said', ∃ s, x.answer = (handler x.call s).1 := by
  induction p generalizing said s with
  | done a => exact ⟨[], (List.append_nil said).symm ▸ h, List.forall_mem_nil _⟩
  | call c next ih =>
    obtain ⟨said', hQ, hsaid⟩ := ih _ (h.2 _ (hpossible c s)) (handler c s).2
    refine ⟨⟨c, (handler c s).1⟩ :: said', by simpa [Procedure.run] using hQ, ?_⟩
    exact List.forall_mem_cons.2 ⟨⟨s, rfl⟩, hsaid⟩

end Asks

/-! ## Work that stops at the first failure -/

/-- `Asks` of work that ends with a result as `Q` says, or with a failure as `E` says. -/
def PartAsks (P : List Said → Call → Prop) (E : List Said → ε → Prop)
    (Q : List Said → α → Prop) (x : ExceptT ε (Procedure Call Call.Answer) α)
    (said : List Said) : Prop :=
  Asks P (fun said' out => (∀ a, out = .ok a → Q said' a) ∧ ∀ e, out = .error e → E said' e)
    x.run said

namespace PartAsks

variable {P : List Said → Call → Prop} {E : List Said → ε → Prop}
  {Q Q' : List Said → α → Prop} {x : ExceptT ε (Procedure Call Call.Answer) α}

theorem pure {a : α} (h : Q said a) :
    PartAsks P E Q (Pure.pure a : ExceptT ε (Procedure Call Call.Answer) α) said :=
  ⟨fun _ hb => Except.ok.inj hb ▸ h, nofun⟩

theorem throw {e : ε} (h : E said e) :
    PartAsks P E Q (MonadExcept.throw e : ExceptT ε (Procedure Call Call.Answer) α) said :=
  ⟨nofun, fun _ he => Except.error.inj he ▸ h⟩

/-- `Asks.bind` for work that may fail. A failure of the first part is one of the whole. -/
theorem bind {f : α → ExceptT ε (Procedure Call Call.Answer) β} {Q : List Said → β → Prop}
    (h : PartAsks P E (fun said' a => PartAsks P E Q (f a) said') x said) :
    PartAsks P E Q (x >>= f) said := by
  refine Asks.bind (Asks.imp h fun said' out _ hout => ?_)
  cases out with
  | ok a => exact hout.1 a rfl
  | error e => exact ⟨nofun, fun _ he => Except.error.inj he ▸ hout.2 e rfl⟩

theorem imp (h : PartAsks P E Q x said)
    (hQ : ∀ said' a, said <+: said' → Q said' a → Q' said' a) : PartAsks P E Q' x said :=
  Asks.imp h fun said' _ hle hout => ⟨fun a ha => hQ said' a hle (hout.1 a ha), hout.2⟩

theorem andThen {f : α → ExceptT ε (Procedure Call Call.Answer) β} {Q : List Said → β → Prop}
    (h : PartAsks P E (fun _ _ => True) x said)
    (hf : ∀ a said', said <+: said' → PartAsks P E Q (f a) said') :
    PartAsks P E Q (x >>= f) said :=
  bind (h.imp fun said' a hle _ => hf a said' hle)

/-- Work whose outcome is taken as it is, or as one of the whole. -/
theorem of_asks {p : Work α} {f : α → Procedure Call Call.Answer (Except ε β)}
    {Q : List Said → β → Prop} (conv : α → Except ε β) (hf : ∀ a, f a = .done (conv a))
    (h : Asks P (fun said' a => (∀ b, conv a = .ok b → Q said' b) ∧
      ∀ e, conv a = .error e → E said' e) p said) : PartAsks P E Q (ExceptT.mk (p >>= f)) said := by
  refine Asks.bind (h.imp fun said' a _ hout => ?_)
  rw [hf]
  exact hout

/-- `PartAsks` of work that cannot fail. -/
theorem always {p : Work α} (h : Asks P Q p said) :
    PartAsks P E Q (ExceptT.mk (p >>= fun a => Pure.pure (.ok a))) said := by
  refine of_asks .ok (fun _ => rfl) (h.imp fun said' a _ hQ => ?_)
  exact ⟨fun b hb => Except.ok.inj hb ▸ hQ, nofun⟩

end PartAsks

/-! ## What a party looks at -/

/-- The `Progress` of a flow on an aggregate, as a party was told it. -/
structure Look where
  flow : String
  aggregateId : Uuid
  progress : Progress

/-- What a party looks at after it was told this. It goes on looking until the events that it reads
come to their end, or until it goes on to the next aggregate. -/
def Said.look (look? : Option Look) : Said → Option Look
  | ⟨.progress (.get flow a), .ok p⟩ => some ⟨flow, a, p⟩
  | ⟨.log (.next _), (none, _)⟩ | ⟨.log (.nextAggregate _), _⟩ => none
  | _ => look?

/-- What a party looks at after all it was told: `Said.look`, told after told. -/
def lookingAt? (said : List Said) : Option Look := said.foldl Said.look none

theorem lookingAt?_snoc (said : List Said) (x : Said) :
    lookingAt? (said ++ [x]) = Said.look (lookingAt? said) x := List.foldl_concat ..

/-! ## Reads -/

/-- If the reader is at a stream, then at a revision above 0. -/
def Reader.Positive (reader : Reader) : Prop :=
  ∀ a range n, reader = .memory (.stream a range n) → 0 < n

/-- Revisions count from 1, so no `RevisionRange` starts at 0. -/
theorem RevisionRange.first_positive (range : RevisionRange) : 0 < range.first := by
  unfold first
  cases h : range.first? with
  | none => exact Nat.one_pos
  | some n => exact range.first_pos n h

theorem positive_openCursor (selection : Selection) :
    (Reader.memory (EventLog.openCursor selection)).Positive := by
  intro a range n h
  cases selection with
  | stream a' range' =>
    obtain ⟨-, -, rfl⟩ := EventLog.Cursor.stream.inj (Reader.memory.inj h)
    exact range'.first_positive
  | since | causedBy | correlatedBy => cases h

theorem positive_of_next? {l : EventLog} {c c' : EventLog.Cursor} {e : Event}
    (h : l.next? c = some (e, c')) : (Reader.memory c').Positive := by
  intro a range n hc
  obtain rfl := Reader.memory.inj hc
  cases c with
  | scan =>
    obtain ⟨_, -, heq⟩ := Option.map_eq_some_iff.1 h
    cases heq
  | stream =>
    simp only [EventLog.next?] at h
    split at h
    · obtain ⟨_, -, heq⟩ := Option.map_eq_some_iff.1 h
      obtain ⟨-, -, rfl⟩ := EventLog.Cursor.stream.inj (Prod.mk.inj heq).2
      exact Nat.succ_pos _
    · cases h

/-- What every party keeps to: it goes on reading only where the reader is `Positive`. -/
def GoesOnAbove (_ : List Said) (c : Call) : Prop :=
  ∀ reader, c = .log (.next reader) → reader.Positive

/-- The memory's own reader never fails. Only a fault makes `LogCall.next` answer an error. -/
theorem answerLog_next_ne_error {l : EventLog} {reader reader' : Reader} {e : LogError} :
    (Memory.answerLog l (.next reader)).1 ≠ (some (.error e), reader') := by
  cases reader with
  | memory cursor =>
    simp only [Memory.answerLog]
    cases hnext : l.next? cursor <;> simp
  | table | ended =>
    intro h
    cases h

section

variable {P : List Said → Call → Prop}

/-- A read gives a cursor at its start, `EventLog.openCursor`, and leaves the `Look` as it was. -/
theorem asks_read {selection : Selection} (h : P said (.log (.read selection))) :
    Asks P (fun said' out => lookingAt? said' = lookingAt? said ∧
      out = .ok (.memory (EventLog.openCursor selection))) (Work.log (.read selection)) said :=
  Asks.log h fun l => ⟨by simp only [lookingAt?_snoc, Said.look], rfl⟩

/-- What `LogCall.next` gives: a reader that is `Positive` again, and never an error. -/
theorem asks_next {reader : Reader} (h : P said (.log (.next reader))) :
    Asks P (fun _ out => (∀ e reader', out = (some (.ok e), reader') → reader'.Positive) ∧
      ∀ e reader', out ≠ (some (.error e), reader')) (Work.log (.next reader)) said := by
  refine Asks.log h fun l => ⟨fun e reader' hout => ?_, fun _ _ => answerLog_next_ne_error⟩
  obtain ⟨c, c', -, rfl, hnext⟩ := answerLog_next_ok hout
  exact positive_of_next? hnext

end

/-! ## Handing out -/

/-- The storing of an event in a lane failed, for this reason. -/
def EnqueueFailed (said : List Said) (reason : String) : Prop :=
  ∃ flow e priority, (⟨.queue (.enqueue flow e priority), .error (.storage reason)⟩ : Said) ∈ said

/-- An event was put into a lane. -/
def Enqueued (said : List Said) : Prop :=
  ∃ flow e priority, (⟨.queue (.enqueue flow e priority), .ok ()⟩ : Said) ∈ said

theorem Enqueued.later {said' : List Said} (h : Enqueued said) (hle : said <+: said') :
    Enqueued said' := by
  obtain ⟨flow, e, priority, hmem⟩ := h
  exact ⟨flow, e, priority, hle.subset hmem⟩

namespace Dispatch

variable {P : List Said → Call → Prop}

/-- `Queue.enqueue` refuses an event for one reason only, that its key is in the lane. -/
theorem enqueue_fst_cases (q : Queue Event) (flow : String) (e : Event) (priority : Int) :
    (q.enqueue flow e priority).1 = .ok () ∨
      ∃ lane key, (q.enqueue flow e priority).1 = .error (.itemAlreadyQueued lane key) := by
  unfold Queue.enqueue
  simp only
  split
  · exact .inr ⟨_, _, rfl⟩
  · exact .inl rfl

/-- `enqueue` puts its event into a lane, or finds its key there, or fails as `EnqueueFailed` says.
What the party looks at stays the same. -/
theorem asks_enqueue {flow : String} {e : Event} {priority : Int}
    (h : P said (.queue (.enqueue flow e priority))) :
    Asks P (fun said' out => lookingAt? said' = lookingAt? said ∧
      (out = .ok () → Enqueued said') ∧ ∀ err, out = .error err →
        (∃ lane key, err = .itemAlreadyQueued lane key) ∨
          ∃ reason, err = .storage reason ∧ EnqueueFailed said' reason)
      (enqueue flow e priority) said := by
  refine Asks.bind (Asks.queue (fun _ => h) fun a ha => ?_)
  cases a with
  | ok =>
    have hput : Enqueued (said ++ [⟨.queue (.enqueue flow e priority), .ok ()⟩]) :=
      ⟨flow, e, priority, by simp⟩
    refine ⟨nofun, fun _ _ => ⟨?_, fun _ => hput.later (List.prefix_append _ _), nofun⟩⟩
    simp only [lookingAt?_snoc, Said.look]
  | error err =>
    refine ⟨?_, nofun, ?_⟩
    · simp only [lookingAt?_snoc, Said.look]
    rintro _ ⟨⟩
    obtain ⟨m, m', hans⟩ := ha
    generalize hout : (Except.error err : Except QueueError Unit) = out at hans
    cases hans with
    | given r =>
      refine .inl ?_
      rcases enqueue_fst_cases m.queue flow e priority with hok | ⟨lane, key, herr⟩
      · exact absurd (hout.trans hok) nofun
      · exact ⟨lane, key, Except.error.inj (hout.trans herr)⟩
    | failed _ _ _ reason =>
      obtain rfl := Except.error.inj hout
      exact .inr ⟨reason, rfl, flow, e, priority, by simp⟩

/-- A call on the queue that is not guarded, and what follows it. -/
theorem asks_settle {c : QueueCall Event} {f : c.Answer → Work α}
    (hc : (Call.queue c).isGuarded = false)
    (hf : ∀ out said', Asks P (fun _ _ => True) (f out) said') :
    Asks P (fun _ _ => True) (Work.queue c >>= f) said :=
  Asks.bind (Asks.queue (fun h => absurd (hc.symm.trans h) nofun) fun out _ => hf out _)

theorem asks_wake_done (a : α) :
    Asks P (fun _ _ => True) (Work.wake >>= fun _ => Pure.pure a) said :=
  Asks.wake.andThen fun _ _ _ => trivial

theorem asks_note_done (n : Notice) (a : α) :
    Asks P (fun _ _ => True) (Work.note n >>= fun _ => Pure.pure a) said :=
  (Asks.note n).andThen fun _ _ _ => trivial

theorem asks_acknowledge (lock : Lock) : Asks P (fun _ _ => True) (acknowledge lock) said := by
  refine asks_settle rfl fun out said' => ?_
  cases out with
  | error => exact trivial
  | ok e =>
    refine Asks.wake.andThen fun _ _ _ => Asks.bind (Asks.progress fun _ => ?_)
    exact asks_note_done _ _

theorem sweep_ne_error (q : Queue Event) (r : Call.Reading) (err : QueueError) :
    (Memory.answerQueue q r .sweep).1 ≠ .error err := nofun

theorem asks_sweep : Asks P (fun _ out => ∀ err, out ≠ .error err) sweep said := by
  refine Asks.bind (Asks.queue nofun fun out hout => ?_)
  obtain ⟨m, m', hans⟩ := hout
  have hok : ∀ err, out ≠ .error err := by
    cases hans with
    | given r => exact sweep_ne_error m.queue r
  split
  · next err => exact absurd rfl (hok err)
  · exact nofun
  · exact Asks.wake.andThen fun _ _ _ => nofun

end Dispatch

/-! ## Publishing -/

namespace Publish

theorem asks_enqueueFor (e : Event) (heldBack : HeldBack) (flow : String) :
    Asks GoesOnAbove (fun _ _ => True) (enqueueFor e heldBack flow) said := by
  unfold enqueueFor
  split
  · exact Dispatch.asks_note_done _ _
  · refine Asks.bind ((Dispatch.asks_enqueue nofun).imp fun said' out _ _ => ?_)
    split
    · exact Dispatch.asks_note_done _ _
    · exact trivial
    · exact Dispatch.asks_note_done _ _

theorem asks_enqueueForAll (e : Event) (flows : List String) (heldBack : HeldBack) :
    Asks GoesOnAbove (fun _ _ => True) (enqueueForAll e flows heldBack) said := by
  induction flows generalizing heldBack said with
  | nil => exact trivial
  | cons flow flows ih => exact (asks_enqueueFor e heldBack flow).andThen fun _ _ _ => ih _

theorem asks_enqueueBatch (batch : List Event) (heldBack : HeldBack) :
    Asks GoesOnAbove (fun _ _ => True) (enqueueBatch registry batch heldBack) said := by
  induction batch generalizing heldBack said with
  | nil => exact trivial
  | cons e rest ih => exact (asks_enqueueForAll e _ heldBack).andThen fun _ _ _ => ih _

/-- Publishing reads nothing, so `GoesOnAbove` holds of it trivially. -/
theorem asks_publish (batch : List Event) :
    Asks GoesOnAbove (fun _ _ => True) (publish registry batch) said := by
  refine Asks.bind (Asks.log nofun fun l => ?_)
  split
  · exact trivial
  · exact (asks_enqueueBatch batch []).andThen fun _ _ _ => trivial

end Publish

/-! ## Replaying -/

namespace Replay

theorem asks_enqueueForAll (e : Event) (flows : List String) (report : ReplayReport) :
    PartAsks GoesOnAbove (fun _ _ => True) (fun _ _ => True)
      (enqueueForAll e flows report) said := by
  induction flows generalizing report said with
  | nil => exact .pure trivial
  | cons flow flows ih =>
    refine PartAsks.bind ((PartAsks.always (Dispatch.asks_enqueue nofun)).imp fun _ out _ _ => ?_)
    split
    · exact ih _
    · exact ih _
    · exact .throw trivial

theorem asks_visit (w : ReplayWindow) (report : ReplayReport) (e : Event) :
    PartAsks GoesOnAbove (fun _ _ => True) (fun _ _ => True) (visit registry w report e) said := by
  unfold visit
  split
  · exact asks_enqueueForAll e _ report
  · exact (PartAsks.always (.note _)).andThen fun _ _ _ => .pure trivial

/-- A replay walks on from one `Positive` reader to the next. -/
theorem asks_walk (w : ReplayWindow) (count : Nat) {reader : Reader} (hreader : reader.Positive)
    (report : ReplayReport) :
    PartAsks GoesOnAbove (fun _ _ => True) (fun _ _ => True)
      (walk registry w count reader report) said := by
  induction count generalizing reader report said with
  | zero => exact .pure trivial
  | succ count ih =>
    have hask : GoesOnAbove said (.log (.next reader)) :=
      fun r hr => LogCall.next.inj (Call.log.inj hr) ▸ hreader
    refine PartAsks.bind ((PartAsks.always (asks_next hask)).imp fun said' out _ hout => ?_)
    split
    · exact .pure trivial
    · exact .throw trivial
    · exact (asks_visit w report _).andThen fun _ _ _ => ih (hout.1 _ _ rfl) _

theorem asks_visitWindows (windows : List (ReplayWindow × RevisionRange)) (report : ReplayReport) :
    PartAsks GoesOnAbove (fun _ _ => True) (fun _ _ => True)
      (visitWindows registry windows report) said := by
  induction windows generalizing report said with
  | nil => exact .pure trivial
  | cons x rest ih =>
    refine PartAsks.bind ((PartAsks.always (asks_read nofun)).imp fun said' out _ hout => ?_)
    obtain ⟨-, rfl⟩ := hout
    exact (asks_walk _ _ (positive_openCursor _) _).andThen fun _ _ _ => ih _

/-- A replay asks the log only as `GoesOnAbove` says. -/
theorem asks_perform (windows : List ReplayWindow) :
    Asks GoesOnAbove (fun _ _ => True) (perform registry windows) said := by
  have hparts : PartAsks GoesOnAbove (fun _ _ => True) (fun _ _ => True)
      (parts registry windows) said := by
    have hranges : PartAsks GoesOnAbove (fun _ _ => True) (fun _ _ => True)
        (ExceptT.mk (Pure.pure (ranges windows))) said := ⟨fun _ _ => trivial, fun _ _ => trivial⟩
    refine hranges.andThen fun found _ _ => (asks_visitWindows found _).andThen fun _ _ _ => ?_
    exact (PartAsks.always (.note _)).andThen fun _ _ _ => .pure trivial
  refine Asks.bind (Asks.imp hparts fun said' out _ _ => ?_)
  cases out with
  | ok => exact trivial
  | error => exact Dispatch.asks_note_done _ _

end Replay

end EventRelay
