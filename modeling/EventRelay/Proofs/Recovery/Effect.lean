import EventRelay.Proofs.Broker.CutOff

/-!
# What a recovery comes to

A recovery that nobody interrupts and that no failure stops comes to a function of the memory. It is
built here along the recovery itself: what looking at one event comes to, then at the events of a
flow on an aggregate, at all flows, at all aggregates. One that is cut off leaves a memory that a
recovery goes through.
-/

namespace EventRelay.Recovery

variable {registry : Registry} {flow : String} {a : Uuid} {p : Progress} {r : Call.Reading}
  {m : Memory} {α : Type} {I : Memory → Prop}

/-- Nothing is left to do about an event for a flow with this progress. -/
def isDone (registry : Registry) (flow : String) (p : Progress) (e : Event) : Bool :=
  !registry.routesTo e flow || p.isSettled e.revision

/-- An event that `isDone` moves the end of the settled part, if that is contiguous so far. Any
other is enqueued, which an event with its key may forestall. -/
def look (registry : Registry) (flow : String) (p : Progress) (s : Queue Event × Walk) (e : Event) :
    Queue Event × Walk :=
  if isDone registry flow p e then
    (s.1, if s.2.contiguous then { s.2 with settledUpTo := e.revision } else s.2)
  else if (s.1.laneAt flow).hasKey (Keyed.key e) then
    (s.1, { s.2 with
      contiguous := false
      report.alreadyQueued := s.2.report.alreadyQueued + 1 })
  else
    ((s.1.enqueue flow e e.timestamp).2, { s.2 with
      contiguous := false
      report.reEnqueued := s.2.report.reEnqueued + 1 })

/-- The events of an aggregate above a revision, up to another. -/
def between (l : EventLog) (a : Uuid) (above upTo : Nat) : List Event :=
  ((l.streamOf a).take upTo).drop above

/-- What looking after one flow on an aggregate comes to: `look` at each event above its
watermark. -/
def onFlow (registry : Registry) (a : Uuid) (latest : Nat) (s : Memory × RecoveryReport)
    (flow : String) : Memory × RecoveryReport :=
  let p := s.1.progress.get flow a
  if latest ≤ p.watermark then s
  else
    let (queue, w) := (between s.1.log a p.watermark latest).foldl (look registry flow p)
      (s.1.queue, { settledUpTo := p.watermark, report := s.2 })
    let progress :=
      if p.watermark < w.settledUpTo then s.1.progress.advance flow a w.settledUpTo
      else s.1.progress
    ({ s.1 with queue := queue, progress := progress }, w.report)

/-- What looking after one aggregate comes to, `onFlow` after `onFlow`. -/
def onAggregate (registry : Registry) (s : Memory × RecoveryReport) (x : Aggregate) :
    Memory × RecoveryReport :=
  registry.names.foldl (onFlow registry x.id (s.1.log.latest x.id))
    (s.1, { s.2 with aggregatesChecked := s.2.aggregatesChecked + 1 })

/-- What the `sweep` of a recovery comes to. -/
def onLeases (now : Instant) (m : Memory) : Memory × RecoveryReport :=
  ({ m with queue := (m.queue.sweep now).2 },
    { expiredLeases := (m.queue.sweep now).1.length })

/-- What a recovery comes to: `onLeases`, and then, if there are flows, `onAggregate` for each
aggregate. -/
def effect (registry : Registry) (now : Instant) (m : Memory) : Memory × RecoveryReport :=
  if registry.isEmpty then onLeases now m
  else m.log.aggregates.foldl (onAggregate registry) (onLeases now m)

theorem onFlow_log (latest : Nat) (s : Memory × RecoveryReport) :
    (onFlow registry a latest s flow).1.log = s.1.log := by
  unfold onFlow
  simp only
  split <;> rfl

theorem foldl_onFlow_log (latest : Nat) (flows : List String) (s : Memory × RecoveryReport) :
    (flows.foldl (onFlow registry a latest) s).1.log = s.1.log := by
  induction flows generalizing s with
  | nil => rfl
  | cons flow flows ih => exact (ih _).trans (onFlow_log latest s)

theorem onAggregate_log (s : Memory × RecoveryReport) (x : Aggregate) :
    (onAggregate registry s x).1.log = s.1.log := foldl_onFlow_log _ _ _

/-! ## What a recovery goes through -/

/-- The queue after a `look` at an event. -/
def fill (registry : Registry) (flow : String) (p : Progress) (q : Queue Event) (e : Event) :
    Queue Event :=
  if isDone registry flow p e then q else (q.enqueue flow e e.timestamp).2

theorem look_fst (s : Queue Event × Walk) (e : Event) :
    (look registry flow p s e).1 = fill registry flow p s.1 e := by
  unfold look fill
  split
  · rfl
  · split
    · next hk => rw [Queue.enqueue_of_hasKey _ hk]
    · rfl

/-- Of the queue only `fill` counts, not what the walk has come to. -/
theorem foldl_look_fst (es : List Event) (s : Queue Event × Walk) :
    (es.foldl (look registry flow p) s).1 = es.foldl (fill registry flow p) s.1 := by
  induction es generalizing s with
  | nil => rfl
  | cons e rest ih => rw [List.foldl_cons, ih, look_fst, List.foldl_cons]

/-- The memory after `onFlow` for a flow on an aggregate. -/
def tend (registry : Registry) (m : Memory) (pair : Uuid × String) : Memory :=
  (onFlow registry pair.1 (m.log.latest pair.1) (m, {}) pair.2).1

/-- What was counted so far has no influence on `look`. -/
theorem foldl_look_report (registry : Registry) (flow : String) (p : Progress) (es : List Event)
    (q : Queue Event) (w : Walk) (report : RecoveryReport) :
    ∃ report', es.foldl (look registry flow p) (q, { w with report := report }) =
      ((es.foldl (look registry flow p) (q, w)).1,
        { (es.foldl (look registry flow p) (q, w)).2 with report := report' }) := by
  induction es generalizing q w report with
  | nil => exact ⟨report, rfl⟩
  | cons e rest ih =>
    have hstep : ∃ report', look registry flow p (q, { w with report := report }) e =
        ((look registry flow p (q, w) e).1,
          { (look registry flow p (q, w) e).2 with report := report' }) := by
      unfold look
      simp only
      split
      · split
        · exact ⟨report, rfl⟩
        · exact ⟨report, rfl⟩
      · split
        · exact ⟨_, rfl⟩
        · exact ⟨_, rfl⟩
    obtain ⟨report', hlook⟩ := hstep
    rw [List.foldl_cons, List.foldl_cons, hlook]
    exact ih _ _ report'

theorem onFlow_fst (s : Memory × RecoveryReport) :
    (onFlow registry a (s.1.log.latest a) s flow).1 = tend registry s.1 (a, flow) := by
  unfold tend onFlow
  simp only
  split
  · rfl
  · obtain ⟨report', hlook⟩ := foldl_look_report registry flow (s.1.progress.get flow a)
      (between s.1.log a (s.1.progress.get flow a).watermark (s.1.log.latest a)) s.1.queue
      { settledUpTo := (s.1.progress.get flow a).watermark, report := {} } s.2
    simp only at hlook
    rw [hlook]

theorem tend_log (m : Memory) (pair : Uuid × String) : (tend registry m pair).log = m.log :=
  onFlow_log _ _

theorem foldl_onFlow_fst (flows : List String) (s : Memory × RecoveryReport) :
    (flows.foldl (onFlow registry a (s.1.log.latest a)) s).1 =
      (flows.map fun flow => (a, flow)).foldl (tend registry) s.1 := by
  induction flows generalizing s with
  | nil => rfl
  | cons flow flows ih =>
    have hrest := ih (onFlow registry a (s.1.log.latest a) s flow)
    rw [onFlow_log] at hrest
    rw [List.foldl_cons, hrest, onFlow_fst, List.map_cons, List.foldl_cons]

/-- What a recovery looks after, in its order: for each aggregate all flows. -/
def pairs (registry : Registry) (xs : List Aggregate) : List (Uuid × String) :=
  xs.flatMap fun x => registry.names.map fun flow => (x.id, flow)

theorem pairs_cons (x : Aggregate) (rest : List Aggregate) : pairs registry (x :: rest) =
    (registry.names.map fun flow => (x.id, flow)) ++ pairs registry rest := List.flatMap_cons

theorem onAggregate_fst (s : Memory × RecoveryReport) (x : Aggregate) :
    (onAggregate registry s x).1 =
      (registry.names.map fun flow => (x.id, flow)).foldl (tend registry) s.1 := by
  unfold onAggregate
  exact foldl_onFlow_fst registry.names
    (s.1, { s.2 with aggregatesChecked := s.2.aggregatesChecked + 1 })

/-- The memory after all aggregates is that after `tend` of all `pairs`. -/
theorem foldl_onAggregate_fst (xs : List Aggregate) (s : Memory × RecoveryReport) :
    (xs.foldl (onAggregate registry) s).1 = (pairs registry xs).foldl (tend registry) s.1 := by
  induction xs generalizing s with
  | nil => rfl
  | cons x rest ih =>
    rw [List.foldl_cons, ih, onAggregate_fst, pairs_cons, List.foldl_append]

/-- A `Memory` that a recovery goes through while it looks after pairs of an aggregate and a
flow. -/
inductive Met (registry : Registry) : List (Uuid × String) → Memory → Memory → Prop
  | here (pairs : List (Uuid × String)) (m : Memory) : Met registry pairs m m
  | filling {a : Uuid} {flow : String} {m : Memory} {es : List Event}
      (pairs : List (Uuid × String)) :
      es <+: between m.log a (m.progress.get flow a).watermark (m.log.latest a) →
      Met registry ((a, flow) :: pairs) m
        { m with queue := es.foldl (fill registry flow (m.progress.get flow a)) m.queue }
  | later {pair : Uuid × String} {pairs : List (Uuid × String)} {m m' : Memory} :
      Met registry pairs (tend registry m pair) m' → Met registry (pair :: pairs) m m'

namespace Met

variable {pairs pairs' : List (Uuid × String)} {m' : Memory}

/-- What is `Met` along some pairs is met along more. -/
theorem append (h : Met registry pairs m m') : Met registry (pairs ++ pairs') m m' := by
  induction h with
  | here => exact .here _ _
  | filling pairs hes => exact .filling _ hes
  | later _ ih => exact .later ih

/-- What is `Met` after some pairs is met along all of them. -/
theorem after (h : Met registry pairs' (pairs.foldl (tend registry) m) m') :
    Met registry (pairs ++ pairs') m m' := by
  induction pairs generalizing m with
  | nil => exact h
  | cons pair rest ih => exact .later (ih h)

theorem last (pairs : List (Uuid × String)) (m : Memory) :
    Met registry pairs m (pairs.foldl (tend registry) m) := by
  induction pairs generalizing m with
  | nil => exact .here _ _
  | cons pair rest ih => exact .later (ih _)

end Met

/-! ## The procedure comes to this -/

/-- Work that cannot fail, as a part of the recovery. -/
theorem keeps_always {p : Work α} {Q : α → Memory → Prop} (h : Keeps I Q p r m) :
    Keeps I (fun out m' => ∃ a, out = .ok a ∧ Q a m') (always p).run r m := by
  apply h.bind
  intro a m' hI hQ _
  exact ⟨hI, a, rfl, hQ⟩

theorem succeeds_always {p : Work α} {b : α} {m' : Memory} (h : Passes I r p m b m') :
    Succeeds I r (always p) m b m' where
  achieves := h.comes.bind fun _ => Comes.pure _
  keeps := by
    apply h.keeps.bind
    rintro _ _ hI ⟨rfl, rfl⟩ _
    refine ⟨hI, fun b hb => ?_⟩
    exact ⟨(Except.ok.inj hb).symm, rfl⟩

/-- Work that comes to a result, where a failure would be one of the recovery. -/
theorem succeeds_mapError {δ : Type} {p : Work (Except δ α)}
    {f : Except δ α → Procedure Call Call.Answer (Except RecoveryError α)}
    (wrap : δ → RecoveryError) (hf : ∀ out, f out = .done (out.mapError wrap)) {b : α}
    {m' : Memory} (h : Passes I r p m (.ok b) m') :
    Succeeds I r (ExceptT.mk (p >>= f)) m b m' where
  achieves := by
    refine h.comes.bind fun _ => ?_
    rw [hf]
    exact Comes.pure _
  keeps := by
    apply h.keeps.bind
    rintro _ _ hI ⟨rfl, rfl⟩ r'
    rw [hf]
    refine ⟨hI, fun b hb => ?_⟩
    exact ⟨(Except.ok.inj hb).symm, rfl⟩

theorem succeeds_onLog {p : Work (Except LogError α)} {b : α} {m' : Memory}
    (h : Passes I r p m (.ok b) m') : Succeeds I r (onLog p) m b m' :=
  succeeds_mapError .log (fun out => by cases out <;> rfl) h

theorem succeeds_onProgress {p : Work (Except ProgressError α)} {b : α} {m' : Memory}
    (h : Passes I r p m (.ok b) m') : Succeeds I r (onProgress p) m b m' :=
  succeeds_mapError .progress (fun out => by cases out <;> rfl) h

/-- `Dispatch.enqueue` comes to what `Queue.enqueue` answers. -/
theorem comes_enqueue (flow : String) (e : Event) (priority : Int) (m : Memory) :
    Comes r (Dispatch.enqueue flow e priority) m (m.queue.enqueue flow e priority).1
      { m with queue := (m.queue.enqueue flow e priority).2 } := by
  refine (Comes.queue _).bind fun _ => ?_
  simp only [Memory.answerQueue]
  cases (m.queue.enqueue flow e priority).1 with
  | ok => exact Comes.wake.bind fun _ => Comes.pure _
  | error => exact Comes.pure _

/-- `Dispatch.enqueue` fails, or it comes to what the queue answers. -/
theorem keeps_enqueue (flow : String) (e : Event) (priority : Int) (hm : I m)
    (hm' : I { m with queue := (m.queue.enqueue flow e priority).2 }) :
    Keeps I (fun out m' => (out = (m.queue.enqueue flow e priority).1 ∧
        m' = { m with queue := (m.queue.enqueue flow e priority).2 }) ∨
        ∃ reason, out = .error (.storage reason) ∧ m' = m)
      (Dispatch.enqueue flow e priority) r m := by
  refine ⟨hm, fun reply m₁ hreply r' => ?_⟩
  cases hreply with
  | given =>
    simp only [Memory.answer, Memory.answerQueue]
    cases (m.queue.enqueue flow e priority).1 with
    | ok =>
      apply (Passes.wake hm').keeps.bind
      rintro _ _ hI ⟨-, rfl⟩ r'
      exact ⟨hI, .inl ⟨rfl, rfl⟩⟩
    | error err => exact ⟨hm', .inl ⟨rfl, rfl⟩⟩
  | failed _ reason => exact ⟨hm, .inr ⟨reason, rfl, rfl⟩⟩

/-- The recovery goes on with what the queue answers, and stops where that is a failure. -/
theorem succeeds_enqueue {e : Event} {priority : Int} {g : Except QueueError Unit → Part α} {b : α}
    {m' : Memory} (hm : I m)
    (hstop : ∀ reason, g (.error (.storage reason)) = throw (.queue (.storage reason)))
    (hg : ∀ r, Succeeds I r (g (m.queue.enqueue flow e priority).1)
      { m with queue := (m.queue.enqueue flow e priority).2 } b m') :
    Succeeds I r (always (Dispatch.enqueue flow e priority) >>= g) m b m' where
  achieves := by
    have hcomes : Achieves r (always (Dispatch.enqueue flow e priority)) m _ _ :=
      (comes_enqueue flow e priority m).bind fun _ => Comes.pure _
    exact hcomes.bind fun r => (hg r).achieves
  keeps := by
    have hkeeps := keeps_enqueue (r := r) flow e priority hm (hg r).keeps.here
    apply (keeps_always hkeeps).bind
    rintro _ m₁ hI ⟨out, rfl, hout⟩ r'
    rcases hout with ⟨rfl, rfl⟩ | ⟨reason, rfl, rfl⟩
    · exact (hg r').keeps
    · simp only [ExceptT.bindCont, hstop]
      refine ⟨hI, fun b hb => ?_⟩
      cases hb

/-- A visit of an event comes to `look`: the queue with the event filled in, and the walk moved
on. -/
theorem succeeds_visit (w : Walk) (e : Event) (hm : I m)
    (hm' : I { m with queue := (look registry flow p (m.queue, w) e).1 }) :
    Succeeds I r (visit registry flow p w e) m (look registry flow p (m.queue, w) e).2
      { m with queue := (look registry flow p (m.queue, w) e).1 } := by
  unfold visit
  unfold look isDone at hm' ⊢
  by_cases hdone : (!registry.routesTo e flow || p.isSettled e.revision) = true
  · simp only [if_pos hdone] at hm' ⊢
    split
    · exact .pure _ hm
    · exact .pure _ hm
  · simp only [if_neg hdone] at hm' ⊢
    apply succeeds_enqueue hm (fun _ => rfl)
    intro r
    cases hk : (m.queue.laneAt flow).hasKey (Keyed.key e) with
    | true =>
      simp only [hk, Queue.enqueue_of_hasKey _ hk] at hm' ⊢
      exact .pure _ hm'
    | false =>
      simp only [hk, Queue.enqueue_of_not_hasKey _ hk] at hm' ⊢
      exact (succeeds_always (.note _ hm')).bind fun _ => .pure _ hm'

/-- A walk from right above a revision comes to `look` at each event `between` it and the last, if
it may read often enough; and wherever it is cut off, the queue was filled from the first events of
these. -/
theorem succeeds_walk {range : RevisionRange} {last count : Nat} (hlast : range.last? = some last)
    (above : Nat) (w : Walk) (m : Memory) (hcount : (between m.log a above last).length ≤ count)
    (hI : ∀ es, es <+: between m.log a above last →
      I { m with queue := es.foldl (fill registry flow p) m.queue }) :
    Succeeds I r (walk registry flow p count (.memory (.stream a range (above + 1))) w) m
      ((between m.log a above last).foldl (look registry flow p) (m.queue, w)).2
      { m with
        queue := ((between m.log a above last).foldl (look registry flow p) (m.queue, w)).1 } := by
  -- with each event that is read the count goes down and the walk goes one revision up
  induction count generalizing r above w m with
  | zero =>
    rw [List.eq_nil_of_length_eq_zero (Nat.le_zero.1 hcount)]
    exact .pure w (hI [] List.nil_prefix)
  | succ count ih =>
    have hm : I m := hI [] List.nil_prefix
    refine (succeeds_always (.log _ hm (by rwa [answerLog_next]))).bind fun _ => ?_
    rw [answerLog_next]
    have hnext? : m.log.next? (.stream a range (above + 1)) =
        if above < last then ((m.log.streamOf a)[above]?).map fun e =>
          (e, .stream a range (above + 1 + 1)) else none := by
      simp only [EventLog.next?, RevisionRange.reaches, hlast, Nat.succ_le_iff, decide_eq_true_eq,
        Nat.add_one_sub_one]
    by_cases hnext : above < last ∧ above < (m.log.streamOf a).length
    · obtain ⟨hlt, hlen⟩ := hnext
      have hsplit : between m.log a above last =
          (m.log.streamOf a)[above] :: between m.log a (above + 1) last := by
        unfold between
        rw [List.drop_eq_getElem_cons (by rw [List.length_take]; omega), List.getElem_take]
      have hread : Memory.answerLog m.log (.next (.memory (.stream a range (above + 1)))) =
          ((some (.ok (m.log.streamOf a)[above]), .memory (.stream a range (above + 1 + 1))),
            m.log) := by
        rw [if_pos hlt, List.getElem?_eq_getElem hlen] at hnext?
        simp [Memory.answerLog, hnext?]
      rw [hread, hsplit]
      rw [hsplit] at hcount hI
      have hlooked : ∀ es, es <+: between m.log a (above + 1) last →
          I { m with
            queue := es.foldl (fill registry flow p)
              (look registry flow p (m.queue, w) (m.log.streamOf a)[above]).1 } := by
        intro es hes
        rw [look_fst]
        exact hI (_ :: es) (List.cons_prefix_cons.2 ⟨rfl, hes⟩)
      refine (succeeds_visit w _ hm (hlooked [] List.nil_prefix)).bind fun _ => ?_
      exact ih (above + 1) _ _ (Nat.le_of_succ_le_succ hcount) hlooked
    · have hnil : between m.log a above last = [] := by
        unfold between
        rw [List.drop_eq_nil_iff, List.length_take]
        omega
      have hread : Memory.answerLog m.log (.next (.memory (.stream a range (above + 1)))) =
          ((none, .ended), m.log) := by
        have hend : m.log.next? (.stream a range (above + 1)) = none := by
          rw [hnext?]
          split
          · rw [List.getElem?_eq_none (by omega)]
            rfl
          · rfl
        simp [Memory.answerLog, hend]
      rw [hread, hnil]
      exact .pure w hm

/-- Where there is something to look after, the range that is asked for is a right one. -/
theorem between_eq_ok {first last : Nat} (hpos : 0 < first) (hle : first ≤ last) :
    ∃ range, RevisionRange.between (some first) (some last) = .ok range ∧ range.first = first ∧
      range.last? = some last := by
  have h1 : some first ≠ some 0 := by simp; omega
  have h2 : some last ≠ some 0 := by simp; omega
  have h3 : ¬ ∃ m, m ∈ some first ∧ ∃ n, n ∈ some last ∧ n < m := by
    rintro ⟨m, hm, n, hn, hlt⟩
    obtain rfl := Option.some.inj hm
    obtain rfl := Option.some.inj hn
    omega
  unfold RevisionRange.between
  rw [dif_neg h1, dif_neg h2, dif_neg h3]
  exact ⟨_, rfl, rfl, rfl⟩

/-- A visit of a flow comes to `onFlow`, and is cut off only in memories that are `Met`. Where the
watermark is at the latest revision there is nothing to walk. -/
theorem succeeds_visitFlow (report : RecoveryReport) (m : Memory)
    (hI : ∀ m', Met registry [(a, flow)] m m' → I m') :
    Succeeds I r (visitFlow registry a (m.log.latest a) report flow) m
      (onFlow registry a (m.log.latest a) (m, report) flow).2
      (tend registry m (a, flow)) := by
  have hm : I m := hI m (.here _ _)
  have hend : I (tend registry m (a, flow)) := hI _ (.later (.here _ _))
  rw [← onFlow_fst (m, report)] at hend ⊢
  unfold visitFlow
  unfold onFlow at hend ⊢
  refine (succeeds_onProgress (.progress (.get flow a) hm hm)).bind fun _ => ?_
  simp only at hend ⊢
  split at hend
  · next hle =>
    simp only [if_pos hle]
    exact .pure _ hm
  · next hle =>
    simp only [if_neg hle]
    obtain ⟨range, hrange, hfirst, hlast⟩ :=
      between_eq_ok (Nat.succ_pos (m.progress.get flow a).watermark) (Nat.lt_of_not_le hle)
    have hpure : ∀ r, Passes I r (pure (RevisionRange.between
        (some ((m.progress.get flow a).watermark + 1)) (some (m.log.latest a)))) m
        (.ok range) m := by
      rw [hrange]
      exact fun r => .pure _ hm
    refine (succeeds_onLog (hpure _)).bind fun _ => ?_
    refine (succeeds_onLog (.log (.read (.stream a range)) hm hm)).bind fun _ => ?_
    have hopen : EventLog.openCursor (.stream a range) =
        .stream a range ((m.progress.get flow a).watermark + 1) :=
      congrArg (EventLog.Cursor.stream a range) hfirst
    have hcount : (between m.log a (m.progress.get flow a).watermark (m.log.latest a)).length ≤
        m.log.latest a - (m.progress.get flow a).watermark + 1 := by
      unfold between
      rw [List.length_drop, List.length_take]
      omega
    rw [hopen]
    have hfilled := fun es (hes : es <+: _) => hI _ (.filling [] hes)
    refine (succeeds_walk hlast _ _ m hcount hfilled).bind fun _ => ?_
    split
    · next hlt =>
      rw [if_pos hlt] at hend
      have hwalked := hfilled _ (List.prefix_refl _)
      rw [← foldl_look_fst _
        (m.queue, ⟨(m.progress.get flow a).watermark, true, report⟩)] at hwalked
      exact (succeeds_onProgress (.progress (.advance flow a _) hwalked hend)).bind fun _ =>
        .pure _ hend
    · next hlt =>
      rw [if_neg hlt] at hend
      exact .pure _ hend

/-- The flows of an aggregate one after the other, each by `succeeds_visitFlow`. -/
theorem succeeds_visitFlows (flows : List String) (s : Memory × RecoveryReport)
    (hI : ∀ m', Met registry (flows.map fun flow => (a, flow)) s.1 m' → I m') :
    Succeeds I r (visitFlows registry a (s.1.log.latest a) flows s.2) s.1
      (flows.foldl (onFlow registry a (s.1.log.latest a)) s).2
      (flows.foldl (onFlow registry a (s.1.log.latest a)) s).1 := by
  induction flows generalizing r s with
  | nil => exact .pure s.2 (hI _ (.here _ _))
  | cons flow flows ih =>
    have hfirst := succeeds_visitFlow (r := r) s.2 s.1 fun m' hm' => hI m' hm'.append
    refine hfirst.bind fun r => ?_
    have hrest := ih (r := r) (onFlow registry a (s.1.log.latest a) s flow) fun m' hm' => ?_
    · rw [onFlow_log] at hrest
      rw [← onFlow_fst s]
      exact hrest
    · rw [onFlow_fst] at hm'
      exact hI m' (.later hm')

/-- `onFlow` does nothing where the latest revision is 0. -/
theorem foldl_onFlow_zero (flows : List String) (s : Memory × RecoveryReport) :
    flows.foldl (onFlow registry a 0) s = s := by
  induction flows with
  | nil => rfl
  | cons flow flows ih =>
    have hskip : onFlow registry a 0 s flow = s := by
      unfold onFlow
      exact if_pos (Nat.zero_le _)
    rw [List.foldl_cons, hskip]
    exact ih

/-- The aggregates one after the other. Where there is no last event the aggregate is passed over,
which is what `onAggregate` comes to there. -/
theorem succeeds_visitAggregates (xs : List Aggregate) (s : Memory × RecoveryReport)
    (hn : s.1.log.Numbered) (hI : ∀ m', Met registry (pairs registry xs) s.1 m' → I m') :
    Succeeds I r (visitAggregates registry (xs.map .ok) s.2) s.1
      (xs.foldl (onAggregate registry) s).2 (xs.foldl (onAggregate registry) s).1 := by
  induction xs generalizing r s with
  | nil => exact .pure s.2 (hI _ (.here _ _))
  | cons x rest ih =>
    have hm : I s.1 := hI _ (.here _ _)
    have hrest := fun r => ih (r := r) (onAggregate registry s x)
      (by rw [onAggregate_log]; exact hn) fun m' hm' => hI m' (by
        rw [onAggregate_fst] at hm'
        exact pairs_cons x rest ▸ hm'.after)
    refine (succeeds_onLog (.log (.nextAggregate (.ok x)) hm hm)).bind fun _ => ?_
    refine (succeeds_always (.log (.last x) hm hm)).bind fun _ => ?_
    simp only [Memory.answerLog]
    cases hlast : s.1.log.last x with
    | ok e =>
      obtain ⟨-, -, hrev⟩ := hn.last_eq_ok hlast
      have hflows := fun r => succeeds_visitFlows (r := r) registry.names
        (s.1, { s.2 with aggregatesChecked := s.2.aggregatesChecked + 1 })
        fun m' hm' => hI m' (pairs_cons x rest ▸ hm'.append)
      simp only [hrev]
      exact (hflows _).bind hrest
    | error err =>
      obtain ⟨rfl, hzero⟩ := EventLog.last_eq_error hlast
      rw [List.foldl_cons]
      unfold onAggregate at hrest ⊢
      rw [hzero, foldl_onFlow_zero] at hrest ⊢
      exact hrest _

theorem comes_sweep (m : Memory) :
    Comes r Dispatch.sweep m (.ok (m.queue.sweep r.now).1)
      { m with queue := (m.queue.sweep r.now).2 } := by
  refine (Comes.queue _).bind fun _ => ?_
  simp only [Memory.answerQueue]
  cases (m.queue.sweep r.now).1 with
  | nil => exact Comes.pure _
  | cons => exact Comes.wake.bind fun _ => Comes.pure _

/-- `Dispatch.sweep` fails, or it comes to what the queue answers. -/
theorem succeeds_sweep (hm : I m) (hm' : I { m with queue := (m.queue.sweep r.now).2 }) :
    Succeeds I r (onQueue Dispatch.sweep) m (m.queue.sweep r.now).1
      { m with queue := (m.queue.sweep r.now).2 } where
  achieves := (comes_sweep m).bind fun _ => Comes.pure _
  keeps := by
    refine ⟨hm, fun reply m' hreply r' => ?_⟩
    cases hreply with
    | given =>
      simp only [Memory.answer, Memory.answerQueue]
      cases (m.queue.sweep r.now).1 with
      | nil => exact (Succeeds.pure [] hm').keeps
      | cons lease rest =>
        apply (Passes.wake hm').keeps.bind
        rintro _ _ hI ⟨-, rfl⟩ _
        exact (Succeeds.pure (lease :: rest) hI).keeps
    | failed =>
      refine ⟨hm, fun b hb => ?_⟩
      cases hb

theorem succeeds_sweepLeases (hm : I m) (hm' : I (onLeases r.now m).1) :
    Succeeds I r sweepLeases m (onLeases r.now m).2.expiredLeases (onLeases r.now m).1 := by
  have hnotes : ∀ (expired : List Lease) (m : Memory) (r : Call.Reading), I m →
      Succeeds I r (forIn expired PUnit.unit fun lease (_ : PUnit) =>
        (do always (Work.note (.leaseExpired lease)); pure (.yield .unit) : Part (ForInStep PUnit)))
        m PUnit.unit m := by
    intro expired m r hm
    induction expired generalizing r with
    | nil => exact .pure _ hm
    | cons lease rest ih =>
      rw [List.forIn_cons]
      exact Succeeds.bind ((succeeds_always (.note _ hm)).bind fun _ =>
        .pure (ForInStep.yield _) hm) ih
  refine (succeeds_sweep hm hm').bind fun _ => ?_
  exact (hnotes _ _ _ hm').bind fun _ => .pure _ hm'

/-- Sweeping and then all aggregates: the whole of the recovery but for what it says of it. -/
theorem succeeds_parts (hn : m.log.Numbered) (hm : I m)
    (hI : ∀ m', Met registry (pairs registry m.log.aggregates) (onLeases r.now m).1 m' → I m') :
    Succeeds I r (parts registry) m (effect registry r.now m).2 (effect registry r.now m).1 := by
  have hswept : I (onLeases r.now m).1 := hI _ (.here _ _)
  unfold parts effect
  refine (succeeds_sweepLeases hm hswept).bind fun _ => ?_
  split
  · exact .pure _ hswept
  · refine (succeeds_onLog (.log .aggregates hswept hswept)).bind fun _ => ?_
    exact succeeds_visitAggregates _ (onLeases r.now m) hn hI

/-- **A recovery that is not interrupted comes to its `effect`**, and does not fail. It depends on
the clock by its first reading only. -/
theorem alone_run (registry : Registry) (clock : Clock) (m : Memory) (hn : m.log.Numbered) :
    Work.alone clock (run registry) m =
      (.ok (effect registry (clock 0).now m).2, (effect registry (clock 0).now m).1) :=
  (succeeds_parts (I := fun _ => True) hn trivial fun _ _ => trivial).achieves clock rfl

/-- A recovery that is cut off is so before it took leases off, or leaves a memory that is `Met`. -/
theorem met_of_cutOff {clock : Clock} {m' : Memory} (hn : m.log.Numbered)
    (hcut : CutOff clock (run registry) m m') :
    m' = m ∨ Met registry (pairs registry m.log.aggregates) (onLeases (clock 0).now m).1 m' := by
  have hparts := succeeds_parts (r := clock 0) (I := fun m' => m' = m ∨
    Met registry (pairs registry m.log.aggregates) (onLeases (clock 0).now m).1 m') hn (.inl rfl)
    fun _ hm' => .inr hm'
  exact hparts.keeps.cutOff hcut

end EventRelay.Recovery
