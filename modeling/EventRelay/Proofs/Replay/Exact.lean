import EventRelay.Proofs.Broker.Settled
import EventRelay.Proofs.Log.Views
import EventRelay.Proofs.Queue.Filling
import EventRelay.Proofs.Recovery.Effect
import EventRelay.Replay.Perform
import Mathlib.Algebra.Ring.Nat

/-!
# What one replay does

A replay with a wrong window does nothing at all, wherever the window stands. Any other puts just
the stored events of its windows into the lanes of their owners, window by window and in the order
of revisions, and leaves the log and the progress as they are.
-/

namespace EventRelay.Replay

variable {registry : Registry} {r : Call.Reading} {m : Memory} {l : EventLog} {w : ReplayWindow}
  {windows : List ReplayWindow}

/-! ## Wrong windows -/

/-- A window that no request may have: the name of the aggregate is blank, a bound is 0, or the last
revision is before the first. -/
def Bad (w : ReplayWindow) : Prop :=
  Text.isBlank w.aggregate.name = true ∨ w.first = 0 ∨ w.last = 0 ∨ w.last < w.first

instance : DecidablePred Bad := fun w =>
  inferInstanceAs (Decidable (Text.isBlank w.aggregate.name = true ∨ _))

theorem between_eq_error {first last : Nat} (h : first = 0 ∨ last = 0 ∨ last < first) :
    ∃ e, RevisionRange.between (some first) (some last) = .error e := by
  unfold RevisionRange.between
  split
  · exact ⟨_, rfl⟩
  · next h1 =>
    split
    · exact ⟨_, rfl⟩
    · next h2 =>
      refine ⟨_, dif_pos ⟨first, rfl, last, rfl, ?_⟩⟩
      simp only [Option.some.injEq] at h1 h2
      omega

theorem range_of_bad (h : Bad w) : ∃ reason, w.range = .error reason := by
  unfold ReplayWindow.range Aggregate.validate
  by_cases hblank : Text.isBlank w.aggregate.name = true
  · rw [if_pos hblank]
    exact ⟨_, rfl⟩
  · rw [if_neg hblank]
    obtain ⟨e, he⟩ := between_eq_error (h.resolve_left hblank)
    simp only [he]
    exact ⟨_, rfl⟩

/-- A window that is not `Bad` has its own bounds for a range. -/
theorem range_of_not_bad (h : ¬ Bad w) :
    ∃ range, w.range = .ok range ∧ range.first = w.first ∧ range.last? = some w.last := by
  simp only [Bad, not_or] at h
  obtain ⟨hblank, hfirst, hlast, hle⟩ := h
  obtain ⟨range, hrange, hbounds⟩ :=
    Recovery.between_eq_ok (Nat.pos_of_ne_zero hfirst) (Nat.le_of_not_lt hle)
  refine ⟨range, ?_, hbounds⟩
  unfold ReplayWindow.range Aggregate.validate
  rw [if_neg hblank]
  simp only [hrange]

/-- The first window of a request that is `Bad` decides. -/
theorem ranges_of_bad (h : ∃ w ∈ windows, Bad w) :
    ∃ before w after reason, windows = before ++ w :: after ∧ (∀ x ∈ before, ¬ Bad x) ∧
      w.range = .error reason ∧ ranges windows = .error (.invalid reason) := by
  induction windows with
  | nil =>
    obtain ⟨_, hmem, _⟩ := h
    cases hmem
  | cons first rest ih =>
    by_cases hbad : Bad first
    · obtain ⟨reason, hrange⟩ := range_of_bad hbad
      refine ⟨[], first, rest, reason, rfl, List.forall_mem_nil _, hrange, ?_⟩
      simp only [ranges, hrange]
    · have hrest : ∃ w ∈ rest, Bad w := by
        obtain ⟨w, hmem, hw⟩ := h
        rcases List.mem_cons.1 hmem with rfl | hmem
        · exact absurd hw hbad
        · exact ⟨w, hmem, hw⟩
      obtain ⟨before, w, after, reason, rfl, hbefore, hw, hranges⟩ := ih hrest
      obtain ⟨range, hrange, -⟩ := range_of_not_bad hbad
      refine ⟨first :: before, w, after, reason, rfl, ?_, hw, ?_⟩
      · intro x hx
        rcases List.mem_cons.1 hx with rfl | hx
        · exact hbad
        · exact hbefore x hx
      · simp only [ranges, hrange, hranges]
        rfl

/-! ## Filling lanes -/

/-- What is enqueued in between is counted, by the sequence numbers that are used up, and so is
everything that was offered. -/
structure Counts (q : Queue Event) (report : ReplayReport) (offered : Nat) (q' : Queue Event)
    (report' : ReplayReport) : Prop where
  enqueued : report'.enqueued + q.nextSequence = report.enqueued + q'.nextSequence
  seen : report'.enqueued + report'.alreadyQueued =
    report.enqueued + report.alreadyQueued + offered

theorem Counts.trans {q q' q'' : Queue Event} {report report' report'' : ReplayReport} {n n' : Nat}
    (h : Counts q report n q' report') (h' : Counts q' report' n' q'' report'') :
    Counts q report (n + n') q'' report'' := by
  obtain ⟨henqueued, hseen⟩ := h
  obtain ⟨henqueued', hseen'⟩ := h'
  constructor <;> omega

/-- The part of a replay puts events into lanes one after the other and `Counts` them, as long as
the log is this one. -/
def Fills (l : EventLog) (p : ReplayReport → Part ReplayReport) (jobs : List (String × Event)) :
    Prop :=
  ∀ (m : Memory) (report : ReplayReport), m.log = l → ∃ report',
    (∀ r, Achieves r (p report) m report' { m with queue := m.queue.putAll jobs }) ∧
    Counts m.queue report jobs.length (m.queue.putAll jobs) report'

namespace Fills

variable {p p' : ReplayReport → Part ReplayReport} {jobs jobs' : List (String × Event)}

theorem pure (l : EventLog) : Fills l (fun report => Pure.pure report) [] :=
  fun _ report _ => ⟨report, fun _ => .pure report, rfl, rfl⟩

/-- A part that `Fills` with some events and then one with others fill with all of them. -/
theorem andThen (h : Fills l p jobs) (h' : Fills l p' jobs') :
    Fills l (fun report => p report >>= p') (jobs ++ jobs') := by
  intro m report hlog
  obtain ⟨report₁, hfirst, hcounts₁⟩ := h m report hlog
  obtain ⟨report₂, hsecond, hcounts₂⟩ := h' { m with queue := m.queue.putAll jobs } report₁ hlog
  rw [← Queue.putAll_append] at hsecond hcounts₂
  exact ⟨report₂, fun r => (hfirst r).bind hsecond, List.length_append ▸ hcounts₁.trans hcounts₂⟩

end Fills

theorem achieves_always {α : Type} {p : Work α} {a : α} {m' : Memory} (h : Comes r p m a m') :
    Achieves r (always p) m a m' := h.bind fun _ => Comes.pure _

/-- An event is put into the lane of each flow, or found there. -/
theorem fills_enqueueForAll (l : EventLog) (e : Event) (flows : List String) :
    Fills l (enqueueForAll e flows) (flows.map fun flow => (flow, e)) := by
  induction flows with
  | nil => exact .pure l
  | cons flow rest ih =>
    intro m report hlog
    have hcall := fun r => achieves_always (Recovery.comes_enqueue (r := r) flow e e.timestamp m)
    cases hk : (m.queue.laneAt flow).hasKey (Keyed.key e) with
    | true =>
      obtain ⟨report', hrest, hcounts⟩ :=
        ih m { report with alreadyQueued := report.alreadyQueued + 1 } hlog
      rw [Queue.enqueue_of_hasKey _ hk] at hcall
      rw [List.map_cons, Queue.putAll_cons, Queue.enqueue_of_hasKey _ hk]
      refine ⟨report', fun r => (hcall r).bind hrest, hcounts.enqueued, ?_⟩
      have hseen := hcounts.seen
      rw [List.length_cons]
      simp only at hseen
      omega
    | false =>
      obtain ⟨q, hq, hnext⟩ : ∃ q, m.queue.enqueue flow e e.timestamp = (.ok (), q) ∧
          q.nextSequence = m.queue.nextSequence + 1 :=
        ⟨_, Queue.enqueue_of_not_hasKey _ hk, rfl⟩
      obtain ⟨report', hrest, hcounts⟩ :=
        ih { m with queue := q } { report with enqueued := report.enqueued + 1 } hlog
      rw [hq] at hcall
      rw [List.map_cons, Queue.putAll_cons, hq]
      obtain ⟨henqueued, hseen⟩ := hcounts
      simp only at henqueued hseen
      refine ⟨report', fun r => (hcall r).bind hrest, ?_, ?_⟩
      · simp only
        omega
      · rw [List.length_cons]
        omega

/-- An event of another context goes nowhere, any other to its `deliveries`. -/
theorem fills_visit (l : EventLog) (registry : Registry) (w : ReplayWindow) (e : Event) :
    Fills l (fun report => visit registry w report e)
      (Queue.deliveries registry (if e.context = w.context then [e] else [])) := by
  unfold visit
  split
  · rw [Queue.deliveries, List.flatMap_singleton]
    exact fills_enqueueForAll l e (registry.owners e)
  · intro m report _
    exact ⟨report, fun _ => (achieves_always (.note _)).bind fun _ => .pure report, rfl, rfl⟩

/-- A walk fills lanes with the `deliveries` of what the cursor yields. -/
theorem fills_walk {c : EventLog.Cursor} {es : List Event} (registry : Registry)
    (w : ReplayWindow) (h : EventLog.Yields l c es) {count : Nat} (hcount : es.length < count) :
    Fills l (walk registry w count (.memory c))
      (Queue.deliveries registry (es.filter fun e => e.context = w.context)) := by
  induction h generalizing count with
  | @nil c hnone =>
    obtain ⟨count, rfl⟩ := Nat.exists_eq_succ_of_ne_zero (Nat.ne_of_gt hcount)
    rintro m report rfl
    have hnext := fun r => achieves_always (Comes.log (r := r) (m := m) (.next (.memory c)))
    simp only [Memory.answerLog, hnone] at hnext
    exact ⟨report, fun r => (hnext r).bind fun _ => .pure report, rfl, rfl⟩
  | @cons c _ e es hsome _ ih =>
    obtain ⟨count, rfl⟩ := Nat.exists_eq_succ_of_ne_zero (Nat.ne_of_gt (Nat.zero_lt_of_lt hcount))
    have hboth := (fills_visit l registry w e).andThen (ih (Nat.lt_of_succ_lt_succ hcount))
    have hsplit : (e :: es).filter (fun e => e.context = w.context) =
        (if e.context = w.context then [e] else []) ++
          es.filter fun e => e.context = w.context := by
      by_cases heq : e.context = w.context <;> simp [heq]
    rw [hsplit, Queue.deliveries, List.flatMap_append]
    rintro m report rfl
    obtain ⟨report', hrest, hcounts⟩ := hboth m report rfl
    have hnext := fun r => achieves_always (Comes.log (r := r) (m := m) (.next (.memory c)))
    simp only [Memory.answerLog, hsome] at hnext
    exact ⟨report', fun r => (hnext r).bind hrest, hcounts⟩

/-! ## Windows -/

/-- The stored events of a `ReplayWindow`, in the order of revisions. -/
def matching (l : EventLog) (w : ReplayWindow) : List Event :=
  (l.streamOf w.aggregate.id).filter fun e =>
    decide (w.first ≤ e.revision) && decide (e.revision ≤ w.last) && decide (e.context = w.context)

theorem contains_eq {range : RevisionRange} {last : Nat} (hlast : range.last? = some last)
    (n : Nat) : range.contains n = (decide (range.first ≤ n) && decide (n ≤ last)) := by
  simp [RevisionRange.contains, RevisionRange.reaches, hlast]

/-- A range has no more events than revisions: so a replay may ask often enough. -/
theorem length_filter_contains_le (hn : l.Numbered) {range : RevisionRange} {last : Nat}
    (hlast : range.last? = some last) (a : Uuid) :
    ((l.streamOf a).filter fun e => range.contains e.revision).length ≤ last - range.first + 1 := by
  have hnodup : (((l.streamOf a).filter fun e => range.contains e.revision).map
      (·.revision)).Nodup := by
    have hasc := (hn.ascending_streamOf a).filter fun e => range.contains e.revision
    exact List.pairwise_map.2 (hasc.imp Nat.ne_of_lt)
  have hsubset : ((l.streamOf a).filter fun e => range.contains e.revision).map (·.revision) ⊆
      List.range' range.first (last - range.first + 1) := by
    intro n hmem
    obtain ⟨e, he, rfl⟩ := List.mem_map.1 hmem
    have hin := (List.mem_filter.1 he).2
    rw [contains_eq hlast, Bool.and_eq_true, decide_eq_true_eq, decide_eq_true_eq] at hin
    rw [List.mem_range'_1]
    omega
  have hle := hnodup.length_le_of_subset hsubset
  rwa [List.length_map, List.length_range'] at hle

/-- A window fills lanes with what is `matching` it. -/
theorem fills_window (hn : l.Numbered) (registry : Registry) {range : RevisionRange}
    (hfirst : range.first = w.first) (hlast : range.last? = some w.last) :
    Fills l (walk registry w (w.last - w.first + 2)
      (.memory (EventLog.openCursor (.stream w.aggregate.id range))))
      (Queue.deliveries registry (matching l w)) := by
  have hyields := hn.yields_stream w.aggregate.id range
  have hcount := length_filter_contains_le hn hlast w.aggregate.id
  rw [hfirst] at hcount
  have hmatching : ((l.streamOf w.aggregate.id).filter fun e => range.contains e.revision).filter
      (fun e => e.context = w.context) = matching l w := by
    rw [List.filter_filter]
    apply List.filter_congr
    intro e _
    rw [contains_eq hlast, hfirst, Bool.and_comm]
  rw [← hmatching]
  exact fills_walk registry w hyields (Nat.lt_succ_of_le hcount)

/-- Where no window is `Bad`, each has its range. -/
theorem ranges_of_not_bad (h : ∀ w ∈ windows, ¬ Bad w) :
    ∃ found, ranges windows = .ok found ∧ found.map (·.1) = windows ∧
      ∀ x ∈ found, x.2.first = x.1.first ∧ x.2.last? = some x.1.last := by
  induction windows with
  | nil => exact ⟨[], rfl, rfl, List.forall_mem_nil _⟩
  | cons w rest ih =>
    obtain ⟨found, hfound, hwindows, hbounds⟩ := ih fun x hx => h x (List.mem_cons_of_mem _ hx)
    obtain ⟨range, hrange, hw⟩ := range_of_not_bad (h w List.mem_cons_self)
    refine ⟨(w, range) :: found, ?_, ?_, ?_⟩
    · simp only [ranges, hrange, hfound]
      rfl
    · rw [List.map_cons, hwindows]
    · exact List.forall_mem_cons.2 ⟨hw, hbounds⟩

/-- Windows fill lanes one after the other. By induction on them. -/
theorem fills_visitWindows (hn : l.Numbered) (registry : Registry)
    {found : List (ReplayWindow × RevisionRange)}
    (h : ∀ x ∈ found, x.2.first = x.1.first ∧ x.2.last? = some x.1.last) :
    Fills l (visitWindows registry found)
      (Queue.deliveries registry ((found.map (·.1)).flatMap (matching l))) := by
  induction found with
  | nil => exact .pure l
  | cons x rest ih =>
    obtain ⟨hx, hrest⟩ := List.forall_mem_cons.1 h
    have hboth := (fills_window hn registry hx.1 hx.2).andThen (ih hrest)
    rw [List.map_cons, List.flatMap_cons, Queue.deliveries, List.flatMap_append]
    rintro m report rfl
    obtain ⟨report', hfills, hcounts⟩ := hboth m report rfl
    refine ⟨report', fun r => ?_, hcounts⟩
    exact (achieves_always (.log (.read (.stream x.1.aggregate.id x.2)))).bind hfills

/-! ## One replay -/

/-- What one replay without a window that is `Bad` does to a memory and reports. -/
structure Replayed (registry : Registry) (windows : List ReplayWindow) (m : Memory)
    (report : ReplayReport) (m' : Memory) : Prop where
  log : m'.log = m.log
  progress : m'.progress = m.progress
  /-- Each lane keeps what it has and gets what its flow wants of the windows and is not there yet,
  window by window. -/
  grown : ∀ flow, (m.queue.laneAt flow).Grown
    (fresh (m.queue.laneAt flow).ids
      ((windows.flatMap (matching m.log)).filter fun e => registry.routesTo e flow))
    (m'.queue.laneAt flow)
  /-- The revisions of each window ascend. -/
  ascending : ∀ w ∈ windows, (matching m.log w).Pairwise fun e e' => e.revision < e'.revision
  /-- As many entries are new as are reported. -/
  enqueued : report.enqueued + m.queue.length = m'.queue.length
  seen : report.enqueued + report.alreadyQueued =
    ((windows.flatMap (matching m.log)).map fun e => (registry.owners e).length).sum

/-- `perform` with a window that is `Bad` is refused before anything is read. -/
theorem comes_perform_of_bad (h : ∃ w ∈ windows, Bad w) (m : Memory) (r : Call.Reading) :
    ∃ before w after reason, windows = before ++ w :: after ∧ (∀ x ∈ before, ¬ Bad x) ∧
      w.range = .error reason ∧
      Comes r (perform registry windows) m (.error (.invalid reason)) m := by
  obtain ⟨before, w, after, reason, hsplit, hbefore, hw, hranges⟩ := ranges_of_bad h
  refine ⟨before, w, after, reason, hsplit, hbefore, hw, ?_⟩
  have hparts : Comes r (parts registry windows).run m (.error (.invalid reason)) m := by
    unfold parts
    rw [hranges]
    exact .pure _
  exact hparts.bind fun _ => (Comes.note _).bind fun _ => .pure _

/-- `perform` without one comes to a report and a memory that are `Replayed`. -/
theorem exists_comes_perform (hreg : registry.Built) (hn : m.log.Numbered) (hq : m.queue.WF)
    (h : ∀ w ∈ windows, ¬ Bad w) : ∃ report m', (∀ r, Comes r (perform registry windows) m
      (.ok report) m') ∧ Replayed registry windows m report m' := by
  obtain ⟨found, hranges, hfound, hbounds⟩ := ranges_of_not_bad h
  obtain ⟨report, hfills, henqueued, hseen⟩ := fills_visitWindows hn registry hbounds m {} rfl
  rw [hfound] at hfills henqueued hseen
  have hparts : ∀ r, Achieves r (parts registry windows) m report
      { m with
        queue :=
          m.queue.putAll (Queue.deliveries registry (windows.flatMap (matching m.log))) } := by
    intro r
    have hstart : Achieves r (ExceptT.mk (pure (ranges windows)) : Part _) m found m := by
      rw [hranges]
      exact .pure found
    refine hstart.bind fun r => (hfills r).bind fun r => ?_
    exact (achieves_always (.note _)).bind fun _ => .pure report
  have hlength := hq.length_putAll (Queue.deliveries registry (windows.flatMap (matching m.log)))
  have hgrown := hq.grown_putAll (Queue.deliveries registry (windows.flatMap (matching m.log)))
  refine ⟨report, _, fun r => Comes.bind (hparts r) fun r => .pure _,
    { log := rfl
      progress := rfl
      grown := fun flow => Queue.meantFor_deliveries hreg flow _ ▸ hgrown flow
      ascending := fun w _ => (hn.ascending_streamOf w.aggregate.id).filter _
      enqueued := ?_
      seen := by simpa [Queue.deliveries, List.length_flatMap] using hseen }⟩
  simp only [Nat.zero_add] at henqueued ⊢
  omega

/-- **What one replay does.** From any state that can be reached: if a window of the request is
wrong, the answer says what is wrong with the first of them, and nothing is changed. Otherwise the
replay succeeds, puts into each lane just what its flow wants of the windows and what is not there
yet, and changes nothing else. -/
theorem perform_replays {s : System} (hreg : registry.Built) (hs : System.Reachable registry s)
    (windows : List ReplayWindow) (clock : Clock) :
    ((∃ w ∈ windows, Bad w) → ∃ before w after reason, windows = before ++ w :: after ∧
      (∀ x ∈ before, ¬ Bad x) ∧ w.range = .error reason ∧
      Work.alone clock (perform registry windows) s.memory =
        (.error (.invalid reason), s.memory)) ∧
    ((∀ w ∈ windows, ¬ Bad w) → ∃ report m',
      Work.alone clock (perform registry windows) s.memory = (.ok report, m') ∧
      Replayed registry windows s.memory report m') := by
  obtain ⟨w, hw⟩ := hs.exists_world
  rw [← hw.memory]
  constructor
  · intro hbad
    obtain ⟨before, w', after, reason, hsplit, hbefore, hrange, hcomes⟩ :=
      comes_perform_of_bad hbad w.memory (clock 0)
    exact ⟨before, w', after, reason, hsplit, hbefore, hrange, hcomes clock rfl⟩
  · intro hgood
    obtain ⟨report, m', hcomes, hreplayed⟩ :=
      exists_comes_perform hreg w.lawful.numbered w.lawful.stocked.wf hgood
    exact ⟨report, m', hcomes (clock 0) clock rfl, hreplayed⟩

/-- A window on the one order of `Sample.placed`. -/
def sampleWindow (first last : Nat) : ReplayWindow := ⟨⟨"shop"⟩, ⟨"order", .ofNat 7⟩, first, last⟩

/-- Where the first of two events was acknowledged, overlapping windows bring it back behind the
second; a wrong window keeps it away. -/
theorem perform_replays_of_two :
    ∃ s, System.Reachable Sample.registry s ∧ s.memory.queue.items "mail" = [Sample.placed 2] ∧
      (∃ report m', Work.alone (Sample.clockAt 4)
          (perform Sample.registry [sampleWindow 1 2, sampleWindow 2 9]) s.memory =
            (.ok report, m') ∧
        m'.queue.items "mail" = [Sample.placed 2, Sample.placed 1] ∧
        report.enqueued + report.alreadyQueued = 3) ∧
      ∃ reason, Work.alone (Sample.clockAt 4)
        (perform Sample.registry [sampleWindow 1 2, sampleWindow 2 1]) s.memory =
          (.error (.invalid reason), s.memory) := by
  obtain ⟨s, hs, hm⟩ := System.exists_leads_carryOut Sample.registry
    [(.publish [Sample.placed 1, Sample.placed 2], Sample.clockAt 1),
      (.lease, Sample.clockAt 2), (.acknowledge ⟨"mail", .ofNat 2⟩, Sample.clockAt 3)] {}
  obtain ⟨-, hgood⟩ := perform_replays Sample.registry_built hs
    [sampleWindow 1 2, sampleWindow 2 9] (Sample.clockAt 4)
  obtain ⟨hbad, -⟩ := perform_replays Sample.registry_built hs
    [sampleWindow 1 2, sampleWindow 2 1] (Sample.clockAt 4)
  obtain ⟨report, m', hrun, h⟩ := hgood (by decide)
  obtain ⟨-, -, -, reason, -, -, -, hrefused⟩ := hbad (by decide)
  have hitems := (h.grown "mail").gains.items
  have hseen := h.seen
  rw [hm] at hitems hseen
  exact ⟨s, hs, hm ▸ rfl, ⟨report, m', hrun, hitems, hseen⟩, reason, hrefused⟩

end EventRelay.Replay
