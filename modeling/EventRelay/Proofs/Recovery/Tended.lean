import EventRelay.Proofs.Recovery.Handled

/-!
# What a recovery looked after

After a recovery looked after a flow on an aggregate, nothing is to be done about them: every event
above the watermark is settled, unwanted or in the lane, and the first of them is in the lane. That
stays so while the recovery goes on, so looking after them once more changes nothing, and what was
half done when the recovery was cut off is found done by the next.
-/

namespace EventRelay

theorem Queue.hasKey_enqueue {q : Queue Event} {flow name key : String} {e : Event} {priority : Int}
    (h : (q.laneAt name).hasKey key = true) :
    ((q.enqueue flow e priority).2.laneAt name).hasKey key = true := by
  cases hk : (q.laneAt flow).hasKey (Keyed.key e) with
  | true => rwa [enqueue_of_hasKey priority hk]
  | false =>
    rw [enqueue_of_not_hasKey priority hk, laneAt_nextSequence, laneAt_setLane]
    split
    · next heq =>
      subst heq
      obtain ⟨x, hx, hkey⟩ := Lane.hasKey_iff.1 h
      exact Lane.hasKey_iff.2 ⟨x, List.mem_append_left _ hx, hkey⟩
    · exact h

theorem Queue.hasKey_enqueue_self (q : Queue Event) (flow : String) (e : Event) (priority : Int) :
    ((q.enqueue flow e priority).2.laneAt flow).hasKey (Keyed.key e) = true := by
  cases hk : (q.laneAt flow).hasKey (Keyed.key e) with
  | true => rwa [enqueue_of_hasKey priority hk]
  | false =>
    rw [enqueue_of_not_hasKey priority hk, laneAt_nextSequence, laneAt_setLane, if_pos rfl]
    exact Lane.hasKey_iff.2 ⟨_, List.mem_append_right _ List.mem_cons_self, rfl⟩

namespace Recovery

variable {registry : Registry} {flow : String} {a : Uuid} {p : Progress} {l : EventLog}
  {q : Queue Event} {e : Event} {es : List Event} {m m' : Memory} {pair : Uuid × String}
  {pairs : List (Uuid × String)}

/-! ## Looking at events once more -/

/-- Looking at the event changes no lane: it `isDone`, or its key is there. -/
def Looked (registry : Registry) (flow : String) (p : Progress) (q : Queue Event) (e : Event) :
    Prop :=
  isDone registry flow p e = true ∨ (q.laneAt flow).hasKey (Keyed.key e) = true

/-- An event that was `Looked` at is not filled in again. -/
theorem Looked.fill_eq (h : Looked registry flow p q e) : fill registry flow p q e = q := by
  unfold fill
  split
  · rfl
  · next hdone =>
    have hk := h.resolve_left hdone
    rw [Queue.enqueue_of_hasKey _ hk]

/-- `fill` takes no key from a lane. -/
theorem hasKey_fill {name key : String} (h : (q.laneAt name).hasKey key = true) :
    ((fill registry flow p q e).laneAt name).hasKey key = true := by
  unfold fill
  split
  · exact h
  · exact Queue.hasKey_enqueue h

theorem hasKey_foldl_fill {name key : String} (h : (q.laneAt name).hasKey key = true) :
    ((es.foldl (fill registry flow p) q).laneAt name).hasKey key = true := by
  induction es generalizing q with
  | nil => exact h
  | cons e rest ih => exact ih (hasKey_fill h)

/-- After `fill` the event is `Looked` at. -/
theorem looked_fill (q : Queue Event) (e : Event) :
    Looked registry flow p (fill registry flow p q e) e := by
  unfold fill
  split
  · next hdone => exact .inl hdone
  · exact .inr (Queue.hasKey_enqueue_self q flow e _)

theorem Looked.foldl_fill (h : Looked registry flow p q e) (es : List Event) :
    Looked registry flow p (es.foldl (fill registry flow p) q) e :=
  h.imp_right hasKey_foldl_fill

/-- After events were filled in, each is `Looked` at. By induction on the events. -/
theorem looked_foldl_fill (es : List Event) (q : Queue Event) :
    ∀ e ∈ es, Looked registry flow p (es.foldl (fill registry flow p) q) e := by
  induction es generalizing q with
  | nil =>
    intro e he
    cases he
  | cons first rest ih =>
    intro e he
    rcases List.mem_cons.1 he with rfl | he
    · exact (looked_fill q e).foldl_fill rest
    · exact ih _ e he

theorem foldl_fill_eq (h : ∀ e ∈ es, Looked registry flow p q e) :
    es.foldl (fill registry flow p) q = q := by
  induction es with
  | nil => rfl
  | cons e rest ih =>
    rw [List.foldl_cons, (h e List.mem_cons_self).fill_eq]
    exact ih fun e he => h e (List.mem_cons_of_mem _ he)

/-- Filling in some first events before filling in all of them makes no difference. -/
theorem foldl_fill_of_first (registry : Registry) (flow : String) (p : Progress) {es' : List Event}
    (h : es' <+: es) (q : Queue Event) :
    es.foldl (fill registry flow p) (es'.foldl (fill registry flow p) q) =
      es.foldl (fill registry flow p) q := by
  obtain ⟨rest, rfl⟩ := h
  rw [List.foldl_append, List.foldl_append, foldl_fill_eq (looked_foldl_fill es' q)]

/-! ## What tending comes to -/

/-- The events of an aggregate above the watermark of a flow. -/
def above (m : Memory) (a : Uuid) (flow : String) : List Event :=
  (m.log.streamOf a).drop (m.progress.get flow a).watermark

theorem between_latest (l : EventLog) (a : Uuid) (n : Nat) :
    between l a n (l.latest a) = (l.streamOf a).drop n := by
  unfold between EventLog.latest
  rw [List.take_length]

theorem getElem?_above (m : Memory) (a : Uuid) (flow : String) (i : Nat) :
    (above m a flow)[i]? = (m.log.streamOf a)[(m.progress.get flow a).watermark + i]? :=
  List.getElem?_drop

/-- The number of events right above the watermark that `isDone` holds of. -/
def leading (registry : Registry) (m : Memory) (a : Uuid) (flow : String) : Nat :=
  ((above m a flow).takeWhile (isDone registry flow (m.progress.get flow a))).length

/-- Behind an event that was not done, `look` does not move the end of the settled part. -/
theorem foldl_look_of_not_contiguous (es : List Event) (s : Queue Event × Walk)
    (hc : s.2.contiguous = false) :
    (es.foldl (look registry flow p) s).2.settledUpTo = s.2.settledUpTo := by
  induction es generalizing s with
  | nil => rfl
  | cons e rest ih =>
    have hstep : (look registry flow p s e).2.contiguous = false ∧
        (look registry flow p s e).2.settledUpTo = s.2.settledUpTo := by
      unfold look
      split
      · simp [hc]
      · split
        · exact ⟨rfl, rfl⟩
        · exact ⟨rfl, rfl⟩
    rw [List.foldl_cons, ih _ hstep.1, hstep.2]

/-- `look` moves the end of the settled part as far as events are done. By induction on the
events. -/
theorem foldl_look_settledUpTo (registry : Registry) (flow : String) (p : Progress)
    (es : List Event) (q : Queue Event) (w : Walk) (hc : w.contiguous = true)
    (hrev : ∀ i e, es[i]? = some e → e.revision = w.settledUpTo + i + 1) :
    (es.foldl (look registry flow p) (q, w)).2.settledUpTo =
      w.settledUpTo + (es.takeWhile (isDone registry flow p)).length := by
  induction es generalizing q w with
  | nil => rfl
  | cons e rest ih =>
    have hfirst : e.revision = w.settledUpTo + 0 + 1 := hrev 0 e rfl
    rw [List.foldl_cons]
    by_cases hdone : isDone registry flow p e = true
    · have hlook : look registry flow p (q, w) e = (q, { w with settledUpTo := e.revision }) := by
        simp [look, hdone, hc]
      have hrest : ∀ i x, rest[i]? = some x → x.revision = e.revision + i + 1 := by
        intro i x hx
        have hlater := hrev (i + 1) x hx
        omega
      have hend := ih q { w with settledUpTo := e.revision } hc hrest
      rw [hlook, hend, List.takeWhile_cons_of_pos hdone, List.length_cons]
      simp only
      omega
    · have hstep : (look registry flow p (q, w) e).2.contiguous = false ∧
          (look registry flow p (q, w) e).2.settledUpTo = w.settledUpTo := by
        unfold look
        rw [if_neg hdone]
        split
        · exact ⟨rfl, rfl⟩
        · exact ⟨rfl, rfl⟩
      rw [foldl_look_of_not_contiguous rest _ hstep.1, hstep.2,
        List.takeWhile_cons_of_neg hdone]
      rfl

/-- What `tend` does: it fills the lane from `above`, and moves the watermark over what is
`leading`. -/
theorem tend_eq (hn : m.log.Numbered) (a : Uuid) (flow : String) :
    tend registry m (a, flow) = { m with
      queue := (above m a flow).foldl (fill registry flow (m.progress.get flow a)) m.queue
      progress :=
        if 0 < leading registry m a flow then m.progress.advance flow a
          ((m.progress.get flow a).watermark + leading registry m a flow)
        else m.progress } := by
  unfold tend onFlow
  simp only
  split
  · next hle =>
    have hnil : above m a flow = [] := List.drop_eq_nil_iff.2 hle
    simp [leading, hnil]
  · have hrev : ∀ i e, (above m a flow)[i]? = some e →
        e.revision = (m.progress.get flow a).watermark + i + 1 := by
      intro i e he
      rw [getElem?_above] at he
      exact hn a _ e he
    have hwalk := foldl_look_settledUpTo registry flow (m.progress.get flow a)
      (above m a flow) m.queue
      { settledUpTo := (m.progress.get flow a).watermark, report := {} } rfl hrev
    rw [between_latest]
    change _ = _ + leading registry m a flow at hwalk
    unfold above at hwalk ⊢
    simp only [hwalk, foldl_look_fst, Nat.lt_add_right_iff_pos]

/-- Nothing is to be done for a flow about the events of an aggregate: each is `Looked` at, and none
is `leading`. -/
structure Tended (registry : Registry) (m : Memory) (a : Uuid) (flow : String) : Prop where
  looked : ∀ e ∈ above m a flow, Looked registry flow (m.progress.get flow a) m.queue e
  leading : leading registry m a flow = 0

/-- Where a pair is `Tended` `tend` changes nothing. -/
theorem Tended.tend_eq (h : Tended registry m a flow) (hn : m.log.Numbered) :
    tend registry m (a, flow) = m := by
  rw [Recovery.tend_eq hn, foldl_fill_eq h.looked, h.leading]
  rfl

theorem isDone_of_getElem?_takeWhile {f : Event → Bool}
    (h : es[(es.takeWhile f).length]? = some e) : f e = false := by
  induction es with
  | nil => cases h
  | cons first rest ih =>
    by_cases hf : f first = true
    · rw [List.takeWhile_cons_of_pos hf, List.length_cons, List.getElem?_cons_succ] at h
      exact ih h
    · rw [List.takeWhile_cons_of_neg hf] at h
      obtain rfl := Option.some.inj h
      exact Bool.eq_false_iff.2 hf

/-- What `isDone` stays so when more is settled. -/
theorem isDone_mono {p' : Progress} (hp : ∀ r, p.isSettled r = true → p'.isSettled r = true)
    (h : isDone registry flow p e = true) : isDone registry flow p' e = true := by
  unfold isDone at h ⊢
  rw [Bool.or_eq_true] at h ⊢
  exact h.imp_right (hp _)

/-- The watermark of the pair goes up over what is `leading`, if anything is. -/
theorem get_tend (hn : m.log.Numbered) (a : Uuid) (flow : String) :
    (tend registry m (a, flow)).progress.get flow a =
      if 0 < leading registry m a flow then (m.progress.get flow a).advanceTo
        ((m.progress.get flow a).watermark + leading registry m a flow)
      else m.progress.get flow a := by
  rw [tend_eq hn]
  simp only
  split
  · rw [ProgressTable.get_advance, if_pos ⟨rfl, rfl⟩]
  · rfl

theorem isSettled_get_tend (hn : m.log.Numbered) {a : Uuid} {flow : String} {r : Nat} :
    ((tend registry m (a, flow)).progress.get flow a).isSettled r = true ↔
      (m.progress.get flow a).isSettled r = true ∨
        r ≤ (m.progress.get flow a).watermark + leading registry m a flow := by
  rw [get_tend hn]
  split
  · exact Progress.isSettled_advanceTo
  · next hzero =>
    rw [Nat.eq_zero_of_not_pos hzero, Nat.add_zero]
    refine ⟨.inl, fun h => h.elim id fun hle => ?_⟩
    exact Progress.isSettled_iff.2 (.inl hle)

theorem le_watermark_get_tend (registry : Registry) (hn : m.log.Numbered) (a : Uuid)
    (flow : String) :
    (m.progress.get flow a).watermark + leading registry m a flow ≤
      ((tend registry m (a, flow)).progress.get flow a).watermark := by
  rw [get_tend hn]
  split
  · exact Progress.le_watermark_advanceTo _ _
  · omega

/-- After `tend` the event right above the watermark is not done, if there is one. -/
theorem leading_tend (hn : m.log.Numbered) (a : Uuid) (flow : String) :
    leading registry (tend registry m (a, flow)) a flow = 0 := by
  cases habove : above (tend registry m (a, flow)) a flow with
  | nil => simp [leading, habove]
  | cons e rest =>
    have he : (above (tend registry m (a, flow)) a flow)[0]? = some e := by
      rw [habove]
      rfl
    rw [getElem?_above, tend_log, Nat.add_zero] at he
    have hlt := (List.getElem?_eq_some_iff.1 he).1
    have hle := le_watermark_get_tend registry hn a flow
    -- the event at which the walk stopped
    obtain ⟨f, hf⟩ : ∃ f, (above m a flow)[leading registry m a flow]? = some f := by
      rw [getElem?_above]
      exact ⟨_, List.getElem?_eq_getElem (by omega)⟩
    have hstop : isDone registry flow (m.progress.get flow a) f = false :=
      isDone_of_getElem?_takeWhile hf
    rw [getElem?_above] at hf
    have hrev := hn a _ f hf
    have hunsettled : ((tend registry m (a, flow)).progress.get flow a).isSettled f.revision =
        false := by
      rw [Bool.eq_false_iff]
      intro hset
      rcases (isSettled_get_tend hn).1 hset with hset | hle
      · simp [isDone, hset] at hstop
      · omega
    -- so the watermark went up to right below it
    have hwatermark : ((tend registry m (a, flow)).progress.get flow a).watermark =
        (m.progress.get flow a).watermark + leading registry m a flow := by
      apply Nat.le_antisymm _ hle
      by_contra hlt
      have hset := Progress.isSettled_iff.2
        (.inl
          (show f.revision ≤ ((tend registry m (a, flow)).progress.get flow a).watermark by omega))
      rw [hunsettled] at hset
      cases hset
    rw [hwatermark, hf] at he
    obtain rfl := Option.some.inj he
    have hroute : registry.routesTo f flow = true := by
      rw [isDone, Bool.or_eq_false_iff] at hstop
      simpa using hstop.1
    simp [leading, habove, isDone, hroute, hunsettled]

/-- After `tend` the pair is `Tended`. -/
theorem tended_tend (hn : m.log.Numbered) (a : Uuid) (flow : String) :
    Tended registry (tend registry m (a, flow)) a flow where
  leading := leading_tend hn a flow
  looked := by
    intro e he
    have hold : e ∈ above m a flow := by
      have hle := le_watermark_get_tend registry hn a flow
      unfold above at he ⊢
      rw [tend_log] at he
      exact (List.drop_sublist_drop_left _ (Nat.le_of_add_right_le hle)).subset he
    rcases looked_foldl_fill (above m a flow) m.queue e hold with hdone | hk
    · left
      exact isDone_mono (fun r hr => (isSettled_get_tend hn).2 (.inl hr)) hdone
    · right
      rw [tend_eq hn]
      exact hk

/-! ## While the recovery goes on -/

/-- A pair stays `Tended` while progress and log stay as they are, and no key goes from a lane. -/
theorem Tended.stays (h : Tended registry m a flow) (hlog : m'.log = m.log)
    (hget : m'.progress.get flow a = m.progress.get flow a)
    (hkeys : ∀ name key, (m.queue.laneAt name).hasKey key = true →
      (m'.queue.laneAt name).hasKey key = true) : Tended registry m' a flow := by
  have habove : above m' a flow = above m a flow := by
    unfold above
    rw [hlog, hget]
  constructor
  · intro e he
    rw [habove] at he
    rw [hget]
    exact (h.looked e he).imp_right (hkeys flow _)
  · unfold Recovery.leading
    rw [habove, hget]
    exact h.leading

/-- A pair that is `Tended` stays so when another is looked after. -/
theorem Tended.tend (h : Tended registry m a flow) (hn : m.log.Numbered)
    (pair : Uuid × String) : Tended registry (tend registry m pair) a flow := by
  obtain ⟨b, other⟩ := pair
  by_cases heq : other = flow ∧ b = a
  · obtain ⟨rfl, rfl⟩ := heq
    rwa [h.tend_eq hn]
  · apply h.stays (tend_log m _)
    · rw [Recovery.tend_eq hn]
      simp only
      split
      · rw [ProgressTable.get_advance, if_neg fun hkey => heq ⟨hkey.1.symm, hkey.2.symm⟩]
      · rfl
    · intro name key hk
      rw [Recovery.tend_eq hn]
      exact hasKey_foldl_fill hk

/-- A pair that is `Tended` stays so wherever a recovery goes through. -/
theorem Tended.met (h : Tended registry m a flow) (hn : m.log.Numbered)
    (hmet : Met registry pairs m m') : Tended registry m' a flow := by
  induction hmet with
  | here => exact h
  | filling => exact h.stays rfl rfl fun _ _ hk => hasKey_foldl_fill hk
  | later _ ih =>
    apply ih (h.tend hn _)
    rwa [tend_log]

/-- All pairs are `Tended` in the end. By induction on the pairs, the first of which stays so. -/
theorem tended_foldl_tend (hn : m.log.Numbered) :
    ∀ pair ∈ pairs, Tended registry (pairs.foldl (tend registry) m) pair.1 pair.2 := by
  induction pairs generalizing m with
  | nil =>
    intro pair hpair
    cases hpair
  | cons first rest ih =>
    have hn' : (tend registry m first).log.Numbered := by rwa [tend_log]
    intro pair hpair
    rcases List.mem_cons.1 hpair with rfl | hpair
    · exact (tended_tend hn pair.1 pair.2).met hn' (.last _ _)
    · exact ih hn' pair hpair

/-- Filling in some first events before `tend` makes no difference. -/
theorem tend_of_filling (hn : m.log.Numbered) (hes : es <+: above m a flow) :
    tend registry { m with
      queue := es.foldl (fill registry flow (m.progress.get flow a)) m.queue } (a, flow) =
        tend registry m (a, flow) := by
  have hn' : ({ m with
      queue := es.foldl (fill registry flow (m.progress.get flow a)) m.queue } :
        Memory).log.Numbered := hn
  rw [tend_eq hn', tend_eq hn]
  have hqueue := foldl_fill_of_first registry flow (m.progress.get flow a) hes m.queue
  exact congrArg (fun q => ({ m with queue := q, progress := _ } : Memory)) hqueue

theorem Met.log (h : Met registry pairs m m') : m'.log = m.log := by
  induction h with
  | here => rfl
  | filling => rfl
  | later _ ih => rw [ih, tend_log]

/-- From whatever is `Met` by a recovery, looking after all pairs comes to the same. -/
theorem Met.foldl_tend (h : Met registry pairs m m') (hn : m.log.Numbered) :
    pairs.foldl (tend registry) m' = pairs.foldl (tend registry) m := by
  induction h with
  | here => rfl
  | filling pairs hes =>
    rw [between_latest] at hes
    rw [List.foldl_cons, tend_of_filling hn hes, List.foldl_cons]
  | @later pair pairs m m' hmet ih =>
    have hn' : (tend registry m pair).log.Numbered := by rwa [tend_log]
    have htended := (tended_tend hn pair.1 pair.2).met hn' hmet
    have hn'' : m'.log.Numbered := by rwa [hmet.log]
    rw [List.foldl_cons, htended.tend_eq hn'', ih hn', List.foldl_cons]

end Recovery

end EventRelay
