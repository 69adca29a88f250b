import EventRelay.Proofs.Broker.Alone

/-!
# Work that is cut off

Work that is done alone may end between any two of its calls, and its calls on the queue may fail.
What holds of the memory wherever that happens is shown along the work, part by part, together with
what the work comes to if neither happens.
-/

namespace EventRelay

variable {α β ε : Type} {I : Memory → Prop} {clock : Clock} {r : Call.Reading}
  {m m' m'' : Memory} {a : α} {b : β}

/-- What a `QueueCall` that fails is answered. -/
def QueueCall.failed {τ : Type} (reason : String) : (c : QueueCall τ) → c.Answer
  | .enqueue .. | .lease | .renew _ | .release _ | .acknowledge _ | .defer .. | .sweep
  | .isQueued .. => .error (.storage reason)

/-- What may be answered to a call at a reading, and the memory after it. A call on the queue that
fails leaves everything as it was. -/
inductive Replies (r : Call.Reading) (m : Memory) : (c : Call) → c.Answer → Memory → Prop
  | given (c : Call) : Replies r m c (m.answer r c).1 (m.answer r c).2
  | failed (c : QueueCall Event) (reason : String) : Replies r m (.queue c) (c.failed reason) m

/-- A failure leaves the queue as it was, and every operation keeps `Queue.WF`. -/
theorem Replies.wf {c : Call} {reply : c.Answer} (h : Replies r m c reply m')
    (hq : m.queue.WF) : m'.queue.WF := by
  cases h with
  | given =>
    cases c with
    | queue c' => exact hq.answer r c'
    | log | progress | wake | note => exact hq
  | failed => exact hq

/-- Work on the first memory, done alone, was cut off and left the second: before its first call, or
after some. -/
inductive CutOff : Clock → Work α → Memory → Memory → Prop
  | here (clock : Clock) (p : Work α) (m : Memory) : CutOff clock p m m
  | call {clock : Clock} {c : Call} {next : c.Answer → Work α} {reply : c.Answer}
      {m m' m'' : Memory} : Replies (clock 0) m c reply m' → CutOff clock.tail (next reply) m' m'' →
      CutOff clock (.call c next) m m''

/-- The memory after some first calls of the work, or after all of them. -/
def Work.after : Nat → Clock → Work α → Memory → Memory
  | n + 1, clock, .call c next, m =>
    after n clock.tail (next (m.answer (clock 0) c).1) (m.answer (clock 0) c).2
  | _, _, _, m => m

/-- `Work.after` any number of calls is a place to be `CutOff` at. -/
theorem cutOff_after (n : Nat) (clock : Clock) (p : Work α) (m : Memory) :
    CutOff clock p m (p.after n clock m) := by
  induction n generalizing clock p m with
  | zero => exact .here clock p m
  | succ n ih =>
    cases p with
    | done a => exact .here clock (.done a) m
    | call c next => exact .call (.given c) (ih _ _ _)

/-- Wherever the work is cut off the memory satisfies `I`, and its outcome is as `Q` says. -/
def Keeps (I : Memory → Prop) (Q : α → Memory → Prop) : Work α → Call.Reading → Memory → Prop
  | .done a, _, m => I m ∧ Q a m
  | .call c next, r, m => I m ∧ ∀ reply m', Replies r m c reply m' →
      ∀ r', Keeps I Q (next reply) r' m'

namespace Keeps

variable {Q : α → Memory → Prop} {Q' : β → Memory → Prop} {p : Work α}

theorem here (h : Keeps I Q p r m) : I m := by
  cases p with
  | done => exact h.1
  | call => exact h.1

/-- `Keeps` is about each `CutOff`. -/
theorem cutOff (h : Keeps I Q p (clock 0) m) (hcut : CutOff clock p m m') : I m' := by
  induction hcut with
  | here => exact h.here
  | call hreply _ ih => exact ih (h.2 _ _ hreply _)

/-- `Keeps` goes through a sequence: the second part begins in a memory with `I`. -/
theorem bind {f : α → Work β} (h : Keeps I Q p r m)
    (hf : ∀ a m', I m' → Q a m' → ∀ r', Keeps I Q' (f a) r' m') : Keeps I Q' (p >>= f) r m := by
  induction p generalizing r m with
  | done a => exact hf a m h.1 h.2 r
  | call c next ih =>
    refine ⟨h.1, fun reply m' hreply r' => ?_⟩
    exact ih reply (h.2 reply m' hreply r')

/-- `Keeps` of a call that cannot fail. -/
theorem ask {c : Call} (hc : ∀ c', c ≠ .queue c') (hm : I m)
    (hm' : I (m.answer r c).2) :
    Keeps I (fun reply m' => reply = (m.answer r c).1 ∧ m' = (m.answer r c).2) (.call c .done)
      r m := by
  refine ⟨hm, fun reply m' hreply r' => ?_⟩
  cases hreply with
  | given => exact ⟨hm', rfl, rfl⟩
  | failed c' => exact absurd rfl (hc c')

end Keeps

/-- The work `Comes` to this, and wherever it is cut off the memory satisfies `I`. -/
structure Passes (I : Memory → Prop) (r : Call.Reading) (p : Work α) (m : Memory) (a : α)
    (m' : Memory) : Prop where
  comes : Comes r p m a m'
  keeps : Keeps I (fun b m'' => b = a ∧ m'' = m') p r m

namespace Passes

theorem pure (a : α) (hm : I m) : Passes I r (Pure.pure a) m a m := ⟨.pure a, hm, rfl, rfl⟩

/-- `Passes` goes through a sequence. -/
theorem bind {p : Work α} {f : α → Work β} (h : Passes I r p m a m')
    (hf : ∀ r, Passes I r (f a) m' b m'') : Passes I r (p >>= f) m b m'' where
  comes := h.comes.bind fun r => (hf r).comes
  keeps := by
    apply h.keeps.bind
    rintro _ _ - ⟨rfl, rfl⟩ r'
    exact (hf r').keeps

theorem log (c : LogCall) (hm : I m)
    (hm' : I { m with log := (Memory.answerLog m.log c).2 }) :
    Passes I r (Work.log c) m (Memory.answerLog m.log c).1
      { m with log := (Memory.answerLog m.log c).2 } :=
  ⟨.log c, .ask (fun _ h => by cases h) hm hm'⟩

theorem progress (c : ProgressCall) (hm : I m)
    (hm' : I { m with progress := (Memory.answerProgress m.progress c).2 }) :
    Passes I r (Work.progress c) m (Memory.answerProgress m.progress c).1
      { m with progress := (Memory.answerProgress m.progress c).2 } :=
  ⟨.progress c, .ask (fun _ h => by cases h) hm hm'⟩

theorem wake (hm : I m) : Passes I r Work.wake m () m :=
  ⟨.wake, .ask (fun _ h => by cases h) hm hm⟩

theorem note (n : Notice) (hm : I m) : Passes I r (Work.note n) m () m :=
  ⟨.note n, .ask (fun _ h => by cases h) hm hm⟩

end Passes

/-- Without a failure the part `Achieves` this, it succeeds in no other way, and wherever it is cut
off the memory satisfies `I`. -/
structure Succeeds (I : Memory → Prop) (r : Call.Reading)
    (x : ExceptT ε (Procedure Call Call.Answer) α) (m : Memory) (a : α) (m' : Memory) : Prop where
  achieves : Achieves r x m a m'
  keeps : Keeps I (fun out m'' => ∀ b, out = .ok b → b = a ∧ m'' = m') x.run r m

namespace Succeeds

variable {x : ExceptT ε (Procedure Call Call.Answer) α}

theorem pure (a : α) (hm : I m) :
    Succeeds I r (Pure.pure a : ExceptT ε (Procedure Call Call.Answer) α) m a m where
  achieves := .pure a
  keeps := by
    refine ⟨hm, fun b hb => ?_⟩
    exact ⟨(Except.ok.inj hb).symm, rfl⟩

/-- `Succeeds` goes through a sequence; a first part that fails ends the whole in a failure. -/
theorem bind {f : α → ExceptT ε (Procedure Call Call.Answer) β} (h : Succeeds I r x m a m')
    (hf : ∀ r, Succeeds I r (f a) m' b m'') : Succeeds I r (x >>= f) m b m'' where
  achieves := h.achieves.bind fun r => (hf r).achieves
  keeps := by
    apply h.keeps.bind
    intro out m₁ hI hout r'
    cases out with
    | ok a' =>
      obtain ⟨rfl, rfl⟩ := hout a' rfl
      exact (hf r').keeps
    | error e =>
      refine ⟨hI, fun b hb => ?_⟩
      cases hb

end Succeeds

end EventRelay
