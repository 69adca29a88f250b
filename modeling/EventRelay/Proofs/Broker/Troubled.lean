import EventRelay.Proofs.Broker.Alone

/-!
# Work whose enqueueings may fail

Work that is done alone, as long as the enqueueings do not fail that are marked to. Which of them
fail is told by the lane and the event, so the same work is followed under each pattern of failures.
-/

namespace EventRelay

/-- Why `QueueCall.enqueue` fails for a lane and an event, if it does. -/
abbrev Faults := String → Event → Option String

variable {α β : Type} {faults : Faults} {m m' m'' : Memory} {a : α} {b : β}

/-- `Memory.answer`, unless the call is an enqueueing that fails. -/
def Faults.answer (faults : Faults) (m : Memory) (r : Call.Reading) :
    (c : Call) → c.Answer × Memory
  | .queue (.enqueue flow e priority) =>
    match faults flow e with
    | some reason => (.error (.storage reason), m)
    | none => m.answer r (.queue (.enqueue flow e priority))
  | c => m.answer r c

/-- A failing enqueueing is one of the things that `Answers` allows. -/
theorem Faults.answers (faults : Faults) (m : Memory) (r : Call.Reading) (c : Call) :
    Answers m c (faults.answer m r c).1 (faults.answer m r c).2 := by
  unfold Faults.answer
  split
  · next flow e priority =>
    cases faults flow e with
    | some reason => exact .failed flow e priority reason
    | none => exact .given r _
  · exact .given r c

/-- `Work.alone` with failures: the result of the work, and the memory after it, where nobody else
calls. -/
def Work.troubled (faults : Faults) (clock : Clock) (p : Work α) (m : Memory) : α × Memory :=
  let (a, s) := p.run (fun c (s : Clock × Memory) =>
    let (a, m) := faults.answer s.2 (s.1 0) c
    (a, s.1.tail, m)) (clock, m)
  (a, s.2)

theorem Faults.answer_none (m : Memory) (r : Call.Reading) (c : Call) :
    Faults.answer (fun _ _ => none) m r c = m.answer r c := by
  unfold Faults.answer
  split <;> rfl

/-- Without failures it is `Work.alone`. -/
theorem Work.troubled_none (clock : Clock) (p : Work α) (m : Memory) :
    Work.troubled (fun _ _ => none) clock p m = Work.alone clock p m := by
  simp only [Work.troubled, Work.alone, Faults.answer_none]

/-- `Sound.run` where the memory answers as `Faults.answer` has it. -/
theorem Sound.troubled {registry : Registry} {p : Work α} {said : List Said}
    {Q : α → World registry → Prop} {w : World registry} (h : Sound p said Q w) (faults : Faults)
    (clock : Clock) :
    ∃ w', w ≤ w' ∧ w'.memory = (Work.troubled faults clock p w.memory).2 ∧
      Q (Work.troubled faults clock p w.memory).1 w' :=
  h.run (fun c (s : Clock × Memory) => faults.answers s.2 (s.1 0) c) clock

/-- Under these failures the work has this result and leaves this memory, whatever the readings of
the `Clock`. -/
def Bears (faults : Faults) (p : Work α) (m : Memory) (a : α) (m' : Memory) : Prop :=
  ∀ clock : Clock, Work.troubled faults clock p m = (a, m')

namespace Bears

variable {p : Work α}

/-- Without failures what `Bears` says is what `Comes` says at each reading. -/
theorem comes {r : Call.Reading} (h : Bears (fun _ _ => none) p m a m') : Comes r p m a m' :=
  fun clock _ => (Work.troubled_none clock p m).symm.trans (h clock)

theorem pure (a : α) : Bears faults (Pure.pure a) m a m := fun _ => rfl

/-- `Bears` goes through a sequence, as the second part meets any clock. -/
theorem bind {f : α → Work β} (h : Bears faults p m a m')
    (hf : Bears faults (f a) m' b m'') : Bears faults (p >>= f) m b m'' := by
  induction p generalizing m with
  | done a' =>
    intro clock
    obtain ⟨rfl, rfl⟩ := Prod.mk.inj (h clock)
    exact hf clock
  | call c next ih =>
    intro clock
    refine ih (faults.answer m (clock 0) c).1 (fun later => ?_) clock.tail
    exact h (later.cons (clock 0))

theorem log (faults : Faults) (m : Memory) (c : LogCall) :
    Bears faults (Work.log c) m (Memory.answerLog m.log c).1
      { m with log := (Memory.answerLog m.log c).2 } := fun _ => rfl

theorem wake : Bears faults Work.wake m () m := fun _ => rfl

theorem note (n : Notice) : Bears faults (Work.note n) m () m := fun _ => rfl

variable {flow : String} {e : Event}

theorem queue_enqueue (h : faults flow e = none) (priority : Int) :
    Bears faults (Work.queue (.enqueue flow e priority)) m (m.queue.enqueue flow e priority).1
      { m with queue := (m.queue.enqueue flow e priority).2 } := by
  intro clock
  simp [Work.troubled, Work.queue, Procedure.run, Faults.answer, h, Memory.answer,
    Memory.answerQueue]

theorem queue_enqueue_failed {reason : String} (h : faults flow e = some reason) (priority : Int) :
    Bears faults (Work.queue (.enqueue flow e priority)) m (.error (.storage reason)) m := by
  intro clock
  simp [Work.troubled, Work.queue, Procedure.run, Faults.answer, h]

/-- `Dispatch.enqueue` where it does not fail, with the waking after it. -/
theorem enqueue (h : faults flow e = none) (priority : Int) :
    Bears faults (Dispatch.enqueue flow e priority) m (m.queue.enqueue flow e priority).1
      { m with queue := (m.queue.enqueue flow e priority).2 } := by
  refine (queue_enqueue h priority).bind ?_
  cases (m.queue.enqueue flow e priority).1 with
  | ok => exact wake.bind (.pure _)
  | error => exact .pure _

/-- `Dispatch.enqueue` where it fails: the memory is as it was. -/
theorem enqueue_failed {reason : String} (h : faults flow e = some reason) (priority : Int) :
    Bears faults (Dispatch.enqueue flow e priority) m (.error (.storage reason)) m :=
  (queue_enqueue_failed h priority).bind (.pure _)

end Bears

end EventRelay
