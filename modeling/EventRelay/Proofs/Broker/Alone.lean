import EventRelay.Proofs.Broker.Sound

/-!
# Work without a break

Work that is done alone is answered by the memory, call by call and without failures, each call at a
reading of its own. What is sound leads to a later world when it is done alone, and tasks done alone
one after the other lead to a system that can be reached.
-/

namespace EventRelay

/-- Readings for calls that are made one after the other. -/
abbrev Clock := Nat → Call.Reading

/-- The readings of a `Clock` after the first. -/
def Clock.tail (clock : Clock) : Clock := fun i => clock (i + 1)

/-- One reading and then those of a `Clock`. -/
def Clock.cons (r : Call.Reading) (clock : Clock) : Clock
  | 0 => r
  | i + 1 => clock i

variable {α β ε : Type} {r : Call.Reading} {m m' m'' : Memory} {a : α} {b : β}

/-- The result of the work, and the memory after it, where nobody else calls. -/
def Work.alone (clock : Clock) (p : Work α) (m : Memory) : α × Memory :=
  let (a, s) := p.run (fun c (s : Clock × Memory) =>
    let (a, m) := s.2.answer (s.1 0) c
    (a, s.1.tail, m)) (clock, m)
  (a, s.2)

/-- What the work is told where nobody else calls: the calls of `Work.alone` with their answers. -/
def Work.told (clock : Clock) : Work α → Memory → List Said
  | .done _, _ => []
  | .call c next, m =>
    let (a, m) := m.answer (clock 0) c
    ⟨c, a⟩ :: told clock.tail (next a) m

section

variable {registry : Registry} {p : Work α} {said : List Said} {Q : α → World registry → Prop}
  {w : World registry}

/-- Where nobody else calls, what is `Sound` leads to a later world, whoever gives the answers. -/
theorem Sound.run {σ : Type} {handler : (c : Call) → σ × Memory → c.Answer × σ × Memory}
    (h : Sound p said Q w)
    (hanswers : ∀ c s, Answers s.2 c (handler c s).1 (handler c s).2.2) (s : σ) :
    ∃ w', w ≤ w' ∧ w'.memory = (p.run handler (s, w.memory)).2.2 ∧
      Q (p.run handler (s, w.memory)).1 w' := by
  induction p generalizing said w s with
  | done a => exact ⟨w, le_rfl, rfl, h w le_rfl⟩
  | call c next ih =>
    obtain ⟨w₁, hle₁, hm₁, -, hnext⟩ := h w le_rfl _ _ (hanswers c (s, w.memory))
    obtain ⟨w₂, hle₂, hm₂, hQ⟩ := ih _ hnext (handler c (s, w.memory)).2.1
    rw [hm₁] at hm₂ hQ
    exact ⟨w₂, hle₁.trans hle₂, hm₂, hQ⟩

/-- `Sound.run` where the memory answers at the readings of a `Clock`. -/
theorem Sound.alone (h : Sound p said Q w) (clock : Clock) :
    ∃ w', w ≤ w' ∧ w'.memory = (Work.alone clock p w.memory).2 ∧
      Q (Work.alone clock p w.memory).1 w' :=
  h.run (fun c (s : Clock × Memory) => .given (s.1 0) c) clock

end

/-! ## Work that depends on the first reading only -/

/-- The work, done `Work.alone` with this as the first reading, has this result and leaves this
memory, whatever the readings after the first. -/
def Comes (r : Call.Reading) (p : Work α) (m : Memory) (a : α) (m' : Memory) : Prop :=
  ∀ clock : Clock, clock 0 = r → Work.alone clock p m = (a, m')

namespace Comes

theorem pure (a : α) : Comes r (Pure.pure a) m a m := fun _ _ => rfl

/-- `Comes` goes through a sequence. The second part may begin at any reading. -/
theorem bind {p : Work α} {f : α → Work β} (h : Comes r p m a m')
    (hf : ∀ r, Comes r (f a) m' b m'') : Comes r (p >>= f) m b m'' := by
  induction p generalizing r m with
  | done a' =>
    intro clock hr
    obtain ⟨rfl, rfl⟩ := Prod.mk.inj (h clock hr)
    exact hf r clock hr
  | call c next ih =>
    rintro clock rfl
    refine ih (m.answer (clock 0) c).1 (fun later _ => ?_) clock.tail rfl
    exact h (later.cons (clock 0)) rfl

theorem log (c : LogCall) : Comes r (Work.log c) m (Memory.answerLog m.log c).1
    { m with log := (Memory.answerLog m.log c).2 } := fun _ _ => rfl

/-- A `QueueCall` is the one kind that the reading counts for. -/
theorem queue (c : QueueCall Event) : Comes r (Work.queue c) m (Memory.answerQueue m.queue r c).1
    { m with queue := (Memory.answerQueue m.queue r c).2 } := by
  rintro clock rfl
  rfl

theorem progress (c : ProgressCall) : Comes r (Work.progress c) m
    (Memory.answerProgress m.progress c).1
    { m with progress := (Memory.answerProgress m.progress c).2 } := fun _ _ => rfl

theorem wake : Comes r Work.wake m () m := fun _ _ => rfl

theorem note (n : Notice) : Comes r (Work.note n) m () m := fun _ _ => rfl

end Comes

/-- The part does not fail, and `Comes` to this. -/
def Achieves (r : Call.Reading) (x : ExceptT ε (Procedure Call Call.Answer) α) (m : Memory) (a : α)
    (m' : Memory) : Prop :=
  Comes r x.run m (.ok a) m'

namespace Achieves

variable {x : ExceptT ε (Procedure Call Call.Answer) α}

theorem pure (a : α) :
    Achieves r (Pure.pure a : ExceptT ε (Procedure Call Call.Answer) α) m a m :=
  fun _ _ => rfl

/-- `Comes.bind` for a part that does not fail. -/
theorem bind {f : α → ExceptT ε (Procedure Call Call.Answer) β} (h : Achieves r x m a m')
    (hf : ∀ r, Achieves r (f a) m' b m'') : Achieves r (x >>= f) m b m'' :=
  Comes.bind h hf

end Achieves

/-! ## Tasks one after the other -/

namespace System

/-- The memory after a task that was done `Work.alone`. -/
def carryOut (registry : Registry) (m : Memory) (job : Task × Clock) : Memory :=
  (Work.alone job.2 (job.1.work registry) m).2

/-- The system after a new party did its task alone, told what `Work.told` has. -/
def carriedOut (registry : Registry) (s : System) (t : Task) (clock : Clock) : System :=
  let (outcome, m) := Work.alone clock (t.work registry) s.memory
  ⟨m, s.parties ++ [⟨t, .done outcome, Work.told clock (t.work registry) s.memory⟩]⟩

/-- The steps of one party, with nobody's in between, end where `Work.alone` does. -/
theorem leads_alone (registry : Registry) (before : List Party) (t : Task) (p : Work t.Outcome)
    (said : List Said) (m : Memory) (clock : Clock) :
    Leads registry ⟨m, before ++ [⟨t, p, said⟩]⟩ ⟨(Work.alone clock p m).2,
      before ++ [⟨t, .done (Work.alone clock p m).1, said ++ Work.told clock p m⟩]⟩ := by
  induction p generalizing said m clock with
  | done a =>
    rw [Work.told, List.append_nil]
    exact .refl
  | call c next ih =>
    have hrest := ih (m.answer (clock 0) c).1 (said ++ [⟨c, (m.answer (clock 0) c).1⟩])
      (m.answer (clock 0) c).2 clock.tail
    rw [List.append_assoc] at hrest
    exact .head (.call before next said [] (.given (clock 0) c)) hrest

/-- A new party comes and does its task to the end. -/
theorem leads_carriedOut (registry : Registry) (s : System) (t : Task) (clock : Clock) :
    Leads registry s (s.carriedOut registry t clock) :=
  .head (.start s t) (leads_alone registry s.parties t (t.work registry) [] s.memory clock)

/-- Tasks can be done alone, one after the other: the memory of the system goes through
`carryOut`. -/
theorem exists_leads_carryOut (registry : Registry) (jobs : List (Task × Clock)) (s : System) :
    ∃ s', Leads registry s s' ∧ s'.memory = jobs.foldl (carryOut registry) s.memory := by
  induction jobs generalizing s with
  | nil => exact ⟨s, .refl, rfl⟩
  | cons job rest ih =>
    obtain ⟨s', hs', hm⟩ := ih (s.carriedOut registry job.1 job.2)
    exact ⟨s', (leads_carriedOut registry s job.1 job.2).trans hs', hm⟩

end System

/-! ## A sample -/

namespace Sample

/-- One flow that wants every event. -/
def registry : Registry := ⟨[("mail", [⟨.any, .any, .any⟩])]⟩

/-- The event of a revision of one order. -/
def placed (revision : Nat) : Event :=
  Event.create (.ofNat revision) 5 ⟨"shop"⟩ ⟨"order", .ofNat 7⟩ "placed" .null revision

/-- A `Clock` that stands still at a second. -/
def clockAt (second : Nat) : Clock := fun _ => readingAt second

end Sample

end EventRelay
