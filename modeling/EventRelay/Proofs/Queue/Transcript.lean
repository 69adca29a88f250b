import EventRelay.Proofs.Queue.Operations

/-!
# Transcripts of a queue

What is said between a queue and those who call it, call by call. Nothing is asked of the callers:
they present whatever tokens they like, and the readings of the clock may stand still or go back.
-/

namespace EventRelay

/-- A `QueueCall` with the readings it took and what it was answered. -/
structure Exchange (τ : Type) where
  reading : Call.Reading
  call : QueueCall τ
  answer : call.Answer

/-- The readings at a second, with a token of its own and a lease of ten seconds. -/
def Sample.readingAt (second : Nat) : Call.Reading :=
  ⟨⟨second, 0⟩, .ofNat second, .ofMillis 10000⟩

/-- What was asked, without the answer. -/
def Exchange.request {τ : Type} (x : Exchange τ) : Call.Reading × QueueCall τ :=
  (x.reading, x.call)

/-- The same call with the same answer, but for the order among the leases that a sweep takes off.
The lanes are kept in a map without an order of its own, so a sweep may answer in any. -/
inductive Exchange.Agrees {τ : Type} : Exchange τ → Exchange τ → Prop
  | refl (x : Exchange τ) : Agrees x x
  | swept {r : Call.Reading} {xs ys : List Lease} : xs.Perm ys →
      Agrees ⟨r, .sweep, .ok xs⟩ ⟨r, .sweep, .ok ys⟩

theorem Exchange.Agrees.request_eq {τ : Type} {x y : Exchange τ} (h : x.Agrees y) :
    x.request = y.request := by
  cases h <;> rfl

namespace Queue

variable {τ : Type} [Keyed τ]

/-- The queue after calls that are made one after the other, by `Memory.answerQueue`. -/
def after (q : Queue τ) : List (Call.Reading × QueueCall τ) → Queue τ
  | [] => q
  | (r, c) :: rest => after (Memory.answerQueue q r c).2 rest

/-- The calls with what `Memory.answerQueue` answers. -/
def transcript (q : Queue τ) : List (Call.Reading × QueueCall τ) → List (Exchange τ)
  | [] => []
  | (r, c) :: rest =>
    ⟨r, c, (Memory.answerQueue q r c).1⟩ :: transcript (Memory.answerQueue q r c).2 rest

@[simp] theorem transcript_map_request (q : Queue τ) (calls : List (Call.Reading × QueueCall τ)) :
    (q.transcript calls).map Exchange.request = calls := by
  induction calls generalizing q with
  | nil => rfl
  | cons call rest ih => simp [transcript, Exchange.request, ih]

/-- Any calls keep a queue `WF`. -/
theorem WF.after {q : Queue τ} (h : q.WF) (calls : List (Call.Reading × QueueCall τ)) :
    (q.after calls).WF := by
  induction calls generalizing q with
  | nil => exact h
  | cons call rest ih => exact ih (h.answer call.1 call.2)

/-- A `transcript` cut in two: what follows is said by the queue that the first part leaves. -/
theorem transcript_eq_append {q : Queue τ} {calls : List (Call.Reading × QueueCall τ)}
    {before later : List (Exchange τ)} (h : q.transcript calls = before ++ later) :
    before = q.transcript (before.map Exchange.request) ∧
      later = (q.after (before.map Exchange.request)).transcript (later.map Exchange.request) := by
  induction before generalizing q calls with
  | nil =>
    have hc := congrArg (List.map Exchange.request) h
    rw [transcript_map_request] at hc
    exact ⟨rfl, hc ▸ h.symm⟩
  | cons x before ih =>
    cases calls with
    | nil => simp [transcript] at h
    | cons call rest =>
      simp only [transcript, List.cons_append, List.cons.injEq] at h
      obtain ⟨rfl, h⟩ := h
      obtain ⟨h1, h2⟩ := ih h
      exact ⟨congrArg _ h1, h2⟩

end Queue

end EventRelay
