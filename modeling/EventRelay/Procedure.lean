/-!
# Procedures

A procedure is what one party does, call by call: it either is done with a result, or makes a call
and goes on with the answer. What a call means is left to a handler, so the same procedure runs on
stores of different kinds, with or without failures, and in any interleaving with other parties.
Every procedure makes finitely many calls whatever it is answered.
-/

namespace EventRelay

/-- Calls out of `κ`, each with its own type of answers, up to a result. -/
inductive Procedure (κ : Type) (answer : κ → Type) (α : Type) : Type where
  | done (result : α)
  | call (k : κ) (next : answer k → Procedure κ answer α)

namespace Procedure

variable {κ : Type} {answer : κ → Type} {α β σ : Type}

/-- Goes on with the result. -/
def andThen : Procedure κ answer α → (α → Procedure κ answer β) → Procedure κ answer β
  | done a, f => f a
  | call k next, f => call k fun r => andThen (next r) f

instance : Monad (Procedure κ answer) where
  pure := done
  bind := andThen

/-- Makes one call. -/
def ask (k : κ) : Procedure κ answer (answer k) := call k done

/-- Runs to the end without a break, each call answered by the handler. -/
def run (handler : (k : κ) → σ → answer k × σ) : Procedure κ answer α → σ → α × σ
  | done a, s => (a, s)
  | call k next, s =>
    let (r, s) := handler k s
    run handler (next r) s

/-- Makes one call, if one is left, and answers the procedure that remains. -/
def step (handler : (k : κ) → σ → answer k × σ) :
    Procedure κ answer α → σ → Procedure κ answer α × σ
  | done a, s => (done a, s)
  | call k next, s =>
    let (r, s) := handler k s
    (next r, s)

theorem run_andThen (handler : (k : κ) → σ → answer k × σ) (p : Procedure κ answer α)
    (f : α → Procedure κ answer β) (s : σ) :
    run handler (andThen p f) s =
      run handler (f (run handler p s).1) (run handler p s).2 := by
  induction p generalizing s with
  | done a => rfl
  | call k next ih => exact ih _ _

end Procedure

end EventRelay
