import EventRelay.Stream.Ticker

/-!
# Tickers that can be set

While a ticker can be set (`Ticker.Settable`) its ticks can be taken, however late. To take one, in
time or not, leaves the interval as it is.
-/

namespace EventRelay.Ticker

variable {t : Ticker} {interval now later : Nat}

/-- A ticker that is `Settable` is so at earlier instants. -/
theorem Settable.mono (h : Settable interval later) (hle : now ≤ later) : Settable interval now :=
  ⟨h.1, Nat.le_trans (Nat.add_le_add_right hle interval) h.2⟩

/-- A ticker that is `Settable` can be started. -/
theorem canStart_of_settable (h : Settable t.interval now) : t.canStart now = true :=
  decide_eq_true h

/-- Where the ticker is `Settable` a tick can be taken, however late. -/
theorem canTake_of_settable (h : Settable t.interval now) : t.canTake now = true := by
  rw [canTake, canStart_of_settable h, Bool.or_true]

/-- A tick `canTake` when it is `due`, even if the ticker could not be set then. -/
theorem canTake_due (t : Ticker) : t.canTake t.due = true := by
  simp [canTake]

theorem interval_take (t : Ticker) (now : Nat) : (t.take now).interval = t.interval := by
  unfold take
  split <;> rfl

/-- A tick that is taken when it is `due` is followed by one an interval later. -/
theorem take_due (t : Ticker) : t.take t.due = ⟨t.interval, t.due + t.interval⟩ :=
  if_neg (by omega)

end EventRelay.Ticker
