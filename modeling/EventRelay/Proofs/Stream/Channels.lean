import EventRelay.Stream.Channel

/-!
# What goes through a channel

What is sent is accepted where there is room, and refused once the receiver is gone. What was
accepted is what was received and what the channel holds, until the receiver goes and the channel
loses it.
-/

namespace EventRelay.Channel

variable {β : Type} {c c' : Channel β} {b : β} {sent received : List β}

/-- Who sends now does not have to wait: less is held than `capacity`. -/
def HasRoom (c : Channel β) : Prop := c.held.length < c.capacity

instance (c : Channel β) : Decidable c.HasRoom := Nat.decLt _ _

/-- `send` into a channel that is closed is refused, and changes nothing. -/
theorem send_of_closed (h : c.closed = true) (b : β) : c.send b = (.refused, c) := if_pos h

/-- `send` into an open channel that `HasRoom` puts the message at the end. -/
theorem send_of_room (hopen : c.closed = false) (hroom : c.HasRoom) (b : β) :
    c.send b = (.accepted, { c with held := c.held ++ [b] }) := by
  unfold HasRoom at hroom
  rw [send, if_neg (Bool.eq_false_iff.1 hopen), if_pos hroom]

/-- `send` into an open channel without room changes nothing. -/
theorem send_of_full (hopen : c.closed = false) (hfull : ¬ c.HasRoom) (b : β) :
    c.send b = (.full, c) := by
  unfold HasRoom at hfull
  rw [send, if_neg (Bool.eq_false_iff.1 hopen), if_neg hfull]

theorem eq_of_take? (h : c.take? = some (b, c')) :
    ∃ rest, c.held = b :: rest ∧ c' = { c with held := rest } := by
  unfold take? at h
  split at h
  · cases h
  · next rest hheld =>
    obtain ⟨rfl, rfl⟩ := Prod.mk.inj (Option.some.inj h)
    exact ⟨rest, hheld, rfl⟩

theorem held_of_take? (h : c.take? = none) : c.held = [] := by
  unfold take? at h
  split at h
  · assumption
  · cases h

/-- What was sent is what was received and what the channel holds, until the receiver goes and the
channel loses it. -/
structure Delivers (c : Channel β) (sent received : List β) : Prop where
  held : c.closed = false → sent = received ++ c.held
  lost : c.closed = true → c.held = []
  first : received <+: sent

namespace Delivers

theorem take (h : Delivers c sent received) (htake : c.take? = some (b, c')) :
    Delivers c' sent (received ++ [b]) := by
  obtain ⟨rest, hheld, rfl⟩ := eq_of_take? htake
  have hopen : c.closed = false := by
    rw [Bool.eq_false_iff]
    intro hclosed
    rw [h.lost hclosed] at hheld
    cases hheld
  have hsent : sent = received ++ [b] ++ rest := by
    rw [h.held hopen, hheld, List.append_assoc, List.singleton_append]
  exact ⟨fun _ => hsent, fun hclosed => by simp [hopen] at hclosed, ⟨rest, hsent.symm⟩⟩

theorem close (h : Delivers c sent received) : Delivers c.close sent received :=
  ⟨nofun, fun _ => rfl, h.first⟩

/-- What is sent into an open channel that `Delivers` is delivered as well. -/
theorem send (h : Delivers c sent received) (hopen : c.closed = false) :
    Delivers { c with held := c.held ++ [b] } (sent ++ [b]) received where
  held _ := by rw [h.held hopen, List.append_assoc]
  lost hclosed := by simp [hopen] at hclosed
  first := h.first.trans (List.prefix_append _ _)

end Delivers

end EventRelay.Channel
