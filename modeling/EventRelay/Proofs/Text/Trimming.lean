import EventRelay.Text.Blank
import Mathlib.Data.List.TakeWhile

/-!
# What trimming leaves

Trimming leaves a text that is trimmed, and leaves a trimmed one as it is; so the trimmed texts are
just those that trimming can come to.
-/

namespace EventRelay.Text

variable {c : Char} {cs : List Char}

/-- Neither the first character nor the last is blank. -/
structure Trimmed (cs : List Char) : Prop where
  first : ∀ c ∈ cs.head?, isBlankChar c = false
  last : ∀ c ∈ cs.getLast?, isBlankChar c = false

theorem dropWhile_eq_self {p : Char → Bool} (h : ∀ c ∈ cs.head?, p c = false) :
    cs.dropWhile p = cs := by
  cases cs with
  | nil => rfl
  | cons c rest => exact List.dropWhile_cons_of_neg (by simp [h c rfl])

theorem not_of_mem_head?_dropWhile {p : Char → Bool} (h : c ∈ (cs.dropWhile p).head?) :
    p c = false := by
  have hhead := List.head?_dropWhile_not p cs
  rw [Option.mem_def.1 h] at hhead
  exact hhead

/-- `trimChars` leaves what is `Trimmed` as it is. -/
theorem Trimmed.trimChars_eq (h : Trimmed cs) : trimChars cs = cs := by
  rw [trimChars, dropWhile_eq_self h.first, dropWhile_eq_self, List.reverse_reverse]
  intro c hc
  exact h.last c (List.head?_reverse ▸ hc)

theorem trimChars_isInitial (cs : List Char) : trimChars cs <+: cs.dropWhile isBlankChar := by
  rw [trimChars, ← List.reverse_suffix, List.reverse_reverse]
  exact List.dropWhile_suffix _

/-- What `trimChars` leaves is `Trimmed`. -/
theorem trimmed_trimChars (cs : List Char) : Trimmed (trimChars cs) where
  first c hc := by
    obtain ⟨rest, hrest⟩ := trimChars_isInitial cs
    have hhead : c ∈ (cs.dropWhile isBlankChar).head? := by
      rw [← hrest, List.head?_append, Option.mem_def.1 hc]
      rfl
    exact not_of_mem_head?_dropWhile hhead
  last c hc := by
    rw [trimChars, List.getLast?_reverse] at hc
    exact not_of_mem_head?_dropWhile hc

/-- `trimChars` leaves nothing exactly if every character is blank. -/
theorem trimChars_eq_nil_iff : trimChars cs = [] ↔ cs.all isBlankChar = true := by
  rw [trimChars, List.reverse_eq_nil_iff, List.dropWhile_eq_nil_iff, List.all_eq_true]
  constructor
  · intro h
    cases hrest : cs.dropWhile isBlankChar with
    | nil => exact List.dropWhile_eq_nil_iff.1 hrest
    | cons c rest =>
      -- what is left begins with a character that is not blank
      have hblank : isBlankChar c = true := h c (by simp [hrest])
      have hfirst : isBlankChar c = false :=
        not_of_mem_head?_dropWhile (hrest ▸ rfl : c ∈ (cs.dropWhile isBlankChar).head?)
      exact absurd (hfirst.symm.trans hblank) nofun
  · intro h c hc
    exact h c ((List.dropWhile_sublist _).subset (List.mem_reverse.1 hc))

theorem mem_of_mem_trimChars (h : c ∈ trimChars cs) : c ∈ cs :=
  (List.dropWhile_sublist _).subset ((trimChars_isInitial cs).subset h)

end EventRelay.Text
