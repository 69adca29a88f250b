import EventRelay.Text.Numeral

/-!
# Which texts are numerals

A text is read as a number exactly if it is the numeral of one and the number is in range. Digits
are read from the left and refused once they are over the limit; since digits only ever make a
number larger, that loses none that is in range.
-/

namespace EventRelay.Text

variable {s : String} {cs : List Char} {limit value n : Nat} {excess : NumeralError}

/-- An optional `+`, and then one or more ASCII digits of this value, zeros in front included. -/
def Numeral (s : String) (n : Nat) : Prop :=
  ∃ digits, (s.toList = digits ∨ s.toList = '+' :: digits) ∧ digits ≠ [] ∧
    (∀ c ∈ digits, c.isDigit = true) ∧ n = Nat.ofDigitChars 10 digits 0

/-! ## Digits -/

theorem digitValue?_eq (c : Char) :
    digitValue? c = if c.isDigit = true then some (c.toNat - '0'.toNat) else none := by
  have hiff : ('0' ≤ c ∧ c ≤ '9') ↔ c.isDigit = true := by
    rw [Char.isDigit, Bool.and_eq_true, decide_eq_true_iff, decide_eq_true_iff]
    rfl
  unfold digitValue?
  simp only [hiff]

theorem le_ofDigitChars (cs : List Char) (value : Nat) : value ≤ Nat.ofDigitChars 10 cs value := by
  induction cs generalizing value with
  | nil => exact Nat.le_refl value
  | cons c rest ih =>
    rw [Nat.ofDigitChars_cons]
    exact Nat.le_trans (by omega) (ih _)

/-- `readDigits` takes digits, all of them, as long as their value is in range. By induction on the
characters. -/
theorem readDigits_eq_ok_iff (h : value ≤ limit) : readDigits limit excess value cs = .ok n ↔
    (∀ c ∈ cs, c.isDigit = true) ∧ n = Nat.ofDigitChars 10 cs value ∧ n ≤ limit := by
  induction cs generalizing value with
  | nil =>
    simp only [readDigits, Except.ok.injEq, List.not_mem_nil, false_imp_iff, implies_true,
      true_and]
    constructor
    · rintro rfl
      exact ⟨rfl, h⟩
    · rintro ⟨rfl, -⟩
      rfl
  | cons c rest ih =>
    rw [readDigits, digitValue?_eq, Nat.ofDigitChars_cons, List.forall_mem_cons]
    by_cases hdigit : c.isDigit = true
    · simp only [hdigit, if_true, true_and]
      split
      · next hle => exact ih hle
      · next hgt =>
        -- what is over the limit now stays over it
        refine ⟨nofun, ?_⟩
        rintro ⟨-, rfl, hle⟩
        exact absurd (Nat.le_trans (le_ofDigitChars rest _) hle) hgt
    · simp [hdigit]

/-! ## Numerals -/

/-- Behind a sign a `Numeral` has digits, at least one. -/
theorem numeral_signed_iff (h : s.toList = '+' :: cs) : Numeral s n ↔
    cs ≠ [] ∧ (∀ c ∈ cs, c.isDigit = true) ∧ n = Nat.ofDigitChars 10 cs 0 := by
  unfold Numeral
  rw [h]
  constructor
  · rintro ⟨digits, rfl | hsign, hne, hdigits, hn⟩
    · exact absurd (hdigits '+' List.mem_cons_self) (by decide)
    · obtain rfl := (List.cons.inj hsign).2
      exact ⟨hne, hdigits, hn⟩
  · exact fun hcs => ⟨cs, .inr rfl, hcs⟩

theorem numeral_unsigned_iff (h : ∀ rest, s.toList ≠ '+' :: rest) : Numeral s n ↔
    s.toList ≠ [] ∧ (∀ c ∈ s.toList, c.isDigit = true) ∧ n = Nat.ofDigitChars 10 s.toList 0 := by
  constructor
  · rintro ⟨digits, rfl | hsign, hdigits⟩
    · exact hdigits
    · exact absurd hsign (h digits)
  · exact fun hs => ⟨s.toList, .inl rfl, hs⟩

/-- `natural?` reads a text exactly if it is the `Numeral` of a value in range. -/
theorem natural?_eq_ok_iff : natural? limit s = .ok n ↔ Numeral s n ∧ n ≤ limit := by
  unfold natural?
  split
  · next hs => rw [numeral_unsigned_iff (by simp [hs]), hs]; simp
  · next hs => rw [numeral_signed_iff hs]; simp
  · next digits hne hs =>
    rw [readDigits_eq_ok_iff (Nat.zero_le limit), numeral_signed_iff hs]
    simp only [and_assoc]
    exact (and_iff_right hne).symm
  · next hnil _ hsigned =>
    rw [readDigits_eq_ok_iff (Nat.zero_le limit), numeral_unsigned_iff hsigned]
    simp only [and_assoc]
    exact (and_iff_right hnil).symm

example : Numeral "+007" 7 := ⟨['0', '0', '7'], .inr rfl, by simp, by simp, rfl⟩

end EventRelay.Text
