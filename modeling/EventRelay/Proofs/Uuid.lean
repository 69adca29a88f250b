import EventRelay.Uuid
import Mathlib.Algebra.Group.Nat.Defs

/-!
# UUIDs as texts

The written form tells which UUID it is, digit by digit. So keys of items that are written ids are
different for different ids, and the written form is read as the UUID again.
-/

namespace EventRelay.Uuid

theorem hexDigit_inj {m n : Nat} (hm : m < 16) (hn : n < 16) (h : hexDigit m = hexDigit n) :
    m = n := by
  have hall : ∀ i : Fin 16, ∀ j : Fin 16, hexDigit i.val = hexDigit j.val → i = j := by decide
  exact congrArg Fin.val (hall ⟨m, hm⟩ ⟨n, hn⟩ h)

theorem length_hexDigits (n count : Nat) : (hexDigits n count).length = count := by
  induction count generalizing n with
  | zero => rfl
  | succ count ih => rw [hexDigits, List.length_append, ih, List.length_singleton]

/-- The lowest `hexDigits` tell the rest of a division. -/
theorem mod_eq_of_hexDigits_eq {m n count : Nat} (h : hexDigits m count = hexDigits n count) :
    m % Nat.pow 16 count = n % Nat.pow 16 count := by
  induction count generalizing m n with
  | zero => rw [Nat.pow_eq, Nat.pow_zero, Nat.mod_one, Nat.mod_one]
  | succ count ih =>
    obtain ⟨hhigh, hlow⟩ := List.append_inj' h rfl
    have hdigit : m % 16 = n % 16 :=
      hexDigit_inj (Nat.mod_lt _ (by decide)) (Nat.mod_lt _ (by decide)) (List.cons.inj hlow).1
    have hrest : m / 16 % 16 ^ count = n / 16 % 16 ^ count := ih hhigh
    rw [Nat.pow_eq, Nat.pow_succ', Nat.mod_mul, Nat.mod_mul, hrest, hdigit]

/-- A group of digits after a hyphen, at the end of two texts that are the same. -/
theorem append_hyphen_inj {xs ys : List Char} {m n count : Nat}
    (h : xs ++ '-' :: hexDigits m count = ys ++ '-' :: hexDigits n count) :
    xs = ys ∧ m % Nat.pow 16 count = n % Nat.pow 16 count := by
  obtain ⟨hfront, hback⟩ := List.append_inj' h (by simp [length_hexDigits])
  exact ⟨hfront, mod_eq_of_hexDigits_eq (List.cons.inj hback).2⟩

/-- A UUID is told from its written form, group by group from the end. -/
theorem toChars_inj {u v : Uuid} (h : u.toChars = v.toChars) : u = v := by
  unfold toChars at h
  obtain ⟨h, h1⟩ := append_hyphen_inj h
  obtain ⟨h, h2⟩ := append_hyphen_inj h
  obtain ⟨h, h3⟩ := append_hyphen_inj h
  obtain ⟨h, h4⟩ := append_hyphen_inj h
  have h5 := mod_eq_of_hexDigits_eq h
  obtain ⟨m, hm⟩ := u
  obtain ⟨n, hn⟩ := v
  have hm' : m < 2 ^ 128 := hm
  have hn' : n < 2 ^ 128 := hn
  simp only [Nat.pow_eq, Nat.reducePow] at h1 h2 h3 h4 h5 hm' hn'
  have hmn : m = n := by omega
  subst hmn
  rfl

theorem toString_inj {u v : Uuid} (h : toString u = toString v) : u = v :=
  toChars_inj (String.ofList_injective h)

/-! ## Reading what was written -/

theorem hexValue?_hexDigit {n : Nat} (h : n < 16) : hexValue? (hexDigit n) = some n := by
  have hall : ∀ i : Fin 16, hexValue? (hexDigit i.val) = some i.val := by decide
  exact hall ⟨n, h⟩

/-- `ofHex?` reads `hexDigits` onto the value in front of them. -/
theorem ofHex?_hexDigits (value n count : Nat) (rest : List Char) :
    ofHex? value (hexDigits n count ++ rest) =
      ofHex? (value * 16 ^ count + n % 16 ^ count) rest := by
  induction count generalizing n rest with
  | zero => simp [hexDigits, Nat.mod_one]
  | succ count ih =>
    have hvalue : 16 * (value * 16 ^ count + n / 16 % 16 ^ count) + n % 16 =
        value * 16 ^ (count + 1) + n % 16 ^ (count + 1) := by
      rw [Nat.pow_succ', Nat.mod_mul, Nat.mul_add, Nat.mul_left_comm]
      omega
    rw [hexDigits, List.append_assoc, List.singleton_append, ih, ofHex?,
      hexValue?_hexDigit (Nat.mod_lt _ (by decide)), Option.bind_eq_bind, Option.bind_some, hvalue]

/-- A group of digits follows the digits in front of it. -/
theorem group_eq (n low count : Nat) :
    n / 2 ^ (low + 4 * count) * 16 ^ count + n / 2 ^ low % 16 ^ count = n / 2 ^ low := by
  rw [Nat.pow_add, Nat.pow_mul, ← Nat.div_div_eq_div_mul]
  exact Nat.div_add_mod' (n / 2 ^ low) (16 ^ count)

theorem ofHyphenated?_groups {a b c d e : List Char} (ha : a.length = 8) (hb : b.length = 4)
    (hc : c.length = 4) (hd : d.length = 4) (he : e.length = 12) :
    ofHyphenated? (a ++ '-' :: b ++ '-' :: c ++ '-' :: d ++ '-' :: e) =
      ofSimple? (a ++ b ++ c ++ d ++ e) := by
  simp [ofHyphenated?, ha, hb, hc, hd, he, List.drop_append, List.drop_of_length_le]

/-- `parse?` reads a UUID back from its written form. -/
theorem parse?_toString (u : Uuid) : parse? u.toString = some u := by
  have hlength : u.toChars.length = 36 := by simp [toChars, length_hexDigits]
  have hsimple := ofHyphenated?_groups (length_hexDigits (u.value / Nat.pow 2 96) 8)
    (length_hexDigits (u.value / Nat.pow 2 80) 4) (length_hexDigits (u.value / Nat.pow 2 64) 4)
    (length_hexDigits (u.value / Nat.pow 2 48) 4) (length_hexDigits u.value 12)
  rw [parse?, toString, String.toList_ofList, ofChars?, hlength]
  show ofHyphenated? u.toChars = some u
  have hvalue : ofHex? 0 (hexDigits (u.value / Nat.pow 2 96) 8 ++
      hexDigits (u.value / Nat.pow 2 80) 4 ++ hexDigits (u.value / Nat.pow 2 64) 4 ++
      hexDigits (u.value / Nat.pow 2 48) 4 ++ hexDigits u.value 12) = some u.value := by
    obtain ⟨n, hlt⟩ := u
    rw [Nat.pow_eq] at hlt
    have hfirst : 0 * 16 ^ 8 + n / 2 ^ 96 % 16 ^ 8 = n / 2 ^ 96 := by
      rw [Nat.zero_mul, Nat.zero_add]
      exact Nat.mod_eq_of_lt (Nat.div_lt_of_lt_mul hlt)
    have h₁ : n / 2 ^ 96 * 16 ^ 4 + n / 2 ^ 80 % 16 ^ 4 = n / 2 ^ 80 := group_eq n 80 4
    have h₂ : n / 2 ^ 80 * 16 ^ 4 + n / 2 ^ 64 % 16 ^ 4 = n / 2 ^ 64 := group_eq n 64 4
    have h₃ : n / 2 ^ 64 * 16 ^ 4 + n / 2 ^ 48 % 16 ^ 4 = n / 2 ^ 48 := group_eq n 48 4
    have hlast : n / 2 ^ 48 * 16 ^ 12 + n % 16 ^ 12 = n := Nat.div_add_mod' n (16 ^ 12)
    rw [← List.append_nil (hexDigits n 12)]
    simp only [List.append_assoc, ofHex?_hexDigits, Nat.pow_eq, hfirst, h₁, h₂, h₃, hlast,
      ofHex?]
  rw [toChars, hsimple, ofSimple?, if_pos (by simp [length_hexDigits]), hvalue, Option.map_some]
  obtain ⟨value, hlt⟩ := u
  simp only [ofNat, Nat.mod_eq_of_lt hlt]

end EventRelay.Uuid
