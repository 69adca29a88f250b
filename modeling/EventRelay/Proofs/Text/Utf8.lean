import EventRelay.Text.Utf8

/-!
# Bytes of a text

The bytes of a text are those of its characters one after the other, they are read as the text
again, and a byte below 128 stands for the one character with its value.
-/

namespace EventRelay.Text

/-! ## Bytes character by character -/

theorem toList_loop_eq (bytes : ByteArray) (i : Nat) (acc : List UInt8) :
    ByteArray.toList.loop bytes i acc = acc.reverse ++ bytes.data.toList.drop i := by
  fun_induction ByteArray.toList.loop bytes i acc with
  | case1 i acc h ih =>
    have hi : i < bytes.data.toList.length := h
    rw [ih, List.drop_eq_getElem_cons hi]
    simp [ByteArray.get!, h]
  | case2 i acc h =>
    have hi : bytes.data.toList.length ≤ i := Nat.le_of_not_lt h
    rw [List.drop_eq_nil_of_le hi, List.append_nil]

theorem utf8_ofList (cs : List Char) :
    utf8 (String.ofList cs) = cs.flatMap String.utf8EncodeChar := by
  rw [utf8, String.toUTF8_eq_toByteArray, String.toByteArray_ofList, List.utf8Encode,
    ByteArray.toList, toList_loop_eq, List.data_toByteArray]
  rfl

/-- The bytes of a text are the `String.utf8EncodeChar` of its characters, one after the other. -/
theorem utf8_eq (s : String) : utf8 s = s.toList.flatMap String.utf8EncodeChar := by
  rw [← utf8_ofList, String.ofList_toList]

theorem utf8_append (s t : String) : utf8 (s ++ t) = utf8 s ++ utf8 t := by
  rw [utf8_eq, utf8_eq, utf8_eq, String.toList_append, List.flatMap_append]

/-! ## One character -/

theorem toNat_ofNat {n : Nat} (h : n < 256) : (UInt8.ofNat n).toNat = n := by
  rw [UInt8.toNat_ofNat']
  exact Nat.mod_eq_of_lt h

/-- `continueChar` takes a byte in its range as the next six bits of the character. -/
theorem continueChar_cons {low high n : Nat} (h : low ≤ n ∧ n ≤ high) (hn : n < 256)
    (count value length : Nat) (rest : List UInt8) :
    continueChar low high (count + 1) value length (UInt8.ofNat n :: rest) =
      continueChar 0x80 0xBF count (value * 64 + (n - 0x80)) (length + 1) rest := by
  rw [continueChar, toNat_ofNat hn, if_pos h]

/-- What `leadingByte?` announces of a first byte is looked for in the bytes behind it. -/
theorem leading_of_leadingByte {n : Nat} (hn : n < 256) {count low high value : Nat}
    (h : leadingByte? n = some (count, low, high, value)) (rest : List UInt8) :
    leading (UInt8.ofNat n) rest = continueChar low high count value 1 rest := by
  have hlarge : ¬ n < 0x80 := by
    intro hsmall
    simp [leadingByte?, show ¬ 0xC2 ≤ n by omega, show n ≠ 0xE0 by omega, show n ≠ 0xED by omega,
      show ¬ 0xE1 ≤ n by omega, show n ≠ 0xF0 by omega, show ¬ 0xF1 ≤ n by omega,
      show n ≠ 0xF4 by omega] at h
  simp only [leading, toNat_ofNat hn, if_neg hlarge, h]

/-- The first of two bytes announces one more. -/
theorem leadingByte?_two {v : Nat} (hlow : 0x80 ≤ v) (hhigh : v ≤ 0x7FF) :
    leadingByte? (v / 64 % 32 + 192) = some (1, 0x80, 0xBF, v / 64) := by
  rw [leadingByte?, if_pos (by omega), show v / 64 % 32 + 192 - 0xC0 = v / 64 by omega]

/-- The first of three bytes announces two more, within bounds that keep out surrogates and longer
forms. -/
theorem leadingByte?_three {v : Nat} (hlow : 0x800 ≤ v) (hhigh : v ≤ 0xFFFF)
    (hvalid : v < 0xD800 ∨ 0xDFFF < v) :
    ∃ low high, leadingByte? (v / 4096 % 16 + 224) = some (2, low, high, v / 4096) ∧
      low ≤ v / 64 % 64 + 128 ∧ v / 64 % 64 + 128 ≤ high := by
  rw [leadingByte?, if_neg (by omega)]
  by_cases hfirst : v / 4096 = 0
  · exact ⟨0xA0, 0xBF, by rw [if_pos (by omega), hfirst], by omega, by omega⟩
  · rw [if_neg (by omega)]
    by_cases hsurrogate : v / 4096 = 0xD
    · exact ⟨0x80, 0x9F, by rw [if_pos (by omega), hsurrogate], by omega, by omega⟩
    · refine ⟨0x80, 0xBF, ?_, by omega, by omega⟩
      rw [if_neg (by omega), if_pos (by omega), show v / 4096 % 16 + 224 - 0xE0 = v / 4096 by omega]

/-- The first of four bytes announces three more, within bounds that keep out what is beyond
Unicode. -/
theorem leadingByte?_four {v : Nat} (hlow : 0x10000 ≤ v) (hhigh : v < 0x110000) :
    ∃ low high, leadingByte? (v / 262144 % 8 + 240) = some (3, low, high, v / 262144) ∧
      low ≤ v / 4096 % 64 + 128 ∧ v / 4096 % 64 + 128 ≤ high := by
  rw [leadingByte?, if_neg (by omega), if_neg (by omega), if_neg (by omega), if_neg (by omega)]
  by_cases hfirst : v / 262144 = 0
  · exact ⟨0x90, 0xBF, by rw [if_pos (by omega), hfirst], by omega, by omega⟩
  · rw [if_neg (by omega)]
    by_cases hlast : v / 262144 = 4
    · exact ⟨0x80, 0x8F, by rw [if_neg (by omega), if_pos (by omega), hlast], by omega, by omega⟩
    · refine ⟨0x80, 0xBF, ?_, by omega, by omega⟩
      rw [if_pos (by omega), show v / 262144 % 8 + 240 - 0xF0 = v / 262144 by omega]

/-- The bytes of a character are read by `leading` as the character, whatever follows. By the number
of its bytes. -/
theorem leading_encode (c : Char) (rest : List UInt8) :
    ∃ b bs, String.utf8EncodeChar c = b :: bs ∧
      leading b (bs ++ rest) = .char c (bs.length + 1) := by
  have hvalid : c.toNat < 0xD800 ∨ 0xDFFF < c.toNat ∧ c.toNat < 0x110000 := c.valid
  have hc : Char.ofNat c.toNat = c := Char.ofNat_toNat c
  unfold String.utf8EncodeChar
  change c.val.toNat < _ ∨ _ < c.val.toNat ∧ c.val.toNat < _ at hvalid
  change Char.ofNat c.val.toNat = c at hc
  generalize c.val.toNat = v at hvalid hc
  dsimp only
  -- one case for each number of bytes; that `v` is no surrogate counts only where there are three
  split
  · next h =>
    refine ⟨_, [], rfl, ?_⟩
    rw [leading, toNat_ofNat (by omega)]
    simp only [if_pos (show v < 0x80 by omega), hc, List.length_nil]
  · split
    · next h =>
      refine ⟨_, [_], rfl, ?_⟩
      rw [leading_of_leadingByte (by omega) (leadingByte?_two (by omega) h), List.singleton_append,
        continueChar_cons (by omega) (by omega), continueChar,
        show v / 64 * 64 + (v % 64 + 128 - 0x80) = v by omega, hc, List.length_singleton]
    · split
      · next h =>
        obtain ⟨low, high, hleading, hsecond⟩ :=
          leadingByte?_three (by omega) h (hvalid.imp_right And.left)
        refine ⟨_, [_, _], rfl, ?_⟩
        rw [leading_of_leadingByte (by omega) hleading, List.cons_append, List.singleton_append,
          continueChar_cons hsecond (by omega), continueChar_cons (by omega) (by omega),
          continueChar, show (v / 4096 * 64 + (v / 64 % 64 + 128 - 0x80)) * 64 +
            (v % 64 + 128 - 0x80) = v by omega, hc]
        rfl
      · obtain ⟨low, high, hleading, hsecond⟩ :=
          leadingByte?_four (v := v) (by omega) (by omega)
        refine ⟨_, [_, _, _], rfl, ?_⟩
        rw [leading_of_leadingByte (by omega) hleading, List.cons_append, List.cons_append,
          List.singleton_append, continueChar_cons hsecond (by omega),
          continueChar_cons (by omega) (by omega), continueChar_cons (by omega) (by omega),
          continueChar, show ((v / 262144 * 64 + (v / 4096 % 64 + 128 - 0x80)) * 64 +
            (v / 64 % 64 + 128 - 0x80)) * 64 + (v % 64 + 128 - 0x80) = v by omega, hc]
        rfl

/-- A byte below 128 is a character of its own. -/
theorem mem_encode_of_lt {c : Char} {b : UInt8} (h : b ∈ String.utf8EncodeChar c)
    (hb : b.toNat < 128) : c.toNat = b.toNat := by
  have hsingle : ∀ {n : Nat}, n < 256 → b = UInt8.ofNat n → b.toNat = n := fun hn hb =>
    hb ▸ toNat_ofNat hn
  change c.val.toNat = b.toNat
  unfold String.utf8EncodeChar at h
  generalize c.val.toNat = v at h ⊢
  dsimp only at h
  split at h
  · exact (hsingle (by omega) (List.mem_singleton.1 h)).symm
  · -- Every byte of a character of several bytes is at least 128.
    split at h
    · simp only [List.mem_cons, List.not_mem_nil, or_false] at h
      rcases h with h | h <;> · have := hsingle (by omega) h; omega
    · split at h
      · simp only [List.mem_cons, List.not_mem_nil, or_false] at h
        rcases h with h | h | h <;> · have := hsingle (by omega) h; omega
      · simp only [List.mem_cons, List.not_mem_nil, or_false] at h
        rcases h with h | h | h | h <;> · have := hsingle (by omega) h; omega

/-! ## Whole texts -/

/-- `decodeWithin` reads the bytes of characters as these characters, with fuel for each. -/
theorem decodeWithin_encode (cs : List Char) (fuel : Nat) :
    decodeWithin (cs.length + fuel) (cs.flatMap String.utf8EncodeChar) = cs.map some := by
  induction cs with
  | nil => cases fuel <;> rfl
  | cons c cs ih =>
    obtain ⟨b, bs, hencode, hleading⟩ := leading_encode c (cs.flatMap String.utf8EncodeChar)
    rw [List.length_cons, Nat.succ_add, List.flatMap_cons, hencode, List.cons_append, decodeWithin,
      hleading]
    simp only [Nat.add_sub_cancel, List.drop_left, ih, List.map_cons]

theorem length_le_encode (cs : List Char) :
    cs.length ≤ (cs.flatMap String.utf8EncodeChar).length := by
  induction cs with
  | nil => exact Nat.le_refl 0
  | cons c cs ih =>
    obtain ⟨b, bs, hencode, -⟩ := leading_encode c []
    rw [List.flatMap_cons, List.length_append, hencode, List.length_cons, List.length_cons]
    omega

/-- `ofUtf8?` gives a text back from its bytes. -/
theorem ofUtf8?_utf8 (s : String) : ofUtf8? (utf8 s) = some s := by
  obtain ⟨fuel, hfuel⟩ := Nat.exists_eq_add_of_le (length_le_encode s.toList)
  have hmap : ∀ cs : List Char, (cs.map some).mapM id = some cs := by
    intro cs
    induction cs with
    | nil => rfl
    | cons c cs ih => simp [List.mapM_cons, ih]
  rw [ofUtf8?, decode, utf8_eq, hfuel, decodeWithin_encode, hmap, Option.map_some,
    String.ofList_toList]

end EventRelay.Text
