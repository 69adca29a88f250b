import EventRelay.Json.Printer
import EventRelay.Json.Token
import EventRelay.Proofs.Json.Shape
import Mathlib.Data.List.TakeDrop

/-!
# The text of a value has the tokens of the value

A value whose numbers are whole and in range is written as a text that falls into the tokens of the
value, one by one and without a rest (`ofChars_toChars`). Strings keep every character, and a number
ends where neither a digit nor a point nor an exponent follows. The other way round, whatever text
is given, no token of it stands for a whole number out of range (`ofChars_fits`).
-/

namespace EventRelay.Json

open Token

/-! ## Numbers that a text can hold -/

/-- A token that stands for a number stands for one that `Number.Fits`. -/
def Token.Fits : Token → Prop
  | .number (some n) => n.Fits
  | _ => True

theorem Literal.toDouble?_fits {l : Literal} {n : Number} (h : l.toDouble? = some n) : n.Fits := by
  rw [toDouble?, Option.map_eq_some_iff] at h
  obtain ⟨bits, -, rfl⟩ := h
  trivial

theorem Literal.toNumber?_fits {l : Literal} {n : Number} (h : l.toNumber? = some n) : n.Fits := by
  rw [toNumber?] at h
  split at h
  · split at h
    · split at h
      · next hrange =>
        obtain rfl := Option.some.inj h
        simp only [Nat.pow_eq] at hrange
        constructor <;> omega
      · exact toDouble?_fits h
    · split at h
      · next hrange =>
        obtain rfl := Option.some.inj h
        simp only [Nat.pow_eq] at hrange
        constructor <;> omega
      · exact toDouble?_fits h
  · exact toDouble?_fits h

/-- Whatever the characters, the token at their front fits. -/
theorem Token.first_fits (cs : List Char) : (first cs).1.Fits := by
  unfold first
  split <;> try trivial
  · split <;> trivial
  · split
    · split
      · next l _ _ =>
        cases hn : l.toNumber? with
        | none => trivial
        | some n => exact Literal.toNumber?_fits hn
      · trivial
    · trivial

theorem Token.list_fits (fuel : Nat) (cs : List Char) : ∀ t ∈ list fuel cs, t.Fits := by
  induction fuel generalizing cs with
  | zero => exact fun t ht => absurd ht List.not_mem_nil
  | succ fuel ih =>
    intro t ht
    rw [list] at ht
    split at ht
    · exact absurd ht List.not_mem_nil
    · next c rest _ =>
      split at ht
      · obtain rfl := List.mem_singleton.1 ht
        trivial
      · next front behind _ hfirst =>
        have hfront : (front, behind).1.Fits := hfirst ▸ first_fits _
        rcases List.mem_cons.1 ht with rfl | ht
        · exact hfront
        · exact ih _ t ht

/-- Every token of a text fits, as it was made by `Token.first`. -/
theorem ofChars_fits (cs : List Char) : ∀ t ∈ ofChars cs, t.Fits := list_fits _ cs

/-! ## Decimal digits -/

namespace Token

/-- What stands here does not go on with a number that ended in front of it: no digit, point or
exponent. -/
def Follows (rest : List Char) : Prop :=
  ∀ c ∈ rest.head?, c.isDigit = false ∧ c ≠ '.' ∧ c ≠ 'e' ∧ c ≠ 'E'

theorem follows_nil : Follows [] := fun c hc => by cases hc

theorem follows_cons {c : Char} {rest : List Char}
    (h : c.isDigit = false ∧ c ≠ '.' ∧ c ≠ 'e' ∧ c ≠ 'E') : Follows (c :: rest) := by
  intro d hd
  obtain rfl := Option.some.inj hd
  exact h

/-- `digits` takes digits off up to what `Follows`. -/
theorem digits_append {ds rest : List Char} (hds : ∀ c ∈ ds, c.isDigit = true)
    (h : Follows rest) : digits (ds ++ rest) = (ds, rest) := by
  have htake : rest.takeWhile Char.isDigit = [] ∧ rest.dropWhile Char.isDigit = rest := by
    cases rest with
    | nil => exact ⟨rfl, rfl⟩
    | cons c rest => simp [(h c rfl).1]
  rw [digits, List.span_eq_takeWhile_dropWhile, List.takeWhile_append_of_pos hds,
    List.dropWhile_append_of_pos hds, htake.1, htake.2, List.append_nil]

theorem fraction?_of_follows {rest : List Char} (h : Follows rest) :
    fraction? rest = some (none, rest) := by
  unfold fraction?
  split
  · exact absurd rfl (h '.' rfl).2.1
  · rfl

theorem exponent?_of_follows {rest : List Char} (h : Follows rest) :
    exponent? rest = some (none, rest) := by
  cases rest with
  | nil => rfl
  | cons c rest =>
    obtain ⟨-, -, he, hE⟩ := h c rfl
    simp [exponent?, he, hE]

/-- Decimal digits start with zero only if there is no other: so they are a `literal?`. -/
theorem head?_toDigits {n : Nat} (h : 10 ≤ n) : (Nat.toDigits 10 n).head? ≠ some '0' := by
  induction n using Nat.strongRecOn with
  | _ n ih =>
    rw [Nat.toDigits_eq_if (by decide), if_neg (by omega)]
    obtain ⟨d, ds, hd⟩ := List.exists_cons_of_ne_nil (Nat.toDigits_ne_nil (n := n / 10) (b := 10))
    rw [hd, List.cons_append, List.head?_cons, ← List.head?_cons (l := ds), ← hd]
    by_cases hlt : n / 10 < 10
    · have hall : ∀ d : Fin 10, 0 < d.val → Nat.digitChar d.val ≠ '0' := by decide
      rw [Nat.toDigits_of_lt_base hlt]
      intro heq
      exact hall ⟨n / 10, hlt⟩ (by show 0 < n / 10; omega) (Option.some.inj heq)
    · exact ih (n / 10) (by omega) (by omega)

theorem toDigits_leading (n : Nat) :
    (Nat.toDigits 10 n).length = 1 ∨ (Nat.toDigits 10 n).head? ≠ some '0' := by
  by_cases h : 10 ≤ n
  · exact .inr (head?_toDigits h)
  · rw [Nat.toDigits_of_lt_base (by omega)]
    exact .inl rfl

theorem isDigit_of_mem_toDigits {n : Nat} {c : Char} (h : c ∈ Nat.toDigits 10 n) :
    c.isDigit = true :=
  Nat.isDigit_of_mem_toDigits (by decide) (by decide) h

/-- `Literal.digitsValue` undoes `Nat.toDigits`. -/
theorem digitsValue_toDigits (n : Nat) : Literal.digitsValue (Nat.toDigits 10 n) = n := by
  have h := Nat.ofDigitChars_ten_toDigits (n := n)
  rw [Nat.ofDigitChars_eq_foldl] at h
  exact h

/-- The literal of a whole number with or without a sign. -/
def wholeLiteral (negative : Bool) (n : Nat) : Literal := ⟨negative, Nat.toDigits 10 n, none, none⟩

theorem guard_toDigits (n : Nat) :
    (guard (Nat.toDigits 10 n ≠ [] ∧ ((Nat.toDigits 10 n).length = 1 ∨
      (Nat.toDigits 10 n).head? ≠ some '0')) : Option Unit) = some () :=
  if_pos ⟨Nat.toDigits_ne_nil, toDigits_leading n⟩

/-- The digits of a number, after a minus or not, are its `wholeLiteral`. -/
theorem literal?_signed (signed : Bool) (n : Nat) {rest : List Char} (h : Follows rest) :
    literal? ((if signed then ['-'] else []) ++ (Nat.toDigits 10 n ++ rest)) =
      some (wholeLiteral signed n, rest) := by
  have hdigits := digits_append (fun c => isDigit_of_mem_toDigits (n := n)) h
  have hsign : ∀ cs, Nat.toDigits 10 n ++ rest ≠ '-' :: cs := by
    intro cs heq
    obtain ⟨d, ds, hd⟩ := List.exists_cons_of_ne_nil (Nat.toDigits_ne_nil (n := n) (b := 10))
    rw [hd, List.cons_append, List.cons.injEq] at heq
    have := isDigit_of_mem_toDigits (n := n) (hd ▸ List.mem_cons_self)
    rw [heq.1] at this
    exact absurd this (by decide)
  unfold literal?
  split
  -- the match on a sign of its own, which digits are not
  next negative cs hcs =>
  have hcs' : signed = negative ∧ Nat.toDigits 10 n ++ rest = cs := by
    cases signed with
    | true => exact Prod.mk.inj hcs
    | false =>
      split at hcs
      · next heq => exact absurd heq (hsign _)
      · exact Prod.mk.inj hcs
  obtain ⟨rfl, rfl⟩ := hcs'
  dsimp only
  rw [hdigits]
  dsimp only
  rw [guard_toDigits, fraction?_of_follows h]
  dsimp only [Option.bind_eq_bind, Option.bind_some]
  rw [exponent?_of_follows h]
  rfl

/-- `toNumber?` takes a whole number of 64 bits as it is. -/
theorem toNumber?_wholeLiteral {n : Nat} (h : n < 2 ^ 64) :
    (wholeLiteral false n).toNumber? = some (.whole n) := by
  have hvalue : Literal.digitsValue (wholeLiteral false n).whole = n := digitsValue_toDigits n
  rw [Literal.toNumber?, hvalue]
  exact if_pos h

/-- A negative one is taken as it is down to -2^63. -/
theorem toNumber?_minus_wholeLiteral {n : Nat} (hpos : 0 < n) (h : n ≤ 2 ^ 63) :
    (wholeLiteral true n).toNumber? = some (.whole (-n)) := by
  have hvalue : Literal.digitsValue (wholeLiteral true n).whole = n := digitsValue_toDigits n
  rw [Literal.toNumber?, hvalue]
  exact (if_pos rfl).trans (if_pos ⟨hpos, h⟩)

/-! ## Single tokens -/

/-- The first token and then those of what is behind it. -/
theorem list_cons {c : Char} {rest behind : List Char} {t : Token} (hspace : isSpace c = false)
    (h : first (c :: rest) = (t, behind)) (ht : t ≠ .bad) (fuel : Nat) :
    list (fuel + 1) (c :: rest) = t :: list fuel behind := by
  rw [list, List.dropWhile_cons_of_neg (by simp [hspace])]
  simp only [h]

theorem list_nil (fuel : Nat) : list fuel [] = [] := by
  cases fuel <;> rfl

section Punctuation

variable (fuel : Nat) (rest : List Char)

theorem list_openBrace : list (fuel + 1) ('\x7b' :: rest) = .openBrace :: list fuel rest := rfl

theorem list_openBracket : list (fuel + 1) ('[' :: rest) = .openBracket :: list fuel rest := rfl

theorem list_comma : list (fuel + 1) (',' :: rest) = .comma :: list fuel rest := rfl

theorem list_colon : list (fuel + 1) (':' :: rest) = .colon :: list fuel rest := rfl

end Punctuation

theorem first_number {c : Char} {rest behind : List Char} {l : Literal}
    (hc : c = '-' ∨ c.isDigit = true) (h : literal? (c :: rest) = some (l, behind)) :
    first (c :: rest) = (.number l.toNumber?, behind) := by
  unfold first
  split
  case h_1 heq => cases heq
  case h_12 heq =>
    obtain ⟨rfl, rfl⟩ := List.cons.inj heq
    rw [if_pos hc, h]
  all_goals
    rename_i heq
    obtain ⟨rfl, -⟩ := List.cons.inj heq
    exact absurd hc (by decide)

theorem isSpace_of_number {c : Char} (hc : c = '-' ∨ c.isDigit = true) : isSpace c = false := by
  have hne : ∀ d : Char, ¬ (d = '-' ∨ d.isDigit = true) → c ≠ d := fun d hd heq => hd (heq ▸ hc)
  simp [isSpace, hne ' ' (by decide), hne '\t' (by decide), hne '\n' (by decide),
    hne '\r' (by decide)]

theorem list_number {c : Char} {rest behind : List Char} {l : Literal}
    (hc : c = '-' ∨ c.isDigit = true) (h : literal? (c :: rest) = some (l, behind)) (fuel : Nat) :
    list (fuel + 1) (c :: rest) = .number l.toNumber? :: list fuel behind :=
  list_cons (isSpace_of_number hc) (first_number hc h) Token.noConfusion fuel

/-- `numberChars` of a whole number are its digits, after a minus if it is negative. -/
theorem numberChars_cases (n : Int) :
    ∃ m : Nat, (n = m ∧ numberChars (.whole n) = Nat.toDigits 10 m) ∨
      (0 < m ∧ n = -m ∧ numberChars (.whole n) = '-' :: Nat.toDigits 10 m) := by
  refine ⟨n.natAbs, ?_⟩
  rw [numberChars, Int.toString_eq_repr, Int.repr_eq_if]
  by_cases hsign : 0 ≤ n
  · refine .inl ⟨by omega, ?_⟩
    rw [if_pos hsign, Nat.repr_eq_ofList_toDigits, String.toList_ofList,
      show n.toNat = n.natAbs by omega]
  · refine .inr ⟨by omega, by omega, ?_⟩
    rw [if_neg hsign, Nat.repr_eq_ofList_toDigits, String.toList_append,
      show (-n).toNat = n.natAbs by omega]
    simp only [String.toList_ofList]
    rfl

/-- A whole number that fits is one token, if what stands behind it `Follows`. -/
theorem list_numberChars {n : Int} (hn : (Number.whole n).Fits) {rest : List Char}
    (h : Follows rest) (fuel : Nat) :
    list (fuel + 1) (numberChars (.whole n) ++ rest) =
      .number (some (.whole n)) :: list fuel rest := by
  obtain ⟨hlow, hhigh⟩ := hn
  obtain ⟨m, ⟨rfl, heq⟩ | ⟨hpos, rfl, heq⟩⟩ := numberChars_cases n
  · obtain ⟨d, ds, hd⟩ := List.exists_cons_of_ne_nil (Nat.toDigits_ne_nil (n := m) (b := 10))
    have hdigit : d.isDigit = true := isDigit_of_mem_toDigits (n := m) (hd ▸ List.mem_cons_self)
    have hliteral := literal?_signed false m h
    rw [hd, List.cons_append] at hliteral
    rw [heq, hd, List.cons_append, list_number (.inr hdigit) hliteral,
      toNumber?_wholeLiteral (by omega)]
  · have hliteral : literal? ('-' :: (Nat.toDigits 10 m ++ rest)) =
        some (wholeLiteral true m, rest) := literal?_signed true m h
    rw [heq, List.cons_append, list_number (.inl rfl) hliteral,
      toNumber?_minus_wholeLiteral hpos (by omega)]

/-! ## Strings -/

/-- The four digits of an escape are read as what they were written for. -/
theorem hex4?_escapeDigits {n : Nat} (h : n < 32) (rest : List Char) :
    hex4? (escapeDigits n ++ rest) = some (n, rest) := by
  have hall : ∀ m : Fin 32,
      (escapeDigits m.val).foldlM (fun n c => (16 * n + ·) <$> hex4?.hexValue? c) 0 =
        some m.val := by
    decide
  have hvalue := hall ⟨n, h⟩
  simp only [escapeDigits, List.map_cons, List.map_nil] at hvalue
  simp only [escapeDigits, List.map_cons, List.map_nil, List.cons_append, List.nil_append, hex4?,
    hvalue, Option.bind_eq_bind, Option.bind_some, Option.pure_def]

theorem ofNat_toNat_of_lt {c : Char} (h : c.toNat < 32) : StringUnit.ofNat c.toNat = .char c := by
  rw [StringUnit.ofNat, if_neg (by omega), Char.ofNat_toNat]

/-- `escapeChar` writes a character as a short escape, as an escape of four digits, or as itself. -/
theorem escapeChar_cases (c : Char) :
    (∃ e, simpleEscape? e = some c ∧ escapeChar c = ['\\', e]) ∨
      (c.toNat < 32 ∧ escapeChar c = '\\' :: 'u' :: escapeDigits c.toNat) ∨
      (c ≠ '"' ∧ c ≠ '\\' ∧ 32 ≤ c.toNat ∧ escapeChar c = [c]) := by
  unfold escapeChar
  split_ifs with hquote hbackslash hn hr ht hb hf hcontrol
  · exact .inl ⟨'"', by rw [hquote]; rfl, rfl⟩
  · exact .inl ⟨'\\', by rw [hbackslash]; rfl, rfl⟩
  · exact .inl ⟨'n', by rw [hn]; rfl, rfl⟩
  · exact .inl ⟨'r', by rw [hr]; rfl, rfl⟩
  · exact .inl ⟨'t', by rw [ht]; rfl, rfl⟩
  · exact .inl ⟨'b', by rw [hb]; rfl, rfl⟩
  · exact .inl ⟨'f', by rw [hf]; rfl, rfl⟩
  · exact .inr (.inl ⟨hcontrol, rfl⟩)
  · exact .inr (.inr ⟨hquote, hbackslash, Nat.not_lt.1 hcontrol, rfl⟩)

/-- Whichever it is, it is read as the one character. -/
theorem stringUnits?_escapeChar (c : Char) (fuel : Nat) (units : List StringUnit)
    (rest : List Char) :
    stringUnits? (fuel + 1) units (escapeChar c ++ rest) =
      stringUnits? fuel (.char c :: units) rest := by
  rcases escapeChar_cases c with ⟨e, he, heq⟩ | ⟨hlt, heq⟩ | ⟨hquote, hbackslash, hge, heq⟩
  · have hu : e ≠ 'u' := by
      rintro rfl
      simp [simpleEscape?] at he
    simp [heq, stringUnits?, he]
  · simp [heq, stringUnits?, hex4?_escapeDigits hlt, ofNat_toNat_of_lt hlt]
  · simp [heq, stringUnits?, hbackslash, Nat.not_lt.2 hge]

/-- What is escaped character by character is read so, up to the closing quote. By induction on the
characters. -/
theorem stringUnits?_escaped (cs : List Char) (fuel : Nat) (units : List StringUnit)
    (rest : List Char) :
    stringUnits? (cs.length + fuel) units (cs.flatMap escapeChar ++ '"' :: rest) =
      some (units.reverse ++ cs.map .char, rest) := by
  induction cs generalizing units with
  | nil => simp [stringUnits?]
  | cons c cs ih =>
    rw [List.length_cons, Nat.succ_add, List.flatMap_cons, List.append_assoc,
      stringUnits?_escapeChar, ih, List.reverse_cons, List.append_assoc, List.map_cons,
      List.singleton_append]

theorem joinUnits_chars (cs : List Char) : joinUnits (cs.map .char) = some cs := by
  induction cs with
  | nil => rfl
  | cons c cs ih => simp [joinUnits, ih]

theorem length_le_escaped (cs : List Char) : cs.length ≤ (cs.flatMap escapeChar).length := by
  induction cs with
  | nil => exact Nat.le_refl 0
  | cons c cs ih =>
    have hpos : 0 < (escapeChar c).length := by
      rcases escapeChar_cases c with ⟨e, -, heq⟩ | ⟨-, heq⟩ | ⟨-, -, -, heq⟩ <;> simp [heq]
    rw [List.flatMap_cons, List.length_append, List.length_cons]
    omega

/-- `string?` reads a string that was escaped as itself. -/
theorem string?_escaped (s : String) (rest : List Char) :
    string? (s.toList.flatMap escapeChar ++ '"' :: rest) = some (some s, rest) := by
  have hlength := length_le_escaped s.toList
  obtain ⟨fuel, hfuel⟩ := Nat.exists_eq_add_of_le
    (show s.toList.length ≤ (s.toList.flatMap escapeChar ++ '"' :: rest).length by
      rw [List.length_append]; omega)
  rw [string?, hfuel, stringUnits?_escaped]
  simp [joinUnits_chars]

/-- A string that was written is one token. -/
theorem list_stringChars (s : String) (rest : List Char) (fuel : Nat) :
    list (fuel + 1) (stringChars s ++ rest) = .string (some s) :: list fuel rest := by
  have hfirst : first ('"' :: (s.toList.flatMap escapeChar ++ '"' :: rest)) =
      (.string (some s), rest) := by
    simp only [first, string?_escaped]
  rw [stringChars, List.cons_append, List.append_assoc]
  exact list_cons rfl hfirst Token.noConfusion fuel

end Token

/-! ## Whole values -/

theorem follows_itemChars (items : List Json) (rest : List Char) :
    Follows (itemChars items ++ rest) := by
  cases items with
  | nil => exact follows_cons (by decide)
  | cons item items => exact follows_cons (by decide)

theorem follows_memberChars (members : List (String × Json)) (rest : List Char) :
    Follows (memberChars members ++ rest) := by
  cases members with
  | nil => exact follows_cons (by decide)
  | cons member members => exact follows_cons (by decide)

mutual

/-- A value that was written falls into its tokens, whatever follows that does not go on with a
number. By recursion on the value, together with `list_itemChars` and `list_memberChars`. -/
theorem list_toChars (v : Json) (hv : v.Exact) {rest : List Char} (h : Follows rest)
    (fuel : Nat) :
    Token.list (v.tokens.length + fuel) (v.toChars ++ rest) = v.tokens ++ Token.list fuel rest := by
  match v, hv with
  | .null, _ => rw [Nat.add_comm]; rfl
  | .bool true, _ => rw [Nat.add_comm]; rfl
  | .bool false, _ => rw [Nat.add_comm]; rfl
  | .number (.whole n), .whole hn =>
    rw [tokens, toChars, List.length_singleton, Nat.add_comm, list_numberChars hn h,
      List.singleton_append]
  | .string s, _ =>
    rw [tokens, toChars, List.length_singleton, Nat.add_comm, list_stringChars,
      List.singleton_append]
  | .array [], _ => rw [Nat.add_comm]; rfl
  | .array (item :: items), .array hitems =>
    obtain ⟨hitem, hitems⟩ := List.forall_mem_cons.1 hitems
    have hlength : (tokens (.array (item :: items))).length + fuel =
        (item.tokens.length + ((itemTokens items).length + fuel)) + 1 := by
      simp only [tokens, List.length_cons, List.length_append]
      omega
    rw [hlength, toChars, List.cons_append, List.append_assoc, list_openBracket,
      list_toChars item hitem (follows_itemChars items rest), list_itemChars items hitems, tokens,
      List.cons_append, List.append_assoc]
  | .object [], _ => rw [Nat.add_comm]; rfl
  | .object ((name, value) :: members), .object hmembers =>
    obtain ⟨hvalue, hmembers⟩ := List.forall_mem_cons.1 hmembers
    have hlength : (tokens (.object ((name, value) :: members))).length + fuel =
        (value.tokens.length + ((memberTokens members).length + fuel)) + 1 + 1 + 1 := by
      simp only [tokens, List.length_cons, List.length_append]
      omega
    simp only [hlength, toChars, List.cons_append, List.append_assoc]
    rw [list_openBrace, list_stringChars, list_colon,
      list_toChars value hvalue (follows_memberChars members rest),
      list_memberChars members hmembers, tokens]
    simp only [List.cons_append, List.append_assoc]

theorem list_itemChars (items : List Json) (hitems : ∀ v ∈ items, v.Exact) {rest : List Char}
    (fuel : Nat) :
    Token.list ((itemTokens items).length + fuel) (itemChars items ++ rest) =
      itemTokens items ++ Token.list fuel rest := by
  match items, hitems with
  | [], _ => rw [Nat.add_comm]; rfl
  | item :: items, hitems =>
    obtain ⟨hitem, hitems⟩ := List.forall_mem_cons.1 hitems
    have hlength : (itemTokens (item :: items)).length + fuel =
        (item.tokens.length + ((itemTokens items).length + fuel)) + 1 := by
      simp only [itemTokens, List.length_cons, List.length_append]
      omega
    rw [hlength, itemChars, List.cons_append, List.append_assoc, list_comma,
      list_toChars item hitem (follows_itemChars items rest), list_itemChars items hitems,
      itemTokens, List.cons_append, List.append_assoc]

theorem list_memberChars (members : List (String × Json)) (hmembers : ∀ m ∈ members, m.2.Exact)
    {rest : List Char} (fuel : Nat) :
    Token.list ((memberTokens members).length + fuel) (memberChars members ++ rest) =
      memberTokens members ++ Token.list fuel rest := by
  match members, hmembers with
  | [], _ => rw [Nat.add_comm]; rfl
  | (name, value) :: members, hmembers =>
    obtain ⟨hvalue, hmembers⟩ := List.forall_mem_cons.1 hmembers
    have hlength : (memberTokens ((name, value) :: members)).length + fuel =
        (value.tokens.length + ((memberTokens members).length + fuel)) + 1 + 1 + 1 := by
      simp only [memberTokens, List.length_cons, List.length_append]
      omega
    simp only [hlength, memberChars, List.cons_append, List.append_assoc]
    rw [list_comma, list_stringChars, list_colon,
      list_toChars value hvalue (follows_memberChars members rest),
      list_memberChars members hmembers, memberTokens]
    simp only [List.cons_append, List.append_assoc]

end

theorem length_numberChars_pos (n : Int) : 0 < (numberChars (.whole n)).length := by
  obtain ⟨m, ⟨-, heq⟩ | ⟨-, -, heq⟩⟩ := numberChars_cases n
  · rw [heq]
    exact List.length_pos_iff.2 Nat.toDigits_ne_nil
  · rw [heq]
    exact Nat.succ_pos _

mutual

/-- A value has no more tokens than characters, so there is fuel for each. -/
theorem length_tokens_le (v : Json) (hv : v.Exact) : v.tokens.length ≤ v.toChars.length := by
  match v, hv with
  | .null, _ | .bool true, _ | .bool false, _ | .array [], _ | .object [], _ => decide
  | .number (.whole n), .whole _ => exact length_numberChars_pos n
  | .string s, _ => exact Nat.succ_pos _
  | .array (item :: items), .array hitems =>
    obtain ⟨hitem, hitems⟩ := List.forall_mem_cons.1 hitems
    have hfirst := length_tokens_le item hitem
    have hrest := length_itemTokens_le items hitems
    simp only [tokens, toChars, List.length_cons, List.length_append]
    omega
  | .object ((name, value) :: members), .object hmembers =>
    obtain ⟨hvalue, hmembers⟩ := List.forall_mem_cons.1 hmembers
    have hfirst := length_tokens_le value hvalue
    have hrest := length_memberTokens_le members hmembers
    simp only [tokens, toChars, stringChars, List.length_cons, List.length_append]
    omega

theorem length_itemTokens_le (items : List Json) (hitems : ∀ v ∈ items, v.Exact) :
    (itemTokens items).length ≤ (itemChars items).length := by
  match items, hitems with
  | [], _ => exact Nat.le_refl _
  | item :: items, hitems =>
    obtain ⟨hitem, hitems⟩ := List.forall_mem_cons.1 hitems
    have hfirst := length_tokens_le item hitem
    have hrest := length_itemTokens_le items hitems
    simp only [itemTokens, itemChars, List.length_cons, List.length_append]
    omega

theorem length_memberTokens_le (members : List (String × Json))
    (hmembers : ∀ m ∈ members, m.2.Exact) :
    (memberTokens members).length ≤ (memberChars members).length := by
  match members, hmembers with
  | [], _ => exact Nat.le_refl _
  | (name, value) :: members, hmembers =>
    obtain ⟨hvalue, hmembers⟩ := List.forall_mem_cons.1 hmembers
    have hfirst := length_tokens_le value hvalue
    have hrest := length_memberTokens_le members hmembers
    simp only [memberTokens, memberChars, stringChars, List.length_cons, List.length_append]
    omega

end

/-- **A text has the tokens of its value.** What a value that is `Exact` is written as falls into
the tokens of the value. -/
theorem ofChars_toChars {v : Json} (hv : v.Exact) : Token.ofChars v.toChars = v.tokens := by
  obtain ⟨fuel, hfuel⟩ := Nat.exists_eq_add_of_le (length_tokens_le v hv)
  have h := list_toChars v hv follows_nil fuel
  rw [List.append_nil, Token.list_nil, List.append_nil] at h
  rw [Token.ofChars, hfuel, h]

/-! ## Texts on one line -/

/-- No control character, and so no line feed. -/
def Printable (cs : List Char) : Prop := ∀ c ∈ cs, 32 ≤ c.toNat

theorem printable_cons {c : Char} {cs : List Char} :
    Printable (c :: cs) ↔ 32 ≤ c.toNat ∧ Printable cs :=
  List.forall_mem_cons

theorem printable_append {cs ds : List Char} :
    Printable (cs ++ ds) ↔ Printable cs ∧ Printable ds :=
  List.forall_mem_append

theorem printable_of_all {cs : List Char} (h : (cs.all fun c => 32 ≤ c.toNat) = true) :
    Printable cs :=
  fun c hc => of_decide_eq_true (List.all_eq_true.1 h c hc)

theorem printable_toDigits (n : Nat) : Printable (Nat.toDigits 10 n) := by
  intro c hc
  have hdigit := isDigit_of_mem_toDigits hc
  simp only [Char.isDigit, Bool.and_eq_true, decide_eq_true_eq] at hdigit
  exact Nat.le_trans (by decide) (UInt32.le_iff_toNat_le.1 hdigit.1)

/-- Control characters are escaped, so every character is written with those that are
`Printable`. -/
theorem printable_escapeChar (c : Char) : Printable (escapeChar c) := by
  rcases escapeChar_cases c with ⟨e, he, heq⟩ | ⟨-, heq⟩ | ⟨-, -, hge, heq⟩
  · have hletter : 32 ≤ e.toNat := by
      unfold simpleEscape? at he
      split at he
      any_goals decide
      cases he
    rw [heq]
    exact printable_cons.2 ⟨by decide, List.forall_mem_singleton.2 hletter⟩
  · rw [heq]
    refine printable_cons.2 ⟨by decide, printable_cons.2 ⟨by decide, fun d hd => ?_⟩⟩
    obtain ⟨n, hn, rfl⟩ := List.mem_map.1 hd
    have hlt : n < 16 := by
      simp only [List.mem_cons, List.not_mem_nil, or_false] at hn
      omega
    have hall : ∀ m : Fin 16, 32 ≤ (Nat.digitChar m.val).toNat := by decide
    exact hall ⟨n, hlt⟩
  · rw [heq]
    exact List.forall_mem_singleton.2 hge

theorem printable_stringChars (s : String) : Printable (stringChars s) := by
  refine printable_cons.2 ⟨by decide, printable_append.2 ⟨fun c hc => ?_, ?_⟩⟩
  · obtain ⟨d, -, hc⟩ := List.mem_flatMap.1 hc
    exact printable_escapeChar d c hc
  · exact List.forall_mem_singleton.2 (by decide)

theorem printable_numberChars (n : Int) : Printable (numberChars (.whole n)) := by
  obtain ⟨m, ⟨-, heq⟩ | ⟨-, -, heq⟩⟩ := numberChars_cases n
  · rw [heq]
    exact printable_toDigits m
  · rw [heq]
    exact printable_cons.2 ⟨by decide, printable_toDigits m⟩

mutual

/-- Whatever is written holds no control character, as strings are escaped. -/
theorem printable_toChars (v : Json) (hv : v.Exact) : Printable v.toChars := by
  match v, hv with
  | .null, _ | .bool true, _ | .bool false, _ | .array [], _ | .object [], _ =>
    exact printable_of_all rfl
  | .number (.whole n), .whole _ => exact printable_numberChars n
  | .string s, _ => exact printable_stringChars s
  | .array (item :: items), .array hitems =>
    obtain ⟨hitem, hitems⟩ := List.forall_mem_cons.1 hitems
    exact printable_cons.2 ⟨by decide, printable_append.2
      ⟨printable_toChars item hitem, printable_itemChars items hitems⟩⟩
  | .object ((name, value) :: members), .object hmembers =>
    obtain ⟨hvalue, hmembers⟩ := List.forall_mem_cons.1 hmembers
    exact printable_cons.2 ⟨by decide, printable_append.2 ⟨printable_stringChars name,
      printable_cons.2 ⟨by decide, printable_append.2
        ⟨printable_toChars value hvalue, printable_memberChars members hmembers⟩⟩⟩⟩

theorem printable_itemChars (items : List Json) (hitems : ∀ v ∈ items, v.Exact) :
    Printable (itemChars items) := by
  match items, hitems with
  | [], _ => exact List.forall_mem_singleton.2 (by decide)
  | item :: items, hitems =>
    obtain ⟨hitem, hitems⟩ := List.forall_mem_cons.1 hitems
    exact printable_cons.2 ⟨by decide, printable_append.2
      ⟨printable_toChars item hitem, printable_itemChars items hitems⟩⟩

theorem printable_memberChars (members : List (String × Json))
    (hmembers : ∀ m ∈ members, m.2.Exact) : Printable (memberChars members) := by
  match members, hmembers with
  | [], _ => exact List.forall_mem_singleton.2 (by decide)
  | (name, value) :: members, hmembers =>
    obtain ⟨hvalue, hmembers⟩ := List.forall_mem_cons.1 hmembers
    exact printable_cons.2 ⟨by decide, printable_append.2 ⟨printable_stringChars name,
      printable_cons.2 ⟨by decide, printable_append.2
        ⟨printable_toChars value hvalue, printable_memberChars members hmembers⟩⟩⟩⟩

end

end EventRelay.Json
