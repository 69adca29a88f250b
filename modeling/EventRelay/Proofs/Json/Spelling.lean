import EventRelay.Proofs.Json.Lexing
import EventRelay.Proofs.Json.Reading
import Mathlib.Data.List.TakeWhile

/-!
# Which texts have which tokens

The tokens of a text are said here by a grammar of their own: each is spelled out, one behind the
other, with any blanks between. A text falls into given tokens without numbers exactly if it is
spelled so.
-/

namespace EventRelay.Json

namespace Token

/-! ## The grammar -/

/-- The units of a string, its closing quote, and what is left of the text behind it. -/
inductive Quotes : List StringUnit → List Char → List Char → Prop
  | close {rest} : Quotes [] ('"' :: rest) rest
  | plain {c units cs rest} : c ≠ '"' → c ≠ '\\' → 32 ≤ c.toNat → Quotes units cs rest →
      Quotes (.char c :: units) (c :: cs) rest
  | escape {letter c units cs rest} : simpleEscape? letter = some c → Quotes units cs rest →
      Quotes (.char c :: units) ('\\' :: letter :: cs) rest
  | digits {n a b c d p q r s units cs rest} : hex4?.hexValue? a = some p →
      hex4?.hexValue? b = some q → hex4?.hexValue? c = some r → hex4?.hexValue? d = some s →
      n = 4096 * p + 256 * q + 16 * r + s → Quotes units cs rest →
      Quotes (.ofNat n :: units) ('\\' :: 'u' :: a :: b :: c :: d :: cs) rest

/-- A token at the front of a text, and what is left of the text behind it. Numbers are left out. -/
inductive Spells : Token → List Char → List Char → Prop
  | openBrace {rest} : Spells .openBrace ('\x7b' :: rest) rest
  | closeBrace {rest} : Spells .closeBrace ('\x7d' :: rest) rest
  | openBracket {rest} : Spells .openBracket ('[' :: rest) rest
  | closeBracket {rest} : Spells .closeBracket (']' :: rest) rest
  | comma {rest} : Spells .comma (',' :: rest) rest
  | colon {rest} : Spells .colon (':' :: rest) rest
  | null {rest} : Spells .null ('n' :: 'u' :: 'l' :: 'l' :: rest) rest
  | isTrue {rest} : Spells (.bool true) ('t' :: 'r' :: 'u' :: 'e' :: rest) rest
  | isFalse {rest} : Spells (.bool false) ('f' :: 'a' :: 'l' :: 's' :: 'e' :: rest) rest
  | string {units chars cs rest} : Quotes units cs rest → joinUnits units = some chars →
      Spells (.string (some (String.ofList chars))) ('"' :: cs) rest

/-- Tokens one behind the other, each as `Spells` has it, with blanks around them. -/
inductive Lexed : List Token → List Char → Prop
  | nil {blanks} : (∀ c ∈ blanks, isSpace c = true) → Lexed [] blanks
  | cons {blanks cs rest t ts} : (∀ c ∈ blanks, isSpace c = true) → Spells t cs rest →
      Lexed ts rest → Lexed (t :: ts) (blanks ++ cs)

/-- A token that is spelled without digits: not broken, and not a number. -/
def IsPlain : Token → Prop
  | .number _ | .string none | .bad => False
  | _ => True

/-! ## Strings -/

variable {cs rest : List Char} {t : Token} {ts : List Token} {n fuel : Nat}
  {units seen : List StringUnit}

/-- Four characters are read by `hex4?` exactly if each is a hexadecimal digit. -/
theorem hex4?_eq_some_iff : hex4? cs = some (n, rest) ↔ ∃ a b c d p q r s,
    cs = a :: b :: c :: d :: rest ∧ hex4?.hexValue? a = some p ∧ hex4?.hexValue? b = some q ∧
      hex4?.hexValue? c = some r ∧ hex4?.hexValue? d = some s ∧
        n = 4096 * p + 256 * q + 16 * r + s := by
  unfold hex4?
  split
  · next a b c d rest' =>
    simp only [List.foldlM_cons, List.foldlM_nil, bind, pure, Option.bind_eq_some_iff,
      Functor.map, Option.map_eq_some_iff, Option.some.injEq, Prod.mk.injEq]
    constructor
    · rintro ⟨_, ⟨_, ⟨p, hp, rfl⟩, _, ⟨q, hq, rfl⟩, _, ⟨r, hr, rfl⟩, _, ⟨s, hs, rfl⟩, rfl⟩, rfl,
        rfl⟩
      exact ⟨a, b, c, d, p, q, r, s, rfl, hp, hq, hr, hs, by omega⟩
    · rintro ⟨_, _, _, _, p, q, r, s, heq, hp, hq, hr, hs, rfl⟩
      cases heq
      exact ⟨_, ⟨_, ⟨p, hp, rfl⟩, _, ⟨q, hq, rfl⟩, _, ⟨r, hr, rfl⟩, _, ⟨s, hs, rfl⟩, rfl⟩,
        by omega, rfl⟩
  · next hshort =>
    refine ⟨nofun, ?_⟩
    rintro ⟨a, b, c, d, p, q, r, s, rfl, -⟩
    exact absurd rfl (hshort a b c d rest)

/-- What `stringUnits?` takes is quoted there, unit after unit. -/
theorem quotes_of_stringUnits? (h : stringUnits? fuel seen cs = some (units, rest)) :
    ∃ new, units = seen.reverse ++ new ∧ Quotes new cs rest := by
  fun_induction stringUnits? fuel seen cs with
  | case1 | case3 | case5 | case6 | case8 | case9 | case10 => cases h
  | case2 =>
    obtain ⟨rfl, rfl⟩ := Prod.mk.inj (Option.some.inj h)
    exact ⟨[], (List.append_nil _).symm, .close⟩
  | case4 seen after fuel n behind hhex ih =>
    obtain ⟨new, hunits, hnew⟩ := ih h
    obtain ⟨a, b, c, d, p, q, r, s, rfl, hp, hq, hr, hs, hn⟩ := hex4?_eq_some_iff.1 hhex
    rw [List.reverse_cons, List.append_assoc] at hunits
    exact ⟨_, hunits, .digits hp hq hr hs hn hnew⟩
  | case7 seen letter after _ fuel c hescape ih =>
    obtain ⟨new, hunits, hnew⟩ := ih h
    rw [List.reverse_cons, List.append_assoc] at hunits
    exact ⟨_, hunits, .escape hescape hnew⟩
  | case11 seen c after hquote _ _ fuel hplain ih =>
    obtain ⟨new, hunits, hnew⟩ := ih h
    rw [List.reverse_cons, List.append_assoc] at hunits
    obtain ⟨hbackslash, hcontrol⟩ := not_or.1 hplain
    exact ⟨_, hunits, .plain hquote hbackslash (Nat.le_of_not_lt hcontrol) hnew⟩

/-- What is quoted `stringUnits?` takes, with fuel for each character. -/
theorem Quotes.stringUnits?_eq (h : Quotes units cs rest) (hfuel : cs.length ≤ fuel) :
    stringUnits? fuel seen cs = some (seen.reverse ++ units, rest) := by
  induction h generalizing fuel seen with
  | close => simp [stringUnits?]
  | @plain c units cs rest hquote hbackslash hcontrol _ ih =>
    obtain ⟨fuel, rfl⟩ := Nat.exists_eq_add_of_le' (Nat.le_trans (Nat.succ_pos _) hfuel)
    have hrest := @ih fuel (.char c :: seen) (by simpa using hfuel)
    rw [List.reverse_cons, List.append_assoc] at hrest
    simpa [stringUnits?, hbackslash, Nat.not_lt.2 hcontrol] using hrest
  | @escape letter c units cs rest hescape _ ih =>
    obtain ⟨fuel, rfl⟩ := Nat.exists_eq_add_of_le' (Nat.le_trans (Nat.succ_pos _) hfuel)
    have hrest := @ih fuel (.char c :: seen) (by simp at hfuel; omega)
    rw [List.reverse_cons, List.append_assoc] at hrest
    -- no simple escape is taken for one of four digits
    have hu : letter ≠ 'u' := by
      rintro rfl
      cases hescape
    simpa [stringUnits?, hu, hescape] using hrest
  | @digits n a b c d p q r s units cs rest hp hq hr hs hn _ ih =>
    obtain ⟨fuel, rfl⟩ := Nat.exists_eq_add_of_le' (Nat.le_trans (Nat.succ_pos _) hfuel)
    have hrest := @ih fuel (.ofNat n :: seen) (by simp at hfuel; omega)
    rw [List.reverse_cons, List.append_assoc] at hrest
    have hhex : hex4? (a :: b :: c :: d :: cs) = some (n, cs) :=
      hex4?_eq_some_iff.2 ⟨a, b, c, d, p, q, r, s, rfl, hp, hq, hr, hs, hn⟩
    simpa [stringUnits?, hhex] using hrest

/-- A string is read exactly if it is quoted and its units join to characters. -/
theorem string?_eq_some_iff {s : String} : string? cs = some (some s, rest) ↔
    ∃ units chars, Quotes units cs rest ∧ joinUnits units = some chars ∧
      s = String.ofList chars := by
  unfold string?
  constructor
  · intro h
    obtain ⟨⟨units, behind⟩, hunits, heq⟩ := Option.map_eq_some_iff.1 h
    obtain ⟨hjoined, rfl⟩ := Prod.mk.inj heq
    obtain ⟨chars, hchars, hs⟩ := Option.map_eq_some_iff.1 hjoined
    obtain ⟨new, hall, hquotes⟩ := quotes_of_stringUnits? hunits
    obtain rfl : units = new := hall
    exact ⟨units, chars, hquotes, hchars, hs.symm⟩
  · rintro ⟨units, chars, hquotes, hchars, rfl⟩
    rw [hquotes.stringUnits?_eq (Nat.le_refl _)]
    simp [hchars]

/-! ## Tokens -/

/-- A token that is spelled out is the `first`. -/
theorem Spells.first_eq (h : Spells t cs rest) : first cs = (t, rest) := by
  cases h with
  | string hquotes hchars =>
    have hstring := string?_eq_some_iff.2 ⟨_, _, hquotes, hchars, rfl⟩
    simp only [first, hstring]
  | _ => rfl

/-- What `first` takes off is spelled out, unless it is broken or a number. -/
theorem spells_first (cs : List Char) (h : (first cs).1.IsPlain) :
    Spells (first cs).1 cs (first cs).2 := by
  revert h
  unfold first
  split
  · exact False.elim
  · exact fun _ => .openBrace
  · exact fun _ => .closeBrace
  · exact fun _ => .openBracket
  · exact fun _ => .closeBracket
  · exact fun _ => .comma
  · exact fun _ => .colon
  · split
    · next s rest hstring =>
      cases s with
      | none => exact False.elim
      | some s =>
        obtain ⟨units, chars, hquotes, hchars, rfl⟩ := string?_eq_some_iff.1 hstring
        exact fun _ => .string hquotes hchars
    · exact False.elim
  · exact fun _ => .null
  · exact fun _ => .isTrue
  · exact fun _ => .isFalse
  · -- what starts like a number is one, or is broken
    split
    · split <;> exact False.elim
    · exact False.elim

theorem Quotes.length_lt (h : Quotes units cs rest) : rest.length < cs.length := by
  induction h with
  | close => exact Nat.lt_succ_self _
  | plain _ _ _ _ ih | escape _ _ ih | digits _ _ _ _ _ _ ih =>
    simp only [List.length_cons]
    omega

/-- A token takes at least one character, and that is no blank: so there is fuel for every token. -/
theorem Spells.cons_eq (h : Spells t cs rest) :
    ∃ c tail, cs = c :: tail ∧ isSpace c = false ∧ rest.length ≤ tail.length := by
  cases h with
  | string hquotes _ => exact ⟨_, _, rfl, rfl, Nat.le_of_lt hquotes.length_lt⟩
  | null | isTrue | isFalse => exact ⟨_, _, rfl, rfl, by simp only [List.length_cons]; omega⟩
  | _ => exact ⟨_, _, rfl, rfl, Nat.le_refl _⟩

theorem Spells.isPlain (h : Spells t cs rest) : t.IsPlain := by
  cases h <;> trivial

/-! ## Texts -/

/-- Tokens that are `Lexed` are those that `list` finds. -/
theorem list_of_lexed (h : Lexed ts cs) (hfuel : cs.length ≤ fuel) : list fuel cs = ts := by
  induction h generalizing fuel with
  | nil hblanks =>
    cases fuel with
    | zero => rfl
    | succ fuel => rw [list, List.dropWhile_eq_nil_iff.2 hblanks]
  | @cons blanks cs rest t ts hblanks hspells _ ih =>
    obtain ⟨c, tail, rfl, hspace, hle⟩ := hspells.cons_eq
    rw [List.length_append, List.length_cons] at hfuel
    obtain ⟨fuel, rfl⟩ := Nat.exists_eq_add_of_le' (show 1 ≤ fuel by omega)
    -- the blanks cost no fuel, and the token leaves less than it took
    have hskip : list (fuel + 1) (blanks ++ c :: tail) = list (fuel + 1) (c :: tail) := by
      rw [list, list, List.dropWhile_append_of_pos hblanks]
    have hne : t ≠ .bad := by
      rintro rfl
      exact hspells.isPlain
    rw [hskip, list_cons hspace hspells.first_eq hne, ih (by omega)]

/-- The tokens that `list` finds are `Lexed`, if none is broken or a number. -/
theorem lexed_of_list (h : list fuel cs = ts) (hfuel : cs.length ≤ fuel)
    (hts : ∀ t ∈ ts, t.IsPlain) : Lexed ts cs := by
  induction fuel generalizing cs ts with
  | zero =>
    obtain rfl := List.eq_nil_of_length_eq_zero (Nat.le_zero.1 hfuel)
    rw [list_nil] at h
    exact h ▸ .nil (List.forall_mem_nil _)
  | succ fuel ih =>
    have hblanks : ∀ c ∈ cs.takeWhile isSpace, isSpace c = true :=
      fun c hc => List.mem_takeWhile_imp hc
    rw [list] at h
    rw [← List.takeWhile_append_dropWhile (p := isSpace) (l := cs)]
    split at h
    · next hnil =>
      rw [hnil, List.append_nil, ← h]
      exact .nil hblanks
    · next c tail hcons =>
      rw [hcons]
      have hlength : (c :: tail).length ≤ cs.length := hcons ▸ (List.dropWhile_sublist _).length_le
      split at h
      · exact (hts .bad (h ▸ List.mem_singleton_self _)).elim
      · next t rest _ hfirst =>
        subst h
        obtain ⟨hplain, hrest⟩ := List.forall_mem_cons.1 hts
        have hspells := spells_first (c :: tail)
        rw [hfirst] at hspells
        obtain ⟨_, _, heq, -, hle⟩ := (hspells hplain).cons_eq
        obtain ⟨-, rfl⟩ := List.cons.inj heq
        rw [List.length_cons] at hlength
        exact .cons hblanks (hspells hplain) (ih rfl (by omega) hrest)

/-- A text falls into tokens that are neither numbers nor broken exactly if they are `Lexed` in
it. -/
theorem ofChars_eq_iff (hts : ∀ t ∈ ts, t.IsPlain) : ofChars cs = ts ↔ Lexed ts cs :=
  ⟨fun h => lexed_of_list h (Nat.le_refl _) hts, fun h => list_of_lexed h (Nat.le_refl _)⟩

end Token

/-! ## Values without numbers -/

/-- Neither the value nor anything in it is a number. -/
def IsPlain (v : Json) : Prop := ∀ t ∈ v.tokens, t.IsPlain

theorem isPlain_itemTokens {items : List Json} (h : ∀ v ∈ items, v.IsPlain) :
    ∀ t ∈ itemTokens items, t.IsPlain := by
  induction items with
  | nil => exact List.forall_mem_singleton.2 trivial
  | cons item items ih =>
    obtain ⟨hitem, hitems⟩ := List.forall_mem_cons.1 h
    exact List.forall_mem_cons.2 ⟨trivial, List.forall_mem_append.2 ⟨hitem, ih hitems⟩⟩

theorem isPlain_array {items : List Json} (h : ∀ v ∈ items, v.IsPlain) : (array items).IsPlain := by
  unfold IsPlain
  rw [tokens_array]
  refine List.forall_mem_cons.2 ⟨trivial, ?_⟩
  cases items with
  | nil => exact List.forall_mem_singleton.2 trivial
  | cons item items =>
    obtain ⟨hitem, hitems⟩ := List.forall_mem_cons.1 h
    exact List.forall_mem_append.2 ⟨hitem, isPlain_itemTokens hitems⟩

theorem isPlain_memberTokens {members : List (String × Json)} (h : ∀ m ∈ members, m.2.IsPlain) :
    ∀ t ∈ memberTokens members, t.IsPlain := by
  induction members with
  | nil => exact List.forall_mem_singleton.2 trivial
  | cons member members ih =>
    obtain ⟨hmember, hmembers⟩ := List.forall_mem_cons.1 h
    simp only [memberTokens, List.forall_mem_cons, List.forall_mem_append]
    exact ⟨trivial, trivial, trivial, hmember, ih hmembers⟩

theorem isPlain_object {members : List (String × Json)} (h : ∀ m ∈ members, m.2.IsPlain) :
    (object members).IsPlain := by
  unfold IsPlain
  rw [tokens_object]
  refine List.forall_mem_cons.2 ⟨trivial, ?_⟩
  cases members with
  | nil => exact List.forall_mem_singleton.2 trivial
  | cons member members =>
    obtain ⟨hmember, hmembers⟩ := List.forall_mem_cons.1 h
    simp only [objectTail, List.forall_mem_cons, List.forall_mem_append]
    exact ⟨trivial, trivial, hmember, isPlain_memberTokens hmembers⟩

end EventRelay.Json
