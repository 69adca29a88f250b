import EventRelay.Json.Decoder
import EventRelay.Proofs.Json.Shape
import Mathlib.Data.List.Forall2

/-!
# Decoders on the tokens of a value

What it means that a decoder reads a value as something, and how decoders of arrays and objects read
theirs when the decoders inside do. A free value is read as itself in canonical form.
-/

namespace EventRelay.Json

/-! ## Tokens inside brackets and braces -/

/-- The tokens of an array after its opening bracket. -/
def arrayTail : List Json → List Token
  | [] => [.closeBracket]
  | item :: rest => item.tokens ++ itemTokens rest

/-- The tokens of an object after its opening brace. -/
def objectTail : List (String × Json) → List Token
  | [] => [.closeBrace]
  | (name, value) :: rest => .string (some name) :: .colon :: (value.tokens ++ memberTokens rest)

theorem tokens_array (items : List Json) :
    tokens (.array items) = .openBracket :: arrayTail items := by
  cases items <;> rfl

theorem tokens_object (members : List (String × Json)) :
    tokens (.object members) = .openBrace :: objectTail members := by
  cases members <;> rfl

/-- No value starts with the end of an array: so elements can be told from their end by one
token. -/
theorem tokens_eq_cons (v : Json) : ∃ t ts, v.tokens = t :: ts ∧ t ≠ .closeBracket := by
  cases v with
  | null | bool | number | string => exact ⟨_, _, rfl, Token.noConfusion⟩
  | array items => exact ⟨_, _, tokens_array items, Token.noConfusion⟩
  | object members => exact ⟨_, _, tokens_object members, Token.noConfusion⟩

theorem length_tokens_pos (v : Json) : 0 < v.tokens.length := by
  obtain ⟨t, ts, heq, -⟩ := tokens_eq_cons v
  rw [heq]
  exact Nat.succ_pos _

theorem length_le_itemTokens (items : List Json) : items.length ≤ (itemTokens items).length := by
  induction items with
  | nil => exact Nat.zero_le _
  | cons item rest ih =>
    simp only [itemTokens, List.length_cons, List.length_append]
    omega

theorem length_le_memberTokens (members : List (String × Json)) :
    members.length ≤ (memberTokens members).length := by
  induction members with
  | nil => exact Nat.zero_le _
  | cons member rest ih =>
    simp only [memberTokens, List.length_cons, List.length_append]
    omega

namespace Decoder

variable {α β : Type}

/-- In front of anything, a value is taken as a whole and read as `a`, if it does not nest deeper
than may be entered. -/
def Reads (d : Decoder α) (v : Json) (a : α) : Prop :=
  ∀ depth rest, v.depth < depth → d depth (v.tokens ++ rest) = .ok (a, rest)

/-- What goes on after a value without taking more of the text. -/
theorem Reads.andThen {d : Decoder α} {v : Json} {a : α} (h : d.Reads v a) {f : α → Decoder β}
    {b : β} (hf : ∀ depth rest, f a depth rest = .ok (b, rest)) : (d.andThen f).Reads v b := by
  intro depth rest hdepth
  simp only [Decoder.andThen, h depth rest hdepth, hf]

theorem Reads.refine {d : Decoder α} {v : Json} {a : α} (h : d.Reads v a) {f : α → Option β}
    {b : β} (hf : f a = some b) : (d.refine f).Reads v b :=
  h.andThen fun _ _ => by rw [hf]; rfl

/-- A value at the front of a text that holds nothing else. -/
theorem Reads.only {d : Decoder α} {v : Json} {a : α} (h : d.Reads v a)
    (hdepth : v.depth < depthLimit) : d.only v.tokens = .ok a := by
  have := h depthLimit [] hdepth
  rw [List.append_nil] at this
  rw [Decoder.only, this]

/-- A text that holds one value and nothing else, as `whole` asks, has that value at its front. -/
theorem leading_of_whole {d : Decoder α} {text : String} {a : α} (h : d.whole text = .ok a) :
    d.leading text = .ok a := by
  unfold whole only at h
  unfold leading
  split at h
  · next hread =>
    rw [hread]
    exact h
  · cases h
  · cases h

/-! ## Scalars -/

theorem string_reads (s : String) : string.Reads (.string s) s := fun _ _ _ => rfl

theorem whole?_reads {low high n : Int} (h : low ≤ n ∧ n ≤ high) :
    (whole? low high).Reads (.int n) n := by
  intro depth rest _
  rw [int, tokens, List.singleton_append]
  exact if_pos h

theorem int64_reads {n : Int} (h : -2 ^ 63 ≤ n ∧ n < 2 ^ 63) : int64.Reads (.int n) n :=
  whole?_reads (by simp only [Nat.pow_eq]; omega)

theorem nat64_reads {n : Nat} (h : n < 2 ^ 64) : nat64.Reads (.nat n) n :=
  (whole?_reads (by simp only [Nat.pow_eq]; omega)).andThen fun _ _ => rfl

/-! ## Arrays -/

/-- Elements are read one by one, each by what `Reads` it. By induction on the elements, with fuel
for each. -/
theorem moreElements_reads {d : Decoder α} {depth : Nat} {items : List Json} {as : List α}
    (h : List.Forall₂ d.Reads items as) {item : Json} {a : α} (hitem : d.Reads item a)
    (hdepth : ∀ v ∈ item :: items, v.depth < depth) {fuel : Nat} (hfuel : items.length < fuel)
    (rest : List Token) :
    moreElements d fuel depth (item.tokens ++ (itemTokens items ++ rest)) =
      .ok (a :: as, rest) := by
  obtain ⟨hfirst, hitems⟩ := List.forall_mem_cons.1 hdepth
  induction h generalizing item a fuel with
  | nil =>
    obtain ⟨fuel, rfl⟩ := Nat.exists_eq_add_of_lt hfuel
    simp [moreElements, Decoder.andThen, hitem _ _ hfirst, itemTokens]
  | @cons next b items as hnext h ih =>
    obtain ⟨fuel, rfl⟩ := Nat.exists_eq_add_of_lt hfuel
    have hless : items.length < items.length + 1 + fuel := by omega
    obtain ⟨hnextDepth, hrest⟩ := List.forall_mem_cons.1 hitems
    have hmore := ih hnext hitems hless hnextDepth hrest
    simp only [List.length_cons, moreElements, Decoder.andThen, hitem _ _ hfirst, itemTokens,
      List.cons_append, List.append_assoc, hmore, result]

theorem elements_reads {d : Decoder α} {depth : Nat} {items : List Json} {as : List α}
    (h : List.Forall₂ d.Reads items as) (hdepth : ∀ v ∈ items, v.depth < depth)
    (rest : List Token) : elements d depth (arrayTail items ++ rest) = .ok (as, rest) := by
  cases h with
  | nil => rfl
  | @cons item a items as hitem h =>
    have hfuel : items.length < (item.tokens ++ (itemTokens items ++ rest)).length := by
      have := length_tokens_pos item
      have := length_le_itemTokens items
      simp only [List.length_append]
      omega
    have hmore := moreElements_reads h hitem hdepth hfuel rest
    obtain ⟨t, ts, htokens, ht⟩ := tokens_eq_cons item
    rw [arrayTail, List.append_assoc]
    rw [htokens, List.cons_append] at hmore ⊢
    unfold elements
    split
    · next heq => exact absurd (List.cons.inj heq).1 ht
    · exact hmore

theorem nested_elements_reads {d : Decoder α} {depth : Nat} {items : List Json} {as : List α}
    (h : List.Forall₂ d.Reads items as) (hdepth : (Json.array items).depth < depth)
    (rest : List Token) : nested (elements d) depth (arrayTail items ++ rest) = .ok (as, rest) := by
  rw [Json.depth] at hdepth
  have hitems := (itemsDepth_lt_iff (by omega)).1 (show itemsDepth items < depth - 1 by omega)
  rw [nested, if_neg (by omega), elements_reads h hitems]

/-- `list` reads an array as the list of what its elements are read as. -/
theorem list_reads {d : Decoder α} {items : List Json} {as : List α}
    (h : List.Forall₂ d.Reads items as) : (list d).Reads (.array items) as := by
  intro depth rest hdepth
  rw [tokens_array]
  exact nested_elements_reads h hdepth rest

/-! ## Objects -/

/-- After the name of a member, what was read before and the value of the member give `b`. -/
def ReadsMember (member : α → String → Decoder α) (a : α) (name : String) (v : Json) (b : α) :
    Prop :=
  ∀ depth rest, v.depth < depth → member a name depth (.colon :: (v.tokens ++ rest)) = .ok (b, rest)

/-- The members of an object, each by `ReadsMember`, lead from `a` to what stands last. -/
inductive Takes (member : α → String → Decoder α) : α → List (String × Json) → α → Prop where
  | nil (a : α) : Takes member a [] a
  | cons {a b c : α} {name : String} {v : Json} {rest : List (String × Json)}
      (h : ReadsMember member a name v b) (hrest : Takes member b rest c) :
      Takes member a ((name, v) :: rest) c

theorem Reads.afterColon {d : Decoder α} {v : Json} {a : α} (h : d.Reads v a) (depth : Nat)
    (rest : List Token) (hdepth : v.depth < depth) :
    afterColon d depth (.colon :: (v.tokens ++ rest)) = .ok (a, rest) :=
  h depth rest hdepth

/-- Members are read one by one, as `Takes` has them. By induction on that, with fuel for each. -/
theorem moreMembers_reads {member : α → String → Decoder α} {depth : Nat} {a b c : α}
    {members : List (String × Json)} (h : Takes member b members c) {name : String} {v : Json}
    (hmember : ReadsMember member a name v b) (hdepth : v.depth < depth)
    (hmembers : ∀ m ∈ members, m.2.depth < depth) {fuel : Nat} (hfuel : members.length < fuel)
    (rest : List Token) :
    moreMembers member fuel a depth
      (.string (some name) :: .colon :: (v.tokens ++ (memberTokens members ++ rest))) =
        .ok (c, rest) := by
  induction h generalizing a name v fuel with
  | nil =>
    obtain ⟨fuel, rfl⟩ := Nat.exists_eq_add_of_lt hfuel
    simp [moreMembers, hmember _ _ hdepth, memberTokens]
  | @cons _ _ _ _ _ ms hnext h ih =>
    obtain ⟨fuel, rfl⟩ := Nat.exists_eq_add_of_lt hfuel
    have hless : ms.length < ms.length + 1 + fuel := by omega
    obtain ⟨hnextDepth, hrest⟩ := List.forall_mem_cons.1 hmembers
    have hmore := ih hnext hnextDepth hrest hless
    simp only [List.length_cons, moreMembers, hmember _ _ hdepth, memberTokens, List.cons_append,
      List.append_assoc, hmore]

theorem members_reads {member : α → String → Decoder α} {depth : Nat} {a b : α}
    {ms : List (String × Json)} (h : Takes member a ms b) (hdepth : ∀ m ∈ ms, m.2.depth < depth)
    (rest : List Token) : members member a depth (objectTail ms ++ rest) = .ok (b, rest) := by
  cases h with
  | nil => rfl
  | @cons _ _ _ name v ms hmember h =>
    obtain ⟨hfirst, hms⟩ := List.forall_mem_cons.1 hdepth
    have hfuel : ms.length < (Token.string (some name) :: .colon ::
        (v.tokens ++ (memberTokens ms ++ rest))).length := by
      have := length_le_memberTokens ms
      simp only [List.length_cons, List.length_append]
      omega
    have hmore := moreMembers_reads h hmember hfirst hms hfuel rest
    rw [objectTail, List.cons_append, List.cons_append, List.append_assoc]
    exact hmore

theorem nested_members_reads {member : α → String → Decoder α} {depth : Nat} {a b : α}
    {ms : List (String × Json)} (h : Takes member a ms b) (hdepth : (Json.object ms).depth < depth)
    (rest : List Token) :
    nested (members member a) depth (objectTail ms ++ rest) = .ok (b, rest) := by
  rw [Json.depth] at hdepth
  have hms := (membersDepth_lt_iff (by omega)).1 (show membersDepth ms < depth - 1 by omega)
  rw [nested, if_neg (by omega), members_reads h hms]

/-- `object` reads an object as what its members lead to from the start. -/
theorem object_reads {member : α → String → Decoder α} {a b : α} {ms : List (String × Json)}
    (h : Takes member a ms b) : (object member a).Reads (.object ms) b := by
  intro depth rest hdepth
  rw [tokens_object]
  exact nested_members_reads h hdepth rest

/-! ## Free values -/

/-- Members that are inserted by name come to `ByName.insertAll`. -/
theorem takes_insert {d : Decoder Json} {ms : List (String × Json)} {f : Json → Json}
    (h : ∀ m ∈ ms, d.Reads m.2 (f m.2)) (acc : List (String × Json)) :
    Takes (fun acc name => (afterColon d).andThen fun v => result (ByName.insert name v acc)) acc ms
      (ByName.insertAll acc (ms.map fun m => (m.1, f m.2))) := by
  induction ms generalizing acc with
  | nil => exact .nil acc
  | cons m ms ih =>
    obtain ⟨hm, hms⟩ := List.forall_mem_cons.1 h
    refine .cons (fun depth rest hdepth => ?_) (ih hms (ByName.insert m.1 (f m.2) acc))
    simp only [Decoder.andThen, hm.afterColon depth rest hdepth, result]

/-- A value is read as its `canonical` form, if the fuel is above its depth. By induction on the
value. -/
theorem valueWithin_reads (v : Json) {fuel : Nat} (hfuel : v.depth < fuel) :
    (valueWithin fuel).Reads v v.canonical := by
  -- a bracket takes one of the fuel and one of the depth, so what is inside has fuel to spare
  induction v using induct generalizing fuel with
  | null | bool | number | string =>
    obtain ⟨fuel, rfl⟩ := Nat.exists_eq_add_of_lt hfuel
    exact fun _ _ _ => rfl
  | array items ih =>
    obtain ⟨fuel, rfl⟩ := Nat.exists_eq_add_of_lt hfuel
    intro depth rest hdepth
    have hitems : List.Forall₂ (valueWithin (itemsDepth items + 1 + fuel)).Reads items
        (items.map canonical) := by
      rw [List.forall₂_map_right_iff, List.forall₂_same]
      refine fun v hv => ih v hv ?_
      exact (itemsDepth_lt_iff (by omega)).1 (show _ < itemsDepth items + 1 + fuel by omega) v hv
    have hread := nested_elements_reads hitems hdepth rest
    rw [tokens_array, canonical, canonicalItems_eq]
    simp only [Json.depth, List.cons_append, valueWithin, Decoder.andThen, hread, result]
  | object ms ih =>
    obtain ⟨fuel, rfl⟩ := Nat.exists_eq_add_of_lt hfuel
    intro depth rest hdepth
    have hms : ∀ m ∈ ms, (valueWithin (membersDepth ms + 1 + fuel)).Reads m.2 m.2.canonical := by
      refine fun m hm => ih m hm ?_
      exact (membersDepth_lt_iff (by omega)).1 (show _ < membersDepth ms + 1 + fuel by omega) m hm
    have hread := nested_members_reads (takes_insert hms []) hdepth rest
    rw [tokens_object, canonical_object]
    simp only [Json.depth, List.cons_append, valueWithin, Decoder.andThen, hread, result]

/-- Any value is read as its `canonical` form. -/
theorem value_reads (v : Json) : value.Reads v v.canonical :=
  fun depth rest hdepth => valueWithin_reads v hdepth depth rest hdepth

end Decoder

end EventRelay.Json
