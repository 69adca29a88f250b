import EventRelay.Json.Codec
import EventRelay.Proofs.Json.Lexing

/-!
# What decoders yield

Whatever text is decoded, what comes out of it is well formed and nests no deeper than the decoder
may enter. This is said of decoders one by one, in the form that tokens of a text lead to a result
with some property and leave tokens of a text behind.
-/

namespace EventRelay.Json

/-- A value that is `WellFormed`, and nests no deeper than this depth lets a decoder enter. -/
def HeldWithin (depth : Nat) (v : Json) : Prop := v.WellFormed ∧ v.depth ≤ depth - 1

namespace Decoder

variable {α β : Type}

/-- With this depth, and in front of tokens that a text can have, the result has a property. -/
def Yields (d : Decoder α) (depth : Nat) (P : α → Prop) : Prop :=
  ∀ ts a rest, (∀ t ∈ ts, t.Fits) → d depth ts = .ok (a, rest) → P a ∧ ∀ t ∈ rest, t.Fits

theorem Yields.mono {d : Decoder α} {depth : Nat} {P Q : α → Prop} (h : d.Yields depth P)
    (hPQ : ∀ a, P a → Q a) : d.Yields depth Q :=
  fun ts a rest hts hd => (h ts a rest hts hd).imp_left (hPQ a)

theorem result_yields {depth : Nat} {P : α → Prop} {a : α} (h : P a) :
    (result a).Yields depth P := by
  rintro ts _ _ hts ⟨⟩
  exact ⟨h, hts⟩

theorem fail_yields {depth : Nat} {P : α → Prop} (f : Fault) : (fail f).Yields depth P := by
  rintro ts _ _ - ⟨⟩

/-- `Yields` goes through a sequence: the second decoder may use what the first result is like. -/
theorem Yields.andThen {d : Decoder α} {f : α → Decoder β} {depth : Nat} {P : α → Prop}
    {Q : β → Prop} (h : d.Yields depth P) (hf : ∀ a, P a → (f a).Yields depth Q) :
    (d.andThen f).Yields depth Q := by
  intro ts b rest hts hd
  rw [Decoder.andThen] at hd
  split at hd
  · next a between hread =>
    obtain ⟨ha, hbetween⟩ := h ts a between hts hread
    exact hf a ha between b rest hbetween hd
  · cases hd

theorem Yields.refine {d : Decoder α} {f : α → Option β} {depth : Nat} {P : α → Prop}
    {Q : β → Prop} (h : d.Yields depth P) (hf : ∀ a, P a → ∀ b ∈ f a, Q b) :
    (d.refine f).Yields depth Q :=
  h.andThen fun a ha => by
    cases hb : f a with
    | none => exact fail_yields _
    | some b => exact result_yields (hf a ha b hb)

/-- Inside of an array or an object one level less may be entered. -/
theorem Yields.nested {d : Decoder α} {depth : Nat} {P : α → Prop} (h : d.Yields (depth - 1) P) :
    (nested d).Yields depth fun a => 1 < depth ∧ P a := by
  intro ts a rest hts hd
  rw [Decoder.nested] at hd
  split at hd
  · cases hd
  · next hdepth =>
    obtain ⟨ha, hrest⟩ := h ts a rest hts hd
    exact ⟨⟨Nat.not_le.1 hdepth, ha⟩, hrest⟩

/-! ## Scalars -/

theorem string_yields (depth : Nat) : string.Yields depth fun _ => True := by
  intro ts s rest hts hd
  unfold string at hd
  split at hd
  · obtain ⟨⟩ := hd
    exact ⟨trivial, (List.forall_mem_cons.1 hts).2⟩
  · cases hd

theorem whole?_yields (low high : Int) (depth : Nat) :
    (whole? low high).Yields depth fun n => low ≤ n ∧ n ≤ high := by
  intro ts n rest hts hd
  unfold whole? at hd
  split at hd
  · split at hd
    · next hrange =>
      obtain ⟨⟩ := hd
      exact ⟨hrange, (List.forall_mem_cons.1 hts).2⟩
    · cases hd
  · cases hd

theorem int64_yields (depth : Nat) : int64.Yields depth fun n => -2 ^ 63 ≤ n ∧ n < 2 ^ 63 :=
  (whole?_yields _ _ depth).mono fun n hn => by
    simp only [Nat.pow_eq] at hn
    omega

theorem nat64_yields (depth : Nat) : nat64.Yields depth fun n => n < 2 ^ 64 :=
  (whole?_yields _ _ depth).andThen fun n hn => result_yields (by
    simp only [Nat.pow_eq] at hn
    omega)

/-! ## Arrays and objects -/

/-- Each element is as the decoder yields it. By induction on the fuel. -/
theorem moreElements_yields {d : Decoder α} {depth : Nat} {P : α → Prop} (h : d.Yields depth P)
    (fuel : Nat) : (moreElements d fuel).Yields depth fun as => ∀ a ∈ as, P a := by
  induction fuel with
  | zero => exact fail_yields _
  | succ fuel ih =>
    refine h.andThen fun a ha ts as rest hts hd => ?_
    split at hd
    · have hmore := ih.andThen fun as has =>
        result_yields (P := fun as => ∀ a ∈ as, P a) (List.forall_mem_cons.2 ⟨ha, has⟩)
      exact hmore _ as rest (List.forall_mem_cons.1 hts).2 hd
    · obtain ⟨⟩ := hd
      exact ⟨List.forall_mem_singleton.2 ha, (List.forall_mem_cons.1 hts).2⟩
    · cases hd

theorem elements_yields {d : Decoder α} {depth : Nat} {P : α → Prop} (h : d.Yields depth P) :
    (elements d).Yields depth fun as => ∀ a ∈ as, P a := by
  intro ts as rest hts hd
  unfold elements at hd
  split at hd
  · obtain ⟨⟩ := hd
    exact ⟨List.forall_mem_nil _, (List.forall_mem_cons.1 hts).2⟩
  · exact moreElements_yields h _ ts as rest hts hd

/-- All elements of a list are as their decoder yields them, one level deeper. -/
theorem list_yields {d : Decoder α} {depth : Nat} {P : α → Prop} (h : d.Yields (depth - 1) P) :
    (list d).Yields depth fun as => 1 < depth ∧ ∀ a ∈ as, P a := by
  intro ts as rest hts hd
  unfold list at hd
  split at hd
  · exact (elements_yields h).nested _ as rest (List.forall_mem_cons.1 hts).2 hd
  · cases hd

theorem Yields.afterColon {d : Decoder α} {depth : Nat} {P : α → Prop} (h : d.Yields depth P) :
    (afterColon d).Yields depth P := by
  intro ts a rest hts hd
  unfold Decoder.afterColon at hd
  split at hd
  · exact h _ a rest (List.forall_mem_cons.1 hts).2 hd
  · cases hd

/-- What every member preserves holds after all members. By induction on the fuel. -/
theorem moreMembers_yields {member : α → String → Decoder α} {depth : Nat} {P : α → Prop}
    (h : ∀ a name, P a → (member a name).Yields depth P) (fuel : Nat) {a : α} (ha : P a) :
    (moreMembers member fuel a).Yields depth P := by
  induction fuel generalizing a with
  | zero => exact fail_yields _
  | succ fuel ih =>
    intro ts b rest hts hd
    rw [moreMembers] at hd
    dsimp only at hd
    split at hd
    · next name behind =>
      obtain ⟨-, hbehind⟩ := List.forall_mem_cons.1 hts
      split at hd
      · cases hd
      · next c after hmember =>
        obtain ⟨hc, hafter⟩ := h a name ha behind c _ hbehind hmember
        exact ih hc _ b rest (List.forall_mem_cons.1 hafter).2 hd
      · next c after hmember =>
        obtain ⟨hc, hafter⟩ := h a name ha behind c _ hbehind hmember
        obtain ⟨⟩ := hd
        exact ⟨hc, (List.forall_mem_cons.1 hafter).2⟩
      · cases hd
    · cases hd

theorem members_yields {member : α → String → Decoder α} {depth : Nat} {P : α → Prop}
    (h : ∀ a name, P a → (member a name).Yields depth P) {a : α} (ha : P a) :
    (members member a).Yields depth P := by
  intro ts b rest hts hd
  unfold members at hd
  split at hd
  · obtain ⟨⟩ := hd
    exact ⟨ha, (List.forall_mem_cons.1 hts).2⟩
  · exact moreMembers_yields h _ ha ts b rest hts hd

theorem object_yields {member : α → String → Decoder α} {depth : Nat} {P : α → Prop}
    (h : ∀ a name, P a → (member a name).Yields (depth - 1) P) {a : α} (ha : P a) :
    (object member a).Yields depth fun b => 1 < depth ∧ P b := by
  intro ts b rest hts hd
  unfold object at hd
  split at hd
  · exact (members_yields h ha).nested _ b rest (List.forall_mem_cons.1 hts).2 hd
  · cases hd

/-! ## Free and skipped values -/

theorem nested_elements_yields {d : Decoder Json} {depth : Nat}
    (h : d.Yields (depth - 1) (HeldWithin (depth - 1))) :
    ((nested (elements d)).andThen fun vs => result (.array vs)).Yields depth
      (HeldWithin depth) := by
  refine (elements_yields h).nested.andThen fun vs hvs => result_yields ?_
  obtain ⟨hdepth, hvs⟩ := hvs
  have hpos : 0 < depth - 1 := by omega
  have hitems := (itemsDepth_lt_iff hpos).2 fun v hv => Nat.lt_of_le_pred hpos (hvs v hv).2
  exact ⟨.array fun v hv => (hvs v hv).1, hitems⟩

theorem nested_members_yields {d : Decoder Json} {depth : Nat}
    (h : d.Yields (depth - 1) (HeldWithin (depth - 1))) :
    ((nested (members (fun acc name => (afterColon d).andThen fun v =>
      result (ByName.insert name v acc)) [])).andThen fun ms => result (.object ms)).Yields depth
        (HeldWithin depth) := by
  have hinsert : ∀ (acc : List (String × Json)) (name : String),
      (ByName.Ascending acc ∧ ∀ m ∈ acc, HeldWithin (depth - 1) m.2) →
      ((afterColon d).andThen fun v => result (ByName.insert name v acc)).Yields (depth - 1)
        fun ms => ByName.Ascending ms ∧ ∀ m ∈ ms, HeldWithin (depth - 1) m.2 := by
    intro acc name hacc
    refine h.afterColon.andThen fun v hv => result_yields ⟨hacc.1.insert name v, fun m hm => ?_⟩
    rcases ByName.mem_insert hm with rfl | hm
    · exact hv
    · exact hacc.2 m hm
  refine (members_yields hinsert ⟨.nil, List.forall_mem_nil _⟩).nested.andThen fun ms hms =>
    result_yields ?_
  obtain ⟨hdepth, hascending, hms⟩ := hms
  have hpos : 0 < depth - 1 := by omega
  have hmembers := (membersDepth_lt_iff hpos).2 fun m hm => Nat.lt_of_le_pred hpos (hms m hm).2
  exact ⟨.object hascending fun m hm => (hms m hm).1, hmembers⟩

/-- Any value that comes out is `HeldWithin` the depth. By induction on the fuel, which bounds the
nesting. -/
theorem valueWithin_yields (fuel depth : Nat) :
    (valueWithin fuel).Yields depth (HeldWithin depth) := by
  induction fuel generalizing depth with
  | zero => exact fail_yields _
  | succ fuel ih =>
    intro ts v rest hts hd
    rw [valueWithin] at hd
    dsimp only at hd
    split at hd
    · obtain ⟨⟩ := hd
      exact ⟨⟨.null, Nat.zero_le _⟩, (List.forall_mem_cons.1 hts).2⟩
    · obtain ⟨⟩ := hd
      exact ⟨⟨.bool _, Nat.zero_le _⟩, (List.forall_mem_cons.1 hts).2⟩
    · obtain ⟨⟩ := hd
      exact ⟨⟨.string _, Nat.zero_le _⟩, (List.forall_mem_cons.1 hts).2⟩
    · obtain ⟨⟩ := hd
      obtain ⟨hn, hrest⟩ := List.forall_mem_cons.1 hts
      exact ⟨⟨.number hn, Nat.zero_le _⟩, hrest⟩
    · exact nested_elements_yields (ih _) _ v rest (List.forall_mem_cons.1 hts).2 hd
    · exact nested_members_yields (ih _) _ v rest (List.forall_mem_cons.1 hts).2 hd
    · cases hd

/-- Any value that comes out of a text is `HeldWithin` the depth. -/
theorem value_yields (depth : Nat) : value.Yields depth (HeldWithin depth) :=
  valueWithin_yields depth depth

/-- What is skipped is the front of the tokens, so the rest `Fits` as they do. -/
theorem skipWithin_suffix {wanted : Bool} {stack : List Enclosing} {ts rest : List Token}
    (h : skipWithin wanted stack ts = .ok rest) : rest <:+ ts := by
  fun_induction skipWithin wanted stack ts with
  | case1 _ _ ih | case3 _ _ ih => exact (ih h).trans ⟨[_, _], rfl⟩
  | case2 _ _ _ ih | case5 _ _ ih | case6 _ _ _ ih | case7 _ _ _ ih | case8 _ _ _ ih
  | case11 _ _ ih | case13 _ _ ih | case14 _ _ ih => exact (ih h).trans (List.suffix_cons ..)
  | case4 _ _ _ ih | case12 _ _ _ ih => exact (ih h).trans ⟨[_, _, _], rfl⟩
  | case10 =>
    obtain ⟨⟩ := h
    exact List.suffix_refl _
  | case9 | case15 => cases h

/-- `skip` leaves tokens of the text. -/
theorem skip_yields (depth : Nat) : skip.Yields depth fun _ => True := by
  intro ts _ rest hts hd
  rw [skip] at hd
  cases hskip : skipWithin true [] ts with
  | error e => simp [hskip, Except.map] at hd
  | ok behind =>
    rw [hskip] at hd
    obtain ⟨⟩ := hd
    exact ⟨trivial, fun t ht => hts t ((skipWithin_suffix hskip).subset ht)⟩

end Decoder

/-! ## Fields -/

/-- A property of the values of each of some `Field`s. -/
def Checks : List Field → Type
  | [] => Unit
  | f :: fs => (f.type → Prop) × Checks fs

namespace Checks

/-- All values have their properties of the `Checks`. -/
def Hold : (fs : List Field) → Checks fs → Values fs → Prop
  | [], _, _ => True
  | _ :: fs, (p, ps), (a, q) => p a ∧ Hold fs ps q

/-- All values of a `Draft` that were read have their properties. -/
def HoldSoFar : (fs : List Field) → Checks fs → Draft fs → Prop
  | [], _, _ => True
  | _ :: fs, (p, ps), (x, d) => (∀ a ∈ x, p a) ∧ HoldSoFar fs ps d

/-- What the decoders of the fields yield has its property, and so have the defaults. -/
def Sound (depth : Nat) : (fs : List Field) → Checks fs → Prop
  | [], _ => True
  | f :: fs, (p, ps) =>
    f.codec.decode.Yields depth p ∧ (∀ a ∈ f.default?, p a) ∧ Sound depth fs ps

theorem holdSoFar_empty {fs : List Field} (ps : Checks fs) : HoldSoFar fs ps (Draft.empty fs) := by
  induction fs with
  | nil => trivial
  | cons f fs ih => exact ⟨fun a ha => (by cases ha), ih ps.2⟩

/-- A member that is read keeps `HoldSoFar`, whether it is of a field or skipped. -/
theorem Sound.member {depth : Nat} {fs : List Field} {ps : Checks fs} (h : Sound depth fs ps)
    {d : Draft fs} (hd : HoldSoFar fs ps d) (name : String) :
    (Draft.member fs d name).Yields depth (HoldSoFar fs ps) := by
  induction fs with
  | nil => exact (Decoder.skip_yields depth).afterColon.andThen fun _ _ => Decoder.result_yields hd
  | cons f fs ih =>
    obtain ⟨p, ps⟩ := ps
    obtain ⟨x, d⟩ := d
    obtain ⟨hfield, -, hrest⟩ := h
    rw [Draft.member]
    split
    · split
      · exact Decoder.fail_yields _
      · refine hfield.afterColon.andThen fun a ha => Decoder.result_yields ⟨?_, hd.2⟩
        rintro _ ⟨⟩
        exact ha
    · exact (ih hrest hd.2).andThen fun d' hd' => Decoder.result_yields ⟨hd.1, hd'⟩

/-- Fields that are read from an array keep it as well. -/
theorem Sound.elements {depth : Nat} {fs : List Field} {ps : Checks fs} (h : Sound depth fs ps)
    (more : Bool) : (Draft.elements fs more).Yields depth (HoldSoFar fs ps) := by
  induction fs generalizing more with
  | nil => exact Decoder.result_yields trivial
  | cons f fs ih =>
    obtain ⟨p, ps⟩ := ps
    obtain ⟨hfield, -, hrest⟩ := h
    have hmore := hfield.andThen fun a ha => (ih hrest true).andThen fun d hd =>
      Decoder.result_yields (P := HoldSoFar (f :: fs) (p, ps)) (a := (some a, d))
        ⟨fun b hb => Option.some.inj hb ▸ ha, hd⟩
    intro ts d rest hts hd
    -- Where no bracket closes the array, a field follows, after a comma unless it is the first.
    rcases ts with _ | ⟨t, ts⟩
    · cases more with
      | false => exact hmore [] d rest hts hd
      | true => cases hd
    · obtain ⟨-, hbehind⟩ := List.forall_mem_cons.1 hts
      cases more with
      | false =>
        cases t with
        | closeBracket =>
          obtain ⟨⟩ := hd
          exact ⟨holdSoFar_empty _, hts⟩
        | _ => exact hmore _ d rest hts hd
      | true =>
        cases t with
        | closeBracket =>
          obtain ⟨⟩ := hd
          exact ⟨holdSoFar_empty _, hts⟩
        | comma => exact hmore ts d rest hbehind hd
        | _ => cases hd

/-- A draft that is completed by defaults gives values that `Hold`. -/
theorem Sound.values? {depth : Nat} {fs : List Field} {ps : Checks fs} (h : Sound depth fs ps)
    {d : Draft fs} (hd : HoldSoFar fs ps d) {q : Values fs} (hq : d.values? fs = some q) :
    Hold fs ps q := by
  induction fs with
  | nil => trivial
  | cons f fs ih =>
    obtain ⟨p, ps⟩ := ps
    obtain ⟨x, d⟩ := d
    obtain ⟨a, q⟩ := q
    obtain ⟨-, hdefault, hrest⟩ := h
    rw [Draft.values?] at hq
    obtain ⟨b, hb, hq⟩ := Option.bind_eq_some_iff.1 hq
    obtain ⟨r, hr, hq⟩ := Option.bind_eq_some_iff.1 hq
    obtain ⟨⟩ := hq
    refine ⟨?_, ih hrest hd.2 hr⟩
    cases x with
    | some c => exact hd.1 _ hb
    | none => exact hdefault _ hb

theorem Sound.complete {depth : Nat} {fs : List Field} {ps : Checks fs} (h : Sound depth fs ps)
    {d : Draft fs} (hd : HoldSoFar fs ps d) (depth' : Nat) :
    (Decoder.complete fs d).Yields depth' (Hold fs ps) := by
  rw [Decoder.complete]
  split
  · next q hq => exact Decoder.result_yields (h.values? hd hq)
  · exact Decoder.fail_yields _

end Checks

theorem Decoder.arrayEnd_yields (depth : Nat) : arrayEnd.Yields depth fun _ => True := by
  intro ts _ rest hts hd
  unfold arrayEnd at hd
  split at hd
  · obtain ⟨⟩ := hd
    exact ⟨trivial, (List.forall_mem_cons.1 hts).2⟩
  · cases hd

/-- Fields that are read, as members or as elements, have the properties that `Checks.Sound` has. -/
theorem Decoder.fields_yields {depth : Nat} {fs : List Field} {ps : Checks fs}
    (h : Checks.Sound (depth - 1) fs ps) :
    (fields fs).Yields depth fun q => 1 < depth ∧ Checks.Hold fs ps q := by
  intro ts q rest hts hd
  unfold fields at hd
  split at hd
  · have harray := ((h.elements false).andThen fun d hd => (h.complete hd _).andThen fun q hq =>
      (arrayEnd_yields _).andThen fun _ _ => result_yields hq).nested
    exact harray _ q rest (List.forall_mem_cons.1 hts).2 hd
  · have hobject := (object_yields (fun d name hd => h.member hd name)
      (Checks.holdSoFar_empty ps)).andThen fun d hd =>
        (h.complete hd.2 _).mono (Q := fun q => 1 < depth ∧ Checks.Hold fs ps q)
          fun q hq => ⟨hd.1, hq⟩
    exact hobject _ q rest hts hd

/-- A record that is read has what follows of the properties of its fields. -/
theorem Codec.record_yields {α : Type} {depth : Nat} {fs : List Field}
    {ofValues : Values fs → α} {values : α → Values fs} {P : α → Prop} (ps : Checks fs)
    (h : Checks.Sound (depth - 1) fs ps)
    (hof : 1 < depth → ∀ q, Checks.Hold fs ps q → P (ofValues q)) :
    (record fs ofValues values).decode.Yields depth P :=
  (Decoder.fields_yields h).andThen fun q hq => Decoder.result_yields (hof hq.1 q hq.2)

end EventRelay.Json
