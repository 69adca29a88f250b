import EventRelay.Proofs.Json.Reading

/-!
# What decoders accept

A decoder that reads what was written for a type may read other things as well. Those of strings, of
arrays and of objects whose members are gathered by name read nothing else: what they take off the
tokens is what is written for their result.
-/

namespace EventRelay.Json.Decoder

variable {α : Type} {d : Decoder α} {f : α → Json} {depth fuel : Nat} {ts rest : List Token}

/-- Each result is read from what `f` writes for it, and from nothing else: `Reads`, and the other
way round. -/
structure Inverts (d : Decoder α) (f : α → Json) : Prop where
  reads : ∀ a, d.Reads (f a) a
  only : ∀ depth ts a rest, d depth ts = .ok (a, rest) → ts = (f a).tokens ++ rest

theorem string_inverts : string.Inverts .string where
  reads := string_reads
  only depth ts s rest h := by
    unfold string at h
    split at h
    · obtain ⟨rfl, rfl⟩ := Prod.mk.inj (Except.ok.inj h)
      rfl
    · cases h

/-! ## Arrays -/

/-- What is read behind an element comes from the tokens of elements. By induction on the fuel. -/
theorem tokens_of_moreElements {as : List α} (hd : d.Inverts f)
    (h : moreElements d fuel depth ts = .ok (as, rest)) :
    ∃ a more, as = a :: more ∧ ts = (f a).tokens ++ (itemTokens (more.map f) ++ rest) := by
  induction fuel generalizing ts as with
  | zero => cases h
  | succ fuel ih =>
    simp only [moreElements, andThen] at h
    split at h
    · next a behind hfirst =>
      obtain rfl := hd.only _ _ _ _ hfirst
      split at h
      · next behind =>
        split at h
        · next more behind hmore =>
          obtain ⟨rfl, rfl⟩ := Prod.mk.inj (Except.ok.inj h)
          obtain ⟨b, others, rfl, rfl⟩ := ih hmore
          exact ⟨a, b :: others, rfl, by simp [itemTokens]⟩
        · cases h
      · obtain ⟨rfl, rfl⟩ := Prod.mk.inj (Except.ok.inj h)
        exact ⟨a, [], rfl, rfl⟩
      · cases h
    · cases h

/-- A list of what `Inverts` inverts too. -/
theorem list_inverts (hd : d.Inverts f) : (list d).Inverts fun as => .array (as.map f) where
  reads as := list_reads (List.forall₂_map_left_iff.2 (List.forall₂_same.2 fun a _ => hd.reads a))
  only depth ts as rest h := by
    rw [tokens_array]
    unfold list nested elements at h
    split at h
    · split at h
      · cases h
      · split at h
        · obtain ⟨rfl, rfl⟩ := Prod.mk.inj (Except.ok.inj h)
          rfl
        · obtain ⟨a, more, rfl, rfl⟩ := tokens_of_moreElements hd h
          rw [List.map_cons, arrayTail, List.cons_append, List.append_assoc]
    · cases h

/-! ## Objects -/

/-- Reads a member and puts it under its name by `ByName.insert`, in place of an earlier one. -/
def gather (d : Decoder α) (acc : List (String × α)) (name : String) :
    Decoder (List (String × α)) :=
  (afterColon d).andThen fun a => result (ByName.insert name a acc)

/-- What is written for members. -/
def written (f : α → Json) (entries : List (String × α)) : List (String × Json) :=
  entries.map fun (name, a) => (name, f a)

/-- Members that are `gather`ed come to `ByName.insertAll`. -/
theorem takes_gather (hd : d.Inverts f) (acc entries : List (String × α)) :
    Takes (gather d) acc (written f entries) (ByName.insertAll acc entries) := by
  induction entries generalizing acc with
  | nil => exact .nil acc
  | cons entry entries ih =>
    obtain ⟨name, a⟩ := entry
    refine .cons (fun depth rest hdepth => ?_) (ih (ByName.insert name a acc))
    simp only [gather, andThen, (hd.reads a).afterColon depth rest hdepth, result]

theorem tokens_of_gather {acc acc' : List (String × α)} {name : String} (hd : d.Inverts f)
    (h : gather d acc name depth ts = .ok (acc', rest)) :
    ∃ a, acc' = ByName.insert name a acc ∧ ts = .colon :: ((f a).tokens ++ rest) := by
  unfold gather andThen afterColon at h
  split at h
  · next a behind hread =>
    split at hread
    · obtain ⟨rfl, rfl⟩ := Prod.mk.inj (Except.ok.inj h)
      exact ⟨a, rfl, congrArg (Token.colon :: ·) (hd.only _ _ _ _ hread)⟩
    · cases hread
  · cases h

/-- What is gathered behind a member comes from the tokens of members that were `written`. -/
theorem tokens_of_moreMembers {acc acc' : List (String × α)} (hd : d.Inverts f)
    (h : moreMembers (gather d) fuel acc depth ts = .ok (acc', rest)) :
    ∃ name a more, acc' = ByName.insertAll acc ((name, a) :: more) ∧
      ts = .string (some name) :: .colon ::
        ((f a).tokens ++ (memberTokens (written f more) ++ rest)) := by
  induction fuel generalizing ts acc with
  | zero => cases h
  | succ fuel ih =>
    unfold moreMembers at h
    split at h
    · next name behind =>
      split at h
      · cases h
      · next acc₁ behind hmember =>
        obtain ⟨a, rfl, rfl⟩ := tokens_of_gather hd hmember
        obtain ⟨name', b, others, rfl, rfl⟩ := ih h
        exact ⟨name, a, (name', b) :: others, rfl, by simp [written, memberTokens]⟩
      · next acc₁ behind hmember =>
        obtain ⟨a, rfl, rfl⟩ := tokens_of_gather hd hmember
        obtain ⟨rfl, rfl⟩ := Prod.mk.inj (Except.ok.inj h)
        exact ⟨name, a, [], rfl, rfl⟩
      · cases h
    · cases h

theorem tokens_of_object {acc : List (String × α)} (hd : d.Inverts f)
    (h : object (gather d) [] depth ts = .ok (acc, rest)) :
    ∃ entries, acc = ByName.insertAll [] entries ∧
      ts = (Json.object (written f entries)).tokens ++ rest := by
  unfold object nested members at h
  split at h
  · split at h
    · cases h
    · split at h
      · obtain ⟨rfl, rfl⟩ := Prod.mk.inj (Except.ok.inj h)
        exact ⟨[], rfl, rfl⟩
      · obtain ⟨name, a, more, rfl, rfl⟩ := tokens_of_moreMembers hd h
        refine ⟨(name, a) :: more, rfl, ?_⟩
        simp [tokens_object, written, objectTail]
  · cases h

/-- An object whose members are gathered by name is read from what is `written` for some members,
and from nothing else; of a name that stands twice the later member counts. -/
theorem only_object_eq_ok_iff {acc : List (String × α)} (hd : d.Inverts f)
    (hdepth : ∀ entries, (Json.object (written f entries)).depth < depthLimit) :
    (object (gather d) []).only ts = .ok acc ↔ ∃ entries, acc = ByName.insertAll [] entries ∧
      ts = (Json.object (written f entries)).tokens := by
  constructor
  · intro h
    unfold Decoder.only at h
    split at h
    · next hread =>
      obtain rfl := Except.ok.inj h
      obtain ⟨entries, hacc, hts⟩ := tokens_of_object hd hread
      exact ⟨entries, hacc, by rwa [List.append_nil] at hts⟩
    · cases h
    · cases h
  · rintro ⟨entries, rfl, rfl⟩
    exact (object_reads (takes_gather hd [] entries)).only (hdepth entries)

end EventRelay.Json.Decoder
