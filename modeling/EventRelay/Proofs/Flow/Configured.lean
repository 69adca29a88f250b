import EventRelay.Proofs.Flow.Registrations
import EventRelay.Proofs.Json.Accepting
import EventRelay.Proofs.Json.Spelling

/-!
# Flows of a configuration

A text configures flows exactly if it is a JSON object of arrays of strings, and for each name the
array that stands last under it is accepted. The registry then holds just the patterns of these
arrays.
-/

namespace EventRelay.Registry

open Json (Token)
open Json.Decoder (gather written list_inverts string_inverts)

variable {text : String} {entries flows : List (String × List String)} {r r' : Registry}

/-- What stands last under a name. -/
def last? (entries : List (String × List String)) (name : String) : Option (List String) :=
  (entries.filter fun x => x.1 = name).getLast?.map (·.2)

/-- The text is a JSON object of arrays of strings with these entries, in their order. -/
def Spells (text : String) (entries : List (String × List String)) : Prop :=
  Token.Lexed (Json.object (entries.map fun (name, texts) =>
    (name, .array (texts.map .string)))).tokens text.toList

/-- For each name the last array is `Registration.Accepted`. -/
def AllAccepted (entries : List (String × List String)) : Prop :=
  ∀ name texts, last? entries name = some texts → Registration.Accepted ⟨name, texts⟩

/-- The registry holds under each name the patterns of the `last?` array, and nothing else. -/
structure Holds (r : Registry) (entries : List (String × List String)) : Prop where
  ascending : ByName.Ascending r.flows
  find? : ∀ name, ByName.find? name r.flows =
    (last? entries name).map fun texts => texts.filterMap Pattern.parse?

/-! ## The text -/

theorem depth_settings_lt (entries : List (String × List String)) :
    (Json.object (written (fun texts => .array (texts.map .string)) entries)).depth <
      Json.Decoder.depthLimit := by
  have hstrings : ∀ texts : List String, Json.itemsDepth (texts.map .string) < 1 := by
    intro texts
    rw [Json.itemsDepth_lt_iff Nat.one_pos]
    intro v hv
    obtain ⟨s, -, rfl⟩ := List.mem_map.1 hv
    exact Nat.one_pos
  have harrays : Json.membersDepth
      (written (fun texts => .array (texts.map .string)) entries) < 2 := by
    rw [Json.membersDepth_lt_iff Nat.two_pos]
    intro m hm
    obtain ⟨⟨name, texts⟩, -, rfl⟩ := List.mem_map.1 hm
    exact Nat.succ_lt_succ (hstrings texts)
  exact Nat.lt_of_lt_of_le (Nat.succ_lt_succ harrays) (by decide)

theorem isPlain_settings (entries : List (String × List String)) :
    (Json.object (written (fun texts => .array (texts.map .string)) entries)).IsPlain := by
  refine Json.isPlain_object fun m hm => ?_
  obtain ⟨⟨name, texts⟩, -, rfl⟩ := List.mem_map.1 hm
  refine Json.isPlain_array fun v hv => ?_
  obtain ⟨s, -, rfl⟩ := List.mem_map.1 hv
  exact List.forall_mem_singleton.2 trivial

/-- `settingDecoder` reads the texts that `Spells` has, and gathers arrays of one name into the
last. -/
theorem whole_settingDecoder_iff : settingDecoder.whole text = .ok flows ↔
    ∃ entries, Spells text entries ∧ flows = ByName.insertAll [] entries := by
  refine (Json.Decoder.only_object_eq_ok_iff (list_inverts string_inverts)
    depth_settings_lt).trans (exists_congr fun entries => ?_)
  rw [Token.ofChars_eq_iff (isPlain_settings entries), and_comm]
  rfl

/-! ## The registry -/

/-- The patterns that texts stand for, name by name. -/
def patternsOf (flows : List (String × List String)) : List (String × List Pattern) :=
  flows.map fun (name, texts) => (name, texts.filterMap Pattern.parse?)

theorem ascending_patternsOf (h : ByName.Ascending flows) : ByName.Ascending (patternsOf flows) :=
  h.map _

theorem find?_patternsOf (flows : List (String × List String)) (name : String) :
    ByName.find? name (patternsOf flows) =
      (ByName.find? name flows).map fun texts => texts.filterMap Pattern.parse? :=
  ByName.find?_map (fun texts : List String => texts.filterMap Pattern.parse?) name flows

/-- Of the entries with one name the last stays: that is `last?`. -/
theorem find?_insertAll (entries : List (String × List String)) (name : String) :
    ByName.find? name (ByName.insertAll [] entries) = last? entries name := by
  induction entries using List.reverseRecOn with
  | nil => rfl
  | append_singleton entries x ih =>
    obtain ⟨other, texts⟩ := x
    have hstep : ByName.insertAll [] (entries ++ [(other, texts)]) =
        ByName.insert other texts (ByName.insertAll [] entries) := List.foldl_concat ..
    rw [hstep]
    unfold last?
    rw [List.filter_append, List.filter_singleton]
    by_cases h : other = name
    · subst h
      simp [ByName.find?_insert_self]
    · rw [ByName.find?_insert_of_ne (Ne.symm h), ih]
      simp [h, last?]

/-- Flows are registered if each is `Registration.Accepted`, and then their patterns stand under
their names. -/
theorem registerAll_eq_ok_iff : r.registerAll flows = .ok r' ↔
    (∀ x ∈ flows, Registration.Accepted ⟨x.1, x.2⟩) ∧
      r' = ⟨ByName.insertAll r.flows (patternsOf flows)⟩ := by
  induction flows generalizing r with
  | nil => simp [registerAll, patternsOf, ByName.insertAll, eq_comm]
  | cons x rest ih =>
    obtain ⟨name, texts⟩ := x
    rw [List.forall_mem_cons, patternsOf, List.map_cons, ByName.insertAll_cons, ← patternsOf]
    unfold registerAll
    split
    · next r₁ hok =>
      obtain ⟨haccepted, rfl⟩ := register_eq_ok_iff.1 hok
      rw [ih, and_iff_right haccepted]
    · next hrefused =>
      refine ⟨nofun, ?_⟩
      rintro ⟨⟨haccepted, -⟩, -⟩
      rw [register_eq_ok_iff.2 ⟨haccepted, rfl⟩] at hrefused
      cases hrefused

theorem forall_gathered_iff :
    (∀ x ∈ ByName.insertAll [] entries, Registration.Accepted ⟨x.1, x.2⟩) ↔
      AllAccepted entries := by
  have hasc := ByName.Ascending.nil.insertAll entries
  simp only [Prod.forall, hasc.mem_iff, find?_insertAll]
  rfl

/-- A registry `Holds` the entries exactly if it is that of the flows gathered from them. -/
theorem holds_iff : r = ⟨ByName.insertAll empty.flows (patternsOf (ByName.insertAll [] entries))⟩ ↔
    r.Holds entries := by
  have hasc := ascending_patternsOf (ByName.Ascending.nil.insertAll entries)
  have hfind : ∀ name, ByName.find? name (patternsOf (ByName.insertAll [] entries)) =
      (last? entries name).map fun texts => texts.filterMap Pattern.parse? := by
    intro name
    rw [find?_patternsOf, find?_insertAll]
  have hall : ByName.insertAll empty.flows (patternsOf (ByName.insertAll [] entries)) =
      patternsOf (ByName.insertAll [] entries) := ByName.insertAll_eq_append hasc
  rw [hall]
  constructor
  · rintro rfl
    exact ⟨hasc, hfind⟩
  · rintro ⟨hflows, hheld⟩
    have heq := hflows.ext hasc fun name => (hheld name).trans (hfind name).symm
    exact congrArg Registry.mk heq

/-- `ofJson` accepts a text exactly if it is an object of arrays of strings of which the last under
each name is accepted, and then the registry `Holds` these. -/
theorem ofJson_eq_ok_iff : ofJson text = .ok r ↔
    ∃ entries, Spells text entries ∧ AllAccepted entries ∧ r.Holds entries := by
  unfold ofJson
  constructor
  · intro h
    split at h
    · next flows hread =>
      obtain ⟨entries, hspells, rfl⟩ := whole_settingDecoder_iff.1 hread
      rw [registerAll_eq_ok_iff, forall_gathered_iff, holds_iff] at h
      exact ⟨entries, hspells, h⟩
    · cases h
  · rintro ⟨entries, hspells, h⟩
    rw [whole_settingDecoder_iff.2 ⟨entries, hspells, rfl⟩]
    simp only [registerAll_eq_ok_iff, forall_gathered_iff, holds_iff]
    exact h

end EventRelay.Registry
