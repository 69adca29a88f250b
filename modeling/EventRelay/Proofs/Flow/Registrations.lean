import EventRelay.Proofs.Flow.Built
import Mathlib.Data.List.Basic
import Mathlib.Data.List.Induction

/-!
# Which registration counts

Of the calls that register a flow, the last one that was accepted counts, whatever was registered
under other names in between. A call is accepted if the name is not blank and each text is a
pattern. What a flow wants is said here by the calls alone; both ways of routing an event, going
through the registry and looking a name up in it, come to just that.
-/

namespace EventRelay

/-- A call that registers a flow: its name and the texts of its patterns. -/
structure Registration where
  flow : String
  patterns : List String
  deriving DecidableEq, Repr

namespace Registration

variable {calls calls' : List Registration} {x : Registration} {flow : String} {e : Event}

/-- The name is not blank, and `Pattern.parse?` reads each text. -/
def Accepted (x : Registration) : Prop :=
  Text.isBlank x.flow = false ∧ ∀ text ∈ x.patterns, (Pattern.parse? text).isSome = true

instance : DecidablePred Accepted := fun _ => inferInstanceAs (Decidable (_ ∧ _))

/-- One of the texts is a pattern that accepts the event. -/
def Covers (x : Registration) (e : Event) : Prop :=
  ∃ text ∈ x.patterns, ∃ p ∈ Pattern.parse? text, p.accepts e = true

instance (x : Registration) (e : Event) : Decidable (x.Covers e) :=
  inferInstanceAs (Decidable (∃ text ∈ x.patterns, ∃ p ∈ Pattern.parse? text, p.accepts e = true))

/-- The registration of a flow that counts: the last call with its name that was `Accepted`. -/
def latest? (calls : List Registration) (flow : String) : Option Registration :=
  (calls.filter fun x => x.flow = flow ∧ x.Accepted).getLast?

/-- A flow wants an event that its `latest?` registration `Covers`. -/
def Wants (calls : List Registration) (flow : String) (e : Event) : Prop :=
  ∃ x ∈ latest? calls flow, x.Covers e

instance (calls : List Registration) (flow : String) (e : Event) :
    Decidable (Wants calls flow e) :=
  inferInstanceAs (Decidable (∃ x ∈ latest? calls flow, x.Covers e))

/-- For each name the same calls in the same order, whatever stands in between. -/
def SameByName (calls calls' : List Registration) : Prop :=
  ∀ flow, calls.filter (fun x => x.flow = flow) = calls'.filter fun x => x.flow = flow

theorem latest?_snoc : latest? (calls ++ [x]) flow =
    if x.flow = flow ∧ x.Accepted then some x else latest? calls flow := by
  unfold latest?
  rw [List.filter_append, List.filter_singleton]
  by_cases h : x.flow = flow ∧ x.Accepted
  · rw [decide_eq_true h, if_pos h]
    exact List.getLast?_concat
  · rw [decide_eq_false h, if_neg h]
    exact congrArg List.getLast? (List.append_nil _)

/-- Calls that are `SameByName` leave the same registrations in force. -/
theorem SameByName.latest?_eq (h : SameByName calls calls') (flow : String) :
    latest? calls flow = latest? calls' flow := by
  have hsplit : ∀ cs : List Registration, cs.filter (fun x => x.flow = flow ∧ x.Accepted) =
      (cs.filter fun x => x.flow = flow).filter fun x => x.Accepted := by
    intro cs
    rw [List.filter_filter]
    congr 1
    funext x
    rw [Bool.decide_and, Bool.and_comm]
  unfold latest?
  rw [hsplit, hsplit, h flow]

end Registration

namespace Registry

variable {calls calls' : List Registration} {r r' : Registry} {flow : String} {e : Event}

/-! ## One call -/

theorem parsePatterns_eq_ok_iff {texts : List String} {ps : List Pattern} :
    parsePatterns texts = .ok ps ↔
      (∀ text ∈ texts, (Pattern.parse? text).isSome = true) ∧
        ps = texts.filterMap Pattern.parse? := by
  induction texts generalizing ps with
  | nil => exact ⟨fun h => ⟨List.forall_mem_nil _, (Except.ok.inj h).symm⟩, fun h => h.2 ▸ rfl⟩
  | cons text rest ih =>
    unfold parsePatterns
    cases hparse : Pattern.parse? text with
    | none => simp [hparse]
    | some p =>
      cases hrest : parsePatterns rest with
      | error err =>
        have hnot : ¬ ∀ text ∈ rest, (Pattern.parse? text).isSome = true := by
          intro hall
          rw [ih.2 ⟨hall, rfl⟩] at hrest
          cases hrest
        simp [Except.map, hnot]
      | ok ps' =>
        obtain ⟨hall, rfl⟩ := ih.1 hrest
        simp only [Except.map, Except.ok.injEq, List.forall_mem_cons, hparse, Option.isSome_some,
          true_and, List.filterMap_cons_some hparse]
        exact ⟨fun heq => ⟨hall, heq.symm⟩, fun heq => heq.2.symm⟩

/-- `register` takes a call exactly if it is `Registration.Accepted`, and puts its patterns in the
place of any under its name. -/
theorem register_eq_ok_iff {texts : List String} : r.register flow texts = .ok r' ↔
    Registration.Accepted ⟨flow, texts⟩ ∧
      r' = ⟨ByName.insert flow (texts.filterMap Pattern.parse?) r.flows⟩ := by
  unfold register Registration.Accepted
  by_cases hblank : Text.isBlank flow = true
  · simp [hblank]
  · rw [if_neg hblank, Bool.eq_false_iff]
    cases hparse : parsePatterns texts with
    | error err =>
      have hnot : ¬ ∀ text ∈ texts, (Pattern.parse? text).isSome = true := by
        intro hall
        rw [parsePatterns_eq_ok_iff.2 ⟨hall, rfl⟩] at hparse
        cases hparse
      simp [Except.map, hnot]
    | ok ps =>
      obtain ⟨hall, rfl⟩ := parsePatterns_eq_ok_iff.1 hparse
      simp only [Except.map, Except.ok.injEq]
      exact ⟨fun heq => ⟨⟨hblank, hall⟩, heq.symm⟩, fun heq => heq.2.symm⟩

/-- The registry after a call of `register`. One that is refused leaves it as it was. -/
def attempt (r : Registry) (x : Registration) : Registry :=
  match r.register x.flow x.patterns with
  | .ok r' => r'
  | .error _ => r

/-- The registry after calls on the empty one: `attempt` after `attempt`. -/
def ofCalls (calls : List Registration) : Registry := calls.foldl attempt empty

theorem ofCalls_snoc (calls : List Registration) (x : Registration) :
    ofCalls (calls ++ [x]) = (ofCalls calls).attempt x := List.foldl_concat ..

theorem attempt_of_accepted {x : Registration} (h : x.Accepted) :
    r.attempt x = ⟨ByName.insert x.flow (x.patterns.filterMap Pattern.parse?) r.flows⟩ := by
  unfold attempt
  rw [register_eq_ok_iff.2 ⟨h, rfl⟩]

theorem attempt_of_not_accepted {x : Registration} (h : ¬ x.Accepted) : r.attempt x = r := by
  unfold attempt
  split
  · next hok => exact absurd (register_eq_ok_iff.1 hok).1 h
  · rfl

/-! ## All calls -/

theorem built_ofCalls (calls : List Registration) : (ofCalls calls).Built := by
  induction calls using List.reverseRecOn with
  | nil => exact .empty
  | append_singleton calls x ih =>
    rw [ofCalls_snoc]
    unfold attempt
    split
    · next hok => exact ih.register hok
    · exact ih

/-- A registry that is `Built`, as that of a configuration is, comes out of calls. -/
theorem Built.exists_ofCalls (h : r.Built) : ∃ calls, r = ofCalls calls := by
  induction h with
  | empty => exact ⟨[], rfl⟩
  | @register _ _ name patterns _ hok ih =>
    obtain ⟨calls, rfl⟩ := ih
    refine ⟨calls ++ [⟨name, patterns⟩], ?_⟩
    simp only [ofCalls_snoc, attempt, hok]

/-- What stands under a name was registered by the `latest?` call. -/
theorem find?_ofCalls (calls : List Registration) (flow : String) :
    ByName.find? flow (ofCalls calls).flows =
      (Registration.latest? calls flow).map fun x => x.patterns.filterMap Pattern.parse? := by
  induction calls using List.reverseRecOn with
  | nil => rfl
  | append_singleton calls x ih =>
    rw [ofCalls_snoc, Registration.latest?_snoc]
    by_cases haccepted : x.Accepted
    · rw [attempt_of_accepted haccepted]
      by_cases hflow : x.flow = flow
      · subst hflow
        rw [if_pos ⟨rfl, haccepted⟩, ByName.find?_insert_self]
        rfl
      · rw [if_neg fun h => hflow h.1, ByName.find?_insert_of_ne (Ne.symm hflow), ih]
    · rw [attempt_of_not_accepted haccepted, if_neg fun h => haccepted h.2, ih]

theorem any_filterMap_iff (x : Registration) (e : Event) :
    ((x.patterns.filterMap Pattern.parse?).any (·.accepts e)) = true ↔ x.Covers e := by
  rw [List.any_eq_true]
  constructor
  · rintro ⟨p, hp, haccepts⟩
    obtain ⟨text, htext, hparse⟩ := List.mem_filterMap.1 hp
    exact ⟨text, htext, p, hparse, haccepts⟩
  · rintro ⟨text, htext, p, hparse, haccepts⟩
    exact ⟨p, List.mem_filterMap.2 ⟨text, htext, hparse⟩, haccepts⟩

/-- An event is routed to the flows that `Wants` it. -/
theorem routesTo_ofCalls_iff :
    (ofCalls calls).routesTo e flow = true ↔ Registration.Wants calls flow e := by
  unfold routesTo Registration.Wants
  rw [find?_ofCalls]
  cases Registration.latest? calls flow with
  | none => simp
  | some x =>
    simp only [Option.map_some, any_filterMap_iff, Option.mem_def, Option.some.injEq,
      exists_eq_left']

/-- The `owners` of an event are the flows that `Wants` it. -/
theorem mem_owners_ofCalls_iff :
    flow ∈ (ofCalls calls).owners e ↔ Registration.Wants calls flow e :=
  (built_ofCalls calls).mem_owners_iff.trans routesTo_ofCalls_iff

/-- The `owners` of an event are just the names that it is routed to, in their order. -/
theorem Built.filter_names (h : r.Built) (e : Event) :
    r.names.filter (r.routesTo e) = r.owners e := by
  unfold names owners ByName.names
  rw [List.filter_map]
  congr 1
  apply List.filter_congr
  rintro ⟨name, ps⟩ hentry
  simp only [Function.comp_apply, routesTo, h.ascending.mem_iff.1 hentry]

/-- The owners of an event stand in ascending order, so each once. -/
theorem Built.ascending_owners (h : r.Built) (e : Event) : (r.owners e).Pairwise (· < ·) :=
  List.Pairwise.sublist (Built.owners_sublist r e) h.ascending

/-- The order between names does not matter: calls that are `SameByName` leave the same registry. -/
theorem ofCalls_congr (h : Registration.SameByName calls calls') :
    ofCalls calls = ofCalls calls' := by
  have hflows : (ofCalls calls).flows = (ofCalls calls').flows := by
    refine (built_ofCalls calls).ascending.ext (built_ofCalls calls').ascending fun flow => ?_
    rw [find?_ofCalls, find?_ofCalls, h.latest?_eq]
  calc ofCalls calls = ⟨(ofCalls calls).flows⟩ := rfl
    _ = ⟨(ofCalls calls').flows⟩ := by rw [hflows]
    _ = ofCalls calls' := rfl

end Registry

end EventRelay
