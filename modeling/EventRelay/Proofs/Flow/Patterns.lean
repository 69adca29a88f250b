import EventRelay.Flow.Pattern
import EventRelay.Proofs.Text.Trimming
import Mathlib.Data.List.Basic

/-!
# What a pattern can single out

A text is read as a pattern exactly if it has two points and more than blanks before, between and
behind them. A pattern that wants the events of three given names and no others has to name all
three, and what a part can name are the trimmed texts without a point, `*` apart. Events may have
other names: a point, or a blank at either end, is allowed there, and then no pattern has them
alone.
-/

namespace EventRelay

variable {cs : List Char} {name : String}

namespace Segment

/-! ## Parts -/

/-- A part is read exactly if it is not blank. -/
theorem ofChars?_isSome_iff : (ofChars? cs).isSome = true ↔ cs.all Text.isBlankChar = false := by
  rw [← Bool.not_eq_true, ← Text.trimChars_eq_nil_iff, ofChars?]
  split <;> simp_all

/-- `Segment.ofChars?` reads a part as the name that it trims to, unless that is nothing or `*`. -/
theorem ofChars?_eq_exactly_iff :
    ofChars? cs = some (.exactly name) ↔
      Text.trimChars cs = name.toList ∧ name ≠ "" ∧ name ≠ "*" := by
  have hempty : name = "" ↔ name.toList = [] := String.toList_inj.symm
  have hstar : name = "*" ↔ name.toList = ['*'] := String.toList_inj.symm
  rw [ne_eq, ne_eq, hempty, hstar, ofChars?]
  split
  · next heq =>
    rw [heq]
    refine ⟨nofun, ?_⟩
    rintro ⟨hnil, hne, -⟩
    exact absurd hnil.symm hne
  · next heq =>
    rw [heq]
    refine ⟨nofun, ?_⟩
    rintro ⟨heq, -, hne⟩
    exact absurd heq.symm hne
  · next hnil hother =>
    constructor
    · intro h
      obtain rfl := Segment.exactly.inj (Option.some.inj h)
      rw [String.toList_ofList]
      exact ⟨rfl, hnil, hother⟩
    · rintro ⟨htrim, -⟩
      rw [htrim, String.ofList_toList]

/-- Only `Segment.exactly` tells a name from all others. -/
theorem eq_exactly {segment : Segment} (h : segment.accepts name = true) {other : String}
    (hother : segment.accepts other = false) : segment = .exactly name := by
  cases segment with
  | any => cases hother
  | exactly expected => rw [beq_iff_eq.1 h]

end Segment

namespace Pattern

variable {s context aggregate event : String} {p : Pattern}

/-! ## Reading -/

/-- `splitPoints` is the library's `List.splitOn` at points. -/
theorem splitPoints_eq_splitOn (cs : List Char) : splitPoints cs = cs.splitOn '.' := by
  induction cs with
  | nil => rfl
  | cons c rest ih =>
    rw [List.splitOn_cons_eq_if_modifyHead]
    by_cases hpoint : c = '.'
    · subst hpoint
      rw [splitPoints, ih]
      rfl
    · rw [splitPoints, if_neg (by simpa using hpoint), ih]
      · cases hrest : rest.splitOn '.' with
        | nil => exact absurd hrest (List.splitOn_ne_nil _ _)
        | cons => rfl
      · exact hpoint

theorem length_splitOn (cs : List Char) : (cs.splitOn '.').length = cs.count '.' + 1 := by
  induction cs with
  | nil => rfl
  | cons c rest ih =>
    rw [List.splitOn_cons_eq_if_modifyHead, List.count_cons]
    split
    · rw [List.length_cons, ih]
    · rw [List.length_modifyHead, ih, Nat.add_zero]

theorem point_not_mem_of_mem_splitOn {part : List Char} (h : part ∈ cs.splitOn '.') :
    '.' ∉ part := by
  induction cs generalizing part with
  | nil =>
    rw [List.splitOn_nil, List.mem_singleton] at h
    rw [h]
    exact List.not_mem_nil
  | cons c rest ih =>
    rw [List.splitOn_cons_eq_if_modifyHead] at h
    split at h
    · rcases List.mem_cons.1 h with rfl | h
      · exact List.not_mem_nil
      · exact ih h
    · next hpoint =>
      cases hrest : rest.splitOn '.' with
      | nil => exact absurd hrest (List.splitOn_ne_nil _ _)
      | cons first others =>
        rw [hrest] at h ih
        rcases List.mem_cons.1 h with rfl | h
        · intro hmem
          rcases List.mem_cons.1 hmem with heq | hmem
          · exact hpoint (beq_iff_eq.2 heq.symm)
          · exact ih List.mem_cons_self hmem
        · exact ih (List.mem_cons_of_mem _ h)

/-- A text is read as a pattern exactly if it splits into three parts that `Segment.ofChars?`
reads. -/
theorem parse?_eq_some_iff :
    parse? s = some p ↔ ∃ c a e, s.toList.splitOn '.' = [c, a, e] ∧
      Segment.ofChars? c = some p.context ∧ Segment.ofChars? a = some p.aggregate ∧
        Segment.ofChars? e = some p.event := by
  obtain ⟨context, aggregate, event⟩ := p
  rw [parse?, splitPoints_eq_splitOn]
  split
  · next c a e hparts =>
    simp only [hparts, bind, pure, Option.bind_eq_some_iff, Option.some.injEq, Pattern.mk.injEq]
    constructor
    · rintro ⟨_, hc, _, ha, _, he, rfl, rfl, rfl⟩
      exact ⟨c, a, e, rfl, hc, ha, he⟩
    · rintro ⟨_, _, _, heq, hc, ha, he⟩
      cases heq
      exact ⟨_, hc, _, ha, _, he, rfl, rfl, rfl⟩
  · next hparts =>
    refine ⟨nofun, ?_⟩
    rintro ⟨c, a, e, heq, -⟩
    exact absurd heq (hparts c a e)

/-- `parse?` reads a text exactly if it has two points and none of its three parts is blank. -/
theorem parse?_isSome_iff :
    (parse? s).isSome = true ↔ s.toList.count '.' = 2 ∧
      ∀ part ∈ s.toList.splitOn '.', part.all Text.isBlankChar = false := by
  have hlength := length_splitOn s.toList
  constructor
  · intro h
    obtain ⟨p, hp⟩ := Option.isSome_iff_exists.1 h
    obtain ⟨c, a, e, hparts, hc, ha, he⟩ := parse?_eq_some_iff.1 hp
    rw [hparts] at hlength ⊢
    refine ⟨(Nat.succ.inj hlength).symm, ?_⟩
    have hread : ∀ {part : List Char} {segment : Segment},
        Segment.ofChars? part = some segment → part.all Text.isBlankChar = false :=
      fun hpart => Segment.ofChars?_isSome_iff.1 (Option.isSome_of_eq_some hpart)
    simp only [List.forall_mem_cons, List.not_mem_nil, false_imp_iff, implies_true, and_true]
    exact ⟨hread hc, hread ha, hread he⟩
  · rintro ⟨hcount, hparts⟩
    rw [hcount] at hlength
    obtain ⟨c, a, e, hsplit⟩ := List.length_eq_three.1 hlength
    rw [hsplit] at hparts
    have hread : ∀ part ∈ [c, a, e], ∃ segment, Segment.ofChars? part = some segment := by
      intro part hpart
      exact Option.isSome_iff_exists.1 (Segment.ofChars?_isSome_iff.2 (hparts part hpart))
    obtain ⟨context, hc⟩ := hread c (by simp)
    obtain ⟨aggregate, ha⟩ := hread a (by simp)
    obtain ⟨event, he⟩ := hread e (by simp)
    exact Option.isSome_iff_exists.2
      ⟨⟨context, aggregate, event⟩, parse?_eq_some_iff.2 ⟨c, a, e, hsplit, hc, ha, he⟩⟩

/-! ## Singling out -/

/-- The pattern wants the events with these three names and no others. -/
def SinglesOut (p : Pattern) (context aggregate event : String) : Prop :=
  ∀ e : Event, p.accepts e = true ↔
    e.context.name = context ∧ e.aggregate.name = aggregate ∧ e.name = event

/-- A text that a part of a pattern can name: trimmed, without a point, and not `*`. -/
structure Nameable (name : String) : Prop where
  nonempty : name ≠ ""
  pointless : '.' ∉ name.toList
  trimmed : Text.Trimmed name.toList
  single : name ≠ "*"

/-- A name that is `Nameable` reads as the part that names it. -/
theorem Nameable.ofChars?_eq (h : Nameable name) :
    Segment.ofChars? name.toList = some (.exactly name) :=
  Segment.ofChars?_eq_exactly_iff.2 ⟨h.trimmed.trimChars_eq, h.nonempty, h.single⟩

/-- What a part between points names is `Nameable`. -/
theorem nameable_of_mem_splitOn {part : List Char} (hmem : part ∈ cs.splitOn '.')
    (hpart : Segment.ofChars? part = some (.exactly name)) : Nameable name := by
  obtain ⟨htrim, hne, hstar⟩ := Segment.ofChars?_eq_exactly_iff.1 hpart
  refine ⟨hne, ?_, ?_, hstar⟩
  · rw [← htrim]
    intro hpoint
    exact point_not_mem_of_mem_splitOn hmem (Text.mem_of_mem_trimChars hpoint)
  · rw [← htrim]
    exact Text.trimmed_trimChars part

/-- Some event with these names. -/
def named (context aggregate event : String) : Event :=
  { (default : Event) with context := ⟨context⟩, aggregate := ⟨aggregate, default⟩, name := event }

theorem singlesOut_exactly (context aggregate event : String) :
    SinglesOut ⟨.exactly context, .exactly aggregate, .exactly event⟩ context aggregate event := by
  intro e
  simp only [accepts, Segment.accepts, Bool.and_eq_true, beq_iff_eq, and_assoc]
  rw [eq_comm (a := context), eq_comm (a := aggregate), eq_comm (a := event)]

/-- A pattern that `SinglesOut` names names each of them. -/
theorem SinglesOut.eq_exactly (h : p.SinglesOut context aggregate event) :
    p = ⟨.exactly context, .exactly aggregate, .exactly event⟩ := by
  obtain ⟨pc, pa, pe⟩ := p
  have hnamed : ∀ c a e, (pc.accepts c && pa.accepts a && pe.accepts e) = true ↔
      c = context ∧ a = aggregate ∧ e = event := fun c a e => h (named c a e)
  have hother : ∀ name : String, name ++ "." ≠ name := by
    intro name heq
    have hlength := congrArg String.length heq
    simp at hlength
  have hwants := (hnamed context aggregate event).2 ⟨rfl, rfl, rfl⟩
  simp only [Bool.and_eq_true] at hwants
  obtain ⟨⟨hc, ha⟩, he⟩ := hwants
  have hrejects : ∀ c a e, ¬ (c = context ∧ a = aggregate ∧ e = event) →
      (pc.accepts c && pa.accepts a && pe.accepts e) = false :=
    fun c a e hne => Bool.eq_false_iff.2 (mt (hnamed c a e).1 hne)
  -- no part stands for any name, since an event with another name there is not wanted
  have hc' : pc.accepts (context ++ ".") = false := by
    simpa [ha, he] using hrejects (context ++ ".") aggregate event fun h => hother _ h.1
  have ha' : pa.accepts (aggregate ++ ".") = false := by
    simpa [hc, he] using hrejects context (aggregate ++ ".") event fun h => hother _ h.2.1
  have he' : pe.accepts (event ++ ".") = false := by
    simpa [hc, ha] using hrejects context aggregate (event ++ ".") fun h => hother _ h.2.2
  rw [Segment.eq_exactly hc hc', Segment.eq_exactly ha ha', Segment.eq_exactly he he']

theorem splitOn_join (hc : '.' ∉ context.toList) (ha : '.' ∉ aggregate.toList)
    (he : '.' ∉ event.toList) :
    (context ++ "." ++ aggregate ++ "." ++ event).toList.splitOn '.' =
      [context.toList, aggregate.toList, event.toList] := by
  have hpoint : ".".toList = ['.'] := rfl
  simp only [String.toList_append, hpoint, List.append_assoc, List.cons_append, List.nil_append]
  rw [List.splitOn_append_cons_self_of_not_mem hc, List.splitOn_append_cons_self_of_not_mem ha,
    List.splitOn_eq_singleton he]

/-- `Event.fullName` with names that are `Nameable` reads as the pattern that names them. -/
theorem parse?_fullName {e : Event} (hc : Nameable e.context.name)
    (ha : Nameable e.aggregate.name) (he : Nameable e.name) :
    parse? e.fullName =
      some ⟨.exactly e.context.name, .exactly e.aggregate.name, .exactly e.name⟩ :=
  parse?_eq_some_iff.2 ⟨_, _, _, splitOn_join hc.pointless ha.pointless he.pointless,
    hc.ofChars?_eq, ha.ofChars?_eq, he.ofChars?_eq⟩

/-- Some text reads as a pattern that `SinglesOut` three names exactly if each is `Nameable`. -/
theorem exists_singlesOut_iff :
    (∃ s p, parse? s = some p ∧ p.SinglesOut context aggregate event) ↔
      Nameable context ∧ Nameable aggregate ∧ Nameable event := by
  constructor
  · rintro ⟨s, p, hparse, hp⟩
    obtain rfl := hp.eq_exactly
    obtain ⟨c, a, e, hsplit, hc, ha, he⟩ := parse?_eq_some_iff.1 hparse
    have hmem : ∀ part ∈ [c, a, e], part ∈ s.toList.splitOn '.' := fun part h => hsplit ▸ h
    exact ⟨nameable_of_mem_splitOn (hmem c (by simp)) hc,
      nameable_of_mem_splitOn (hmem a (by simp)) ha, nameable_of_mem_splitOn (hmem e (by simp)) he⟩
  · rintro ⟨hc, ha, he⟩
    exact ⟨_, _, parse?_fullName (e := named context aggregate event) hc ha he,
      singlesOut_exactly context aggregate event⟩

/-- **What a pattern can single out.** A text reads as a pattern exactly if it has two points and
none of its three parts is blank. Some pattern wants the events of three names and no others
exactly if each of them can be named by a part, and then the full name of such an event is one. An
event may be valid and have names that no pattern singles out. -/
theorem singles_out :
    (∀ s, (parse? s).isSome = true ↔ s.toList.count '.' = 2 ∧
      ∀ part ∈ s.toList.splitOn '.', part.all Text.isBlankChar = false) ∧
    (∀ context aggregate event,
      (∃ s p, parse? s = some p ∧ p.SinglesOut context aggregate event) ↔
        Nameable context ∧ Nameable aggregate ∧ Nameable event) ∧
    (∀ e : Event, Nameable e.context.name → Nameable e.aggregate.name → Nameable e.name →
      ∃ p, parse? e.fullName = some p ∧
        p.SinglesOut e.context.name e.aggregate.name e.name) ∧
    ∃ e : Event, e.validate = .ok () ∧
      ¬ ∃ s p, parse? s = some p ∧ p.SinglesOut e.context.name e.aggregate.name e.name := by
  refine ⟨fun s => parse?_isSome_iff, fun _ _ _ => exists_singlesOut_iff, fun e hc ha he => ?_, ?_⟩
  · exact ⟨_, parse?_fullName hc ha he, singlesOut_exactly _ _ _⟩
  · refine ⟨Event.create (.ofNat 1) 0 ⟨"shop.eu"⟩ ⟨"order", .ofNat 7⟩ "placed" .null 1, rfl, ?_⟩
    rw [exists_singlesOut_iff]
    rintro ⟨hc, -⟩
    exact hc.pointless (by decide)

/-- An event with a point in its name has a full name of four parts, so it is no pattern. -/
example : parse? "shop.eu.order.placed" = none := by decide

end Pattern

end EventRelay
