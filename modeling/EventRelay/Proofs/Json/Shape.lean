import EventRelay.Json.Basic
import EventRelay.Proofs.ByName
import Mathlib.Algebra.Group.Int.Defs
import Mathlib.Algebra.Group.Nat.Defs

/-!
# The shape of JSON values

How deep a value nests, which values a program can hold, and which of them lose nothing when they
are written. A value that is put together in memory lists the members of an object in any order;
one that was read has them ascending, and `canonical` is the step from the one to the other.
-/

namespace EventRelay

/-- A whole number is one of 64 bits, with or without sign; a double is any. -/
def Number.Fits : Number → Prop
  | .whole n => -2 ^ 63 ≤ n ∧ n < 2 ^ 64
  | .double _ => True

namespace Json

/-- Induction over the values inside arrays and objects. -/
theorem induct {motive : Json → Prop} (null : motive .null) (bool : ∀ b, motive (.bool b))
    (number : ∀ n, motive (.number n)) (string : ∀ s, motive (.string s))
    (array : ∀ items, (∀ v ∈ items, motive v) → motive (.array items))
    (object : ∀ members, (∀ m ∈ members, motive m.2) → motive (.object members)) (v : Json) :
    motive v :=
  match v with
  | .null => null
  | .bool b => bool b
  | .number n => number n
  | .string s => string s
  | .array items => array items fun v _ => induct null bool number string array object v
  | .object members => object members fun m _ => induct null bool number string array object m.2
termination_by sizeOf v
decreasing_by
  · have := List.sizeOf_lt_of_mem ‹_ ∈ _›
    simp only [Json.array.sizeOf_spec]
    omega
  · have := List.sizeOf_lt_of_mem ‹_ ∈ _›
    obtain ⟨name, value⟩ := m
    simp only [Prod.mk.sizeOf_spec, Json.object.sizeOf_spec] at *
    omega

/-! ## Depth -/

mutual

/-- How deep arrays and objects nest in a value of `Json`. -/
def depth : Json → Nat
  | array items => itemsDepth items + 1
  | object members => membersDepth members + 1
  | _ => 0

/-- The greatest `depth` of some values. -/
def itemsDepth : List Json → Nat
  | [] => 0
  | item :: rest => max (depth item) (itemsDepth rest)

/-- The greatest `depth` of the values of some members. -/
def membersDepth : List (String × Json) → Nat
  | [] => 0
  | (_, value) :: rest => max (depth value) (membersDepth rest)

end

/-- Some values are within a bound if each is. -/
theorem itemsDepth_lt_iff {items : List Json} {bound : Nat} (h : 0 < bound) :
    itemsDepth items < bound ↔ ∀ v ∈ items, v.depth < bound := by
  induction items with
  | nil => simp [itemsDepth, h]
  | cons item rest ih => simp only [itemsDepth, Nat.max_lt, ih, List.forall_mem_cons]

theorem membersDepth_lt_iff {members : List (String × Json)} {bound : Nat} (h : 0 < bound) :
    membersDepth members < bound ↔ ∀ m ∈ members, m.2.depth < bound := by
  induction members with
  | nil => simp [membersDepth, h]
  | cons member rest ih => simp only [membersDepth, Nat.max_lt, ih, List.forall_mem_cons]

/-! ## Values that are held and values that are kept -/

/-- A value that a program can hold: numbers are such as `Number.Fits` has them, and the names of an
object ascend. -/
inductive WellFormed : Json → Prop where
  | null : WellFormed .null
  | bool (b : Bool) : WellFormed (.bool b)
  | number {n : Number} (h : n.Fits) : WellFormed (.number n)
  | string (s : String) : WellFormed (.string s)
  | array {items : List Json} (h : ∀ v ∈ items, WellFormed v) : WellFormed (.array items)
  | object {members : List (String × Json)} (ascending : ByName.Ascending members)
      (h : ∀ m ∈ members, WellFormed m.2) : WellFormed (.object members)

/-- A value that is not rounded when it is written: its numbers are whole, and `Number.Fits` holds
of them. -/
inductive Exact : Json → Prop where
  | null : Exact .null
  | bool (b : Bool) : Exact (.bool b)
  | whole {n : Int} (h : (Number.whole n).Fits) : Exact (.number (.whole n))
  | string (s : String) : Exact (.string s)
  | array {items : List Json} (h : ∀ v ∈ items, Exact v) : Exact (.array items)
  | object {members : List (String × Json)} (h : ∀ m ∈ members, Exact m.2) :
      Exact (.object members)

theorem areDoubleFree_iff {items : List Json} :
    areDoubleFree items = true ↔ ∀ v ∈ items, v.isDoubleFree = true := by
  induction items with
  | nil => simp [areDoubleFree]
  | cons item rest ih => simp only [areDoubleFree, Bool.and_eq_true, ih, List.forall_mem_cons]

theorem membersDoubleFree_iff {members : List (String × Json)} :
    membersDoubleFree members = true ↔ ∀ m ∈ members, m.2.isDoubleFree = true := by
  induction members with
  | nil => simp [membersDoubleFree]
  | cons member rest ih =>
    simp only [membersDoubleFree, Bool.and_eq_true, ih, List.forall_mem_cons]

/-- A value that is `WellFormed` and holds no double is `Exact`. -/
theorem WellFormed.exact {v : Json} (h : v.WellFormed) (hfree : v.isDoubleFree = true) :
    v.Exact := by
  induction h with
  | null => exact .null
  | bool b => exact .bool b
  | string s => exact .string s
  | @number n h =>
    cases n with
    | whole n => exact .whole h
    | double bits => simp [isDoubleFree] at hfree
  | array _ ih =>
    rw [isDoubleFree, areDoubleFree_iff] at hfree
    exact .array fun v hv => ih v hv (hfree v hv)
  | object _ _ ih =>
    rw [isDoubleFree, membersDoubleFree_iff] at hfree
    exact .object fun m hm => ih m hm (hfree m hm)

/-! ## The members of an object in order -/

mutual

/-- The value with the members of every object ascending, and of a repeated name the last, as
`ByName.insert` leaves them. -/
def canonical : Json → Json
  | array items => .array (canonicalItems items)
  | object members => ofMembers (canonicalMembers members)
  | v => v

/-- Values, each in its `canonical` form. -/
def canonicalItems : List Json → List Json
  | [] => []
  | item :: rest => canonical item :: canonicalItems rest

/-- Members with their values in `canonical` form, in the order in which they stand. -/
def canonicalMembers : List (String × Json) → List (String × Json)
  | [] => []
  | (name, value) :: rest => (name, canonical value) :: canonicalMembers rest

end

theorem canonicalItems_eq (items : List Json) : canonicalItems items = items.map canonical := by
  induction items with
  | nil => rfl
  | cons item rest ih => rw [canonicalItems, ih, List.map_cons]

theorem canonicalMembers_eq (members : List (String × Json)) :
    canonicalMembers members = members.map fun m => (m.1, m.2.canonical) := by
  induction members with
  | nil => rfl
  | cons member rest ih => rw [canonicalMembers, ih, List.map_cons]

/-- The members of an object are gathered by `ByName.insertAll`. -/
theorem canonical_object (members : List (String × Json)) :
    canonical (.object members) =
      .object (ByName.insertAll [] (members.map fun m => (m.1, m.2.canonical))) := by
  rw [canonical, canonicalMembers_eq, ofMembers, ByName.insertAll]

/-- A value whose names ascend everywhere is `canonical` already. -/
theorem WellFormed.canonical_eq {v : Json} (h : v.WellFormed) : v.canonical = v := by
  induction h with
  | null | bool | string | number => rfl
  | @array items _ ih =>
    have hitems : items.map canonical = items := by
      rw [List.map_congr_left ih, List.map_id']
    rw [canonical, canonicalItems_eq, hitems]
  | @object members hascending _ ih =>
    have hmembers : members.map (fun m => (m.1, m.2.canonical)) = members := by
      have hsame : ∀ m ∈ members, (m.1, m.2.canonical) = m := fun m hm => Prod.ext rfl (ih m hm)
      rw [List.map_congr_left hsame, List.map_id']
    have hgather := ByName.insertAll_eq_append ((List.nil_append members).symm ▸ hascending)
    rw [canonical_object, hmembers, hgather, List.nil_append]

/-- Members that are put in order, as `canonical` does it, nest no deeper. -/
theorem depth_canonical_le (v : Json) : v.canonical.depth ≤ v.depth := by
  induction v using induct with
  | null | bool | number | string => exact Nat.le_refl _
  | array items ih =>
    rw [canonical, canonicalItems_eq]
    refine Nat.lt_succ_iff.1 (Nat.succ_lt_succ ?_)
    refine (itemsDepth_lt_iff (Nat.succ_pos _)).2 fun v hv => ?_
    obtain ⟨w, hw, rfl⟩ := List.mem_map.1 hv
    exact Nat.lt_of_le_of_lt (ih w hw)
      ((itemsDepth_lt_iff (Nat.succ_pos _)).1 (Nat.lt_succ_self _) w hw)
  | object members ih =>
    rw [canonical_object]
    refine Nat.lt_succ_iff.1 (Nat.succ_lt_succ ?_)
    refine (membersDepth_lt_iff (Nat.succ_pos _)).2 fun m hm => ?_
    obtain ⟨w, hw, rfl⟩ := List.mem_map.1 ((ByName.mem_insertAll hm).resolve_left List.not_mem_nil)
    exact Nat.lt_of_le_of_lt (ih w hw)
      ((membersDepth_lt_iff (Nat.succ_pos _)).1 (Nat.lt_succ_self _) w hw)

end Json

end EventRelay
