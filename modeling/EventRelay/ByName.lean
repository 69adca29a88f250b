/-!
# Values by name

A list of pairs as a finite map: each name stands once, and the names ascend by code point. The
members of JSON objects, the patterns of flows and the lanes of a queue are kept this way.
-/

namespace EventRelay.ByName

variable {α : Type}

/-- Puts a value under a name, in place of the one that is there. -/
def insert (name : String) (value : α) : List (String × α) → List (String × α)
  | [] => [(name, value)]
  | (other, old) :: rest =>
    if name = other then (name, value) :: rest
    else if name < other then (name, value) :: (other, old) :: rest
    else (other, old) :: insert name value rest

/-- The value under a name. -/
def find? (name : String) : List (String × α) → Option α
  | [] => none
  | (other, value) :: rest => if name = other then some value else find? name rest

/-- Takes a name out. -/
def erase (name : String) : List (String × α) → List (String × α)
  | [] => []
  | (other, value) :: rest =>
    if name = other then rest else (other, value) :: erase name rest

/-- The names in their order. -/
def names (entries : List (String × α)) : List String := entries.map (·.1)

/-- The names ascend strictly. -/
def Ascending (entries : List (String × α)) : Prop := (names entries).Pairwise (· < ·)

theorem find?_insert_self (name : String) (value : α) (entries : List (String × α)) :
    find? name (insert name value entries) = some value := by
  induction entries with
  | nil => simp [insert, find?]
  | cons entry rest ih =>
    obtain ⟨other, old⟩ := entry
    by_cases h : name = other
    · simp [insert, find?, h]
    · by_cases hlt : name < other
      · simp [insert, find?, h, hlt]
      · simp [insert, find?, h, hlt, ih]

theorem find?_insert_of_ne {name other : String} (h : other ≠ name) (value : α)
    (entries : List (String × α)) :
    find? other (insert name value entries) = find? other entries := by
  induction entries with
  | nil => simp [insert, find?, h]
  | cons entry rest ih =>
    obtain ⟨first, old⟩ := entry
    by_cases hf : name = first
    · subst hf; simp [insert, find?, h]
    · by_cases hlt : name < first
      · simp [insert, find?, h, hf, hlt]
      · simp [insert, find?, hf, hlt, ih]

end EventRelay.ByName
