import EventRelay.Log.Error

/-!
# Ranges of revisions

A range includes both of its ends and may be open at either. No range begins or ends at revision 0,
and none ends before it begins.
-/

namespace EventRelay

/-- Revisions from one to another, both included. -/
structure RevisionRange where
  first? : Option Nat := none
  last? : Option Nat := none
  first_pos : ∀ n, first? = some n → 1 ≤ n := by simp
  last_pos : ∀ n, last? = some n → 1 ≤ n := by simp
  first_le_last : ∀ m n, first? = some m → last? = some n → m ≤ n := by simp

namespace RevisionRange

/-- Every revision. -/
def all : RevisionRange := {}

/-- The range with the given ends, or why there is none. -/
def between (first? last? : Option Nat) : Except LogError RevisionRange :=
  if h1 : first? = some 0 then .error (.validation "fromRevision must be at least 1")
  else if h2 : last? = some 0 then .error (.validation "toRevision must be at least 1")
  else if h3 : ∃ m, m ∈ first? ∧ ∃ n, n ∈ last? ∧ n < m then
    .error (.validation "toRevision must be greater or equal to fromRevision")
  else .ok
    { first? := first?
      last? := last?
      first_pos := fun n hn => by
        rcases n with _ | n
        · exact absurd hn h1
        · omega
      last_pos := fun n hn => by
        rcases n with _ | n
        · exact absurd hn h2
        · omega
      first_le_last := fun m n hm hn => by
        rcases Nat.lt_or_ge n m with h | h
        · exact absurd ⟨m, hm, n, hn, h⟩ h3
        · exact h }

/-- The revision that the range begins with. -/
def first (r : RevisionRange) : Nat := r.first?.getD 1

/-- A revision is not past the end. -/
def reaches (r : RevisionRange) (revision : Nat) : Bool :=
  match r.last? with
  | none => true
  | some last => revision ≤ last

/-- A revision lies in the range. -/
def contains (r : RevisionRange) (revision : Nat) : Bool :=
  r.first ≤ revision && r.reaches revision

/-- The range has no end of its own on either side. -/
def isAll (r : RevisionRange) : Bool := r.first?.isNone && r.last?.isNone

end RevisionRange

end EventRelay
