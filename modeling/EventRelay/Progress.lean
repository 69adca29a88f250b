import EventRelay.Uuid

/-!
# Progress of consumers

What a flow has settled of an aggregate: every revision up to a watermark, and single revisions
above it. The form is canonical. The revision right above the watermark is never among the single
ones, for settling it moves the watermark up over it and over all that follow without a gap.
-/

namespace EventRelay

/-- Settled revisions: all up to the watermark, and those acknowledged above it, ascending. -/
structure Progress where
  watermark : Nat := 0
  acknowledged : List Nat := []
  deriving DecidableEq, Repr

namespace Progress

instance : Inhabited Progress := ⟨{}⟩

/-- A revision is settled. -/
def isSettled (p : Progress) (revision : Nat) : Bool :=
  revision ≤ p.watermark || p.acknowledged.contains revision

/-- Puts a revision among ascending ones. -/
def insertAscending (n : Nat) : List Nat → List Nat
  | [] => [n]
  | m :: rest =>
    if n < m then n :: m :: rest else if n = m then m :: rest else m :: insertAscending n rest

/-- Moves the watermark up over acknowledged revisions that follow it without a gap. -/
def absorb (watermark : Nat) : List Nat → Progress
  | [] => ⟨watermark, []⟩
  | n :: rest => if n = watermark + 1 then absorb n rest else ⟨watermark, n :: rest⟩

/-- Settles a revision; answers whether it was not settled before. -/
def acknowledge (p : Progress) (revision : Nat) : Bool × Progress :=
  if p.isSettled revision then (false, p)
  else (true, absorb p.watermark (insertAscending revision p.acknowledged))

/-- Settles every revision up to one. -/
def advanceTo (p : Progress) (revision : Nat) : Progress :=
  if revision ≤ p.watermark then p
  else absorb revision (p.acknowledged.filter fun n => revision < n)

end Progress

/-- The progress of each flow on each aggregate; where nothing is kept, nothing is settled. -/
structure ProgressTable where
  records : List ((String × Uuid) × Progress) := []

namespace ProgressTable

instance : Inhabited ProgressTable := ⟨{}⟩

/-- The table in which nothing is settled. -/
def empty : ProgressTable := {}

/-- The progress of a flow on an aggregate. -/
def get (t : ProgressTable) (flow : String) (aggregate : Uuid) : Progress :=
  (t.records.lookup (flow, aggregate)).getD {}

/-- Puts a record in place of the one under its key. -/
def replace (key : String × Uuid) (p : Progress) :
    List ((String × Uuid) × Progress) → List ((String × Uuid) × Progress)
  | [] => [(key, p)]
  | (other, old) :: rest =>
    if key = other then (key, p) :: rest else (other, old) :: replace key p rest

/-- Puts the progress of a flow on an aggregate. -/
def set (t : ProgressTable) (flow : String) (aggregate : Uuid) (p : Progress) : ProgressTable :=
  ⟨replace (flow, aggregate) p t.records⟩

/-- Settles one revision for a flow. -/
def record (t : ProgressTable) (flow : String) (aggregate : Uuid) (revision : Nat) :
    ProgressTable :=
  t.set flow aggregate ((t.get flow aggregate).acknowledge revision).2

/-- Settles every revision up to one for a flow. -/
def advance (t : ProgressTable) (flow : String) (aggregate : Uuid) (revision : Nat) :
    ProgressTable :=
  t.set flow aggregate ((t.get flow aggregate).advanceTo revision)

end ProgressTable

end EventRelay
