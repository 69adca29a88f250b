import EventRelay.Http.Escape

/-!
# Queries

The query of an address is a list of names with values. A parameter is looked for by its name:
others are left out, and one that stands twice is refused, whatever its values are.
-/

namespace EventRelay.Http

/-- Cuts characters at a mark, one stretch more than there are marks. -/
def splitAt (mark : Char) : List Char → List (List Char)
  | [] => [[]]
  | c :: rest =>
    if c = mark then [] :: splitAt mark rest
    else
      match splitAt mark rest with
      | [] => [[c]]
      | part :: parts => (c :: part) :: parts

/-- The characters before the first mark and those after it. -/
def cutAt (mark : Char) (cs : List Char) : List Char × List Char :=
  (cs.takeWhile (· ≠ mark), (cs.dropWhile (· ≠ mark)).drop 1)

/-- Names with values, in the order they are written. -/
structure Query where
  parameters : List (String × String) := []

namespace Query

/-- One parameter: a name, and a value after the first equals sign. -/
def parameter (cs : List Char) : String × String :=
  let (name, value) := cutAt '=' cs
  (queryText (String.ofList name), queryText (String.ofList value))

/-- Reads a query: parameters with `&` between them, empty ones left out. -/
def parse (s : String) : Query :=
  ⟨((splitAt '&' s.toList).filter (· ≠ [])).map parameter⟩

/-- The values under a name. -/
def values (q : Query) (name : String) : List String :=
  (q.parameters.filter fun (other, _) => other == name).map (·.2)

/-- A query that cannot be used. -/
inductive Unusable where
  | unusable
  deriving DecidableEq, Repr

/-- The value of a parameter that may be left out. -/
def optional {α : Type} (q : Query) (name : String) (read : String → Option α) :
    Except Unusable (Option α) :=
  match q.values name with
  | [] => .ok none
  | [value] =>
    match read value with
    | some a => .ok (some a)
    | none => .error .unusable
  | _ => .error .unusable

/-- The value of a parameter that has to be there. -/
def required {α : Type} (q : Query) (name : String) (read : String → Option α) :
    Except Unusable α :=
  match q.optional name read with
  | .ok (some a) => .ok a
  | .ok none => .error .unusable
  | .error e => .error e

/-- Writes parameters with `&` between them. -/
def write (parameters : List (String × String)) : String :=
  "&".intercalate (parameters.map fun (name, value) => escape name ++ "=" ++ escape value)

end Query

end EventRelay.Http
