import EventRelay.ByName
import EventRelay.Decimal.Written

/-!
# JSON values

The free values that events, snapshots and claims carry. Whole numbers of 64 bits stay whole
numbers, every other number is a double. The members of an object stand in ascending order of
their names by code point, each name once.
-/

namespace EventRelay

/-- A number of a JSON text. -/
inductive Number where
  /-- A whole number, from `-2 ^ 63` up to `2 ^ 64 - 1`. -/
  | whole (value : Int)
  /-- Any other number, as the bits of a finite double. -/
  | double (bits : UInt64)
  deriving DecidableEq, Inhabited

/-- A JSON value. -/
inductive Json where
  | null
  | bool (value : Bool)
  | number (value : Number)
  | string (value : String)
  | array (items : List Json)
  | object (members : List (String × Json))
  deriving Inhabited

namespace Json

/-- The object with the members of a list, later ones of a name replacing earlier ones. -/
def ofMembers (members : List (String × Json)) : Json :=
  object (members.foldl (fun acc (name, value) => ByName.insert name value acc) [])

/-- A whole number. -/
def nat (n : Nat) : Json := number (.whole n)

/-- A whole number. -/
def int (n : Int) : Json := number (.whole n)

/-- The value of a member of an object. -/
def member? (name : String) : Json → Option Json
  | object members => ByName.find? name members
  | _ => none

/-- The members of an object, or none. -/
def members : Json → List (String × Json)
  | object members => members
  | _ => []

/-- The items of an array, or none. -/
def items : Json → List Json
  | array items => items
  | _ => []

mutual

/-- The value holds no double. -/
def isDoubleFree : Json → Bool
  | number (.double _) => false
  | array items => areDoubleFree items
  | object members => membersDoubleFree members
  | _ => true

/-- No value of a list holds a double. -/
def areDoubleFree : List Json → Bool
  | [] => true
  | item :: rest => isDoubleFree item && areDoubleFree rest

/-- No value of a list of members holds a double. -/
def membersDoubleFree : List (String × Json) → Bool
  | [] => true
  | (_, value) :: rest => isDoubleFree value && membersDoubleFree rest

end

end Json

end EventRelay
