import EventRelay.Json.Token

/-!
# Decoding tokens into types

A decoder takes the tokens of one value off the front and answers what the value stands for. It
meets faults in the order of the text and stops at the first: the text is `malformed`, or it is
JSON so far but `mistyped`. Arrays and objects that are kept may nest 127 deep; a value that is
skipped may nest without bound, and its numbers and escapes are not looked into.
-/

namespace EventRelay.Json

/-- Why a text does not decode. -/
inductive Fault where
  /-- The text is no JSON, ends early, nests too deep, or holds a number out of range. -/
  | malformed
  /-- The text is JSON up to a value or an end that does not suit the type. -/
  | mistyped
  deriving DecidableEq, Repr

/-- Takes one value off the front of the tokens; `depth` is how many more arrays and objects may
be entered. -/
def Decoder (α : Type) := (depth : Nat) → List Token → Except Fault (α × List Token)

namespace Decoder

variable {α β : Type}

/-- Decodes nothing. -/
def result (a : α) : Decoder α := fun _ ts => .ok (a, ts)

/-- Stops with a fault. -/
def fail (f : Fault) : Decoder α := fun _ _ => .error f

/-- Goes on with what was decoded. -/
def andThen (d : Decoder α) (f : α → Decoder β) : Decoder β := fun depth ts =>
  match d depth ts with
  | .ok (a, rest) => f a depth rest
  | .error e => .error e

instance : Monad Decoder where
  pure := result
  bind := andThen

/-- Turns the decoded value into another, or finds it mistyped. -/
def refine (d : Decoder α) (f : α → Option β) : Decoder β :=
  d.andThen fun a =>
    match f a with
    | some b => result b
    | none => fail .mistyped

/-- Enters an array or object. -/
def nested (d : Decoder α) : Decoder α := fun depth ts =>
  if depth ≤ 1 then .error .malformed else d (depth - 1) ts

/-- How often arrays and objects of a kept value may be entered before one is too deep. -/
def depthLimit : Nat := 128

/-- Decodes the value at the front of a text and leaves the rest of the text unread. -/
def leading (d : Decoder α) (text : String) : Except Fault α :=
  (d depthLimit (Token.ofChars text.toList)).map Prod.fst

/-- Decodes the tokens of one value and nothing else. -/
def only (d : Decoder α) (ts : List Token) : Except Fault α :=
  match d depthLimit ts with
  | .ok (a, []) => .ok a
  | .ok (_, _ :: _) => .error .malformed
  | .error e => .error e

/-- Decodes a text that holds one value and nothing else. -/
def whole (d : Decoder α) (text : String) : Except Fault α := d.only (Token.ofChars text.toList)

/-! ## Scalars -/

/-- The fault of a token that starts no value of the wanted type. -/
def unexpected : Token → Fault
  | .null | .bool _ | .openBrace | .openBracket | .string (some _) | .number (some _) => .mistyped
  | _ => .malformed

/-- The fault at the front of tokens that start no value of the wanted type. -/
def unexpectedFault : List Token → Fault
  | [] => .malformed
  | t :: _ => unexpected t

/-- A string. -/
def string : Decoder String := fun _ ts =>
  match ts with
  | .string (some s) :: rest => .ok (s, rest)
  | ts => .error (unexpectedFault ts)

/-- A truth value. -/
def bool : Decoder Bool := fun _ ts =>
  match ts with
  | .bool b :: rest => .ok (b, rest)
  | ts => .error (unexpectedFault ts)

/-- A whole number between two bounds. -/
def whole? (low high : Int) : Decoder Int := fun _ ts =>
  match ts with
  | .number (some (.whole n)) :: rest =>
    if low ≤ n ∧ n ≤ high then .ok (n, rest) else .error .mistyped
  | ts => .error (unexpectedFault ts)

/-- A whole number of 64 bits without sign. -/
def nat64 : Decoder Nat := (whole? 0 (Nat.pow 2 64 - 1 : Nat)).andThen fun n => result n.toNat

/-- A whole number of 64 bits with sign. -/
def int64 : Decoder Int := whole? (-Nat.pow 2 63) (Nat.pow 2 63 - 1 : Nat)

/-! ## Arrays and objects -/

/-- The elements after the first comma of an array. -/
def moreElements (d : Decoder α) : Nat → Decoder (List α)
  | 0 => fail .malformed
  | fuel + 1 => d.andThen fun a depth ts =>
    match ts with
    | .comma :: rest => (moreElements d fuel).andThen (fun as => result (a :: as)) depth rest
    | .closeBracket :: rest => .ok ([a], rest)
    | _ => .error .malformed

/-- The elements of an array after its opening bracket. -/
def elements (d : Decoder α) : Decoder (List α) := fun depth ts =>
  match ts with
  | .closeBracket :: rest => .ok ([], rest)
  | ts => moreElements d ts.length depth ts

/-- An array. -/
def list (d : Decoder α) : Decoder (List α) := fun depth ts =>
  match ts with
  | .openBracket :: rest => nested (elements d) depth rest
  | ts => .error (unexpectedFault ts)

/-- A colon and the value after it. -/
def afterColon (d : Decoder α) : Decoder α := fun depth ts =>
  match ts with
  | .colon :: rest => d depth rest
  | _ => .error .malformed

/-- The members of an object from a name on. `member` decodes a member after its name, onto what
the members before it gave. -/
def moreMembers (member : α → String → Decoder α) : Nat → α → Decoder α
  | 0, _ => fail .malformed
  | fuel + 1, a => fun depth ts =>
    match ts with
    | .string (some name) :: rest =>
      match member a name depth rest with
      | .error e => .error e
      | .ok (a, .comma :: rest) => moreMembers member fuel a depth rest
      | .ok (a, .closeBrace :: rest) => .ok (a, rest)
      | .ok _ => .error .malformed
    | _ => .error .malformed

/-- The members of an object after its opening brace. -/
def members (member : α → String → Decoder α) (a : α) : Decoder α := fun depth ts =>
  match ts with
  | .closeBrace :: rest => .ok (a, rest)
  | ts => moreMembers member ts.length a depth ts

/-- An object, read member by member. -/
def object (member : α → String → Decoder α) (a : α) : Decoder α := fun depth ts =>
  match ts with
  | .openBrace :: rest => nested (members member a) depth rest
  | ts => .error (unexpectedFault ts)

/-! ## Free and skipped values -/

/-- A free value in at most `fuel` levels of recursion. -/
def valueWithin : Nat → Decoder Json
  | 0 => fail .malformed
  | fuel + 1 => fun depth ts =>
    match ts with
    | .null :: rest => .ok (.null, rest)
    | .bool b :: rest => .ok (.bool b, rest)
    | .string (some s) :: rest => .ok (.string s, rest)
    | .number (some n) :: rest => .ok (.number n, rest)
    | .openBracket :: rest =>
      (nested (elements (valueWithin fuel))).andThen (fun vs => result (.array vs)) depth rest
    | .openBrace :: rest =>
      (nested (members (fun acc name => (afterColon (valueWithin fuel)).andThen fun v =>
        result (ByName.insert name v acc)) [])).andThen (fun ms => result (.object ms)) depth rest
    | _ => .error .malformed

/-- A free value. Of a name that an object repeats the last value counts. -/
def value : Decoder Json := fun depth ts => valueWithin depth depth ts

/-- What a skipped value is inside of. -/
inductive Enclosing where
  | brace
  | bracket
  deriving DecidableEq

/-- Skips the rest of a value; `stack` is what is still open, and `wanted` says that a value has to
follow next. -/
def skipWithin (wanted : Bool) (stack : List Enclosing) (ts : List Token) :
    Except Fault (List Token) :=
  match wanted, ts with
  | true, .openBracket :: .closeBracket :: rest => skipWithin false stack rest
  | true, .openBracket :: rest => skipWithin true (.bracket :: stack) rest
  | true, .openBrace :: .closeBrace :: rest => skipWithin false stack rest
  | true, .openBrace :: .string _ :: .colon :: rest => skipWithin true (.brace :: stack) rest
  | true, .null :: rest | true, .bool _ :: rest | true, .number _ :: rest
  | true, .string _ :: rest => skipWithin false stack rest
  | true, _ => .error .malformed
  | false, ts =>
    match stack, ts with
    | [], ts => .ok ts
    | .bracket :: _, .comma :: rest => skipWithin true stack rest
    | .brace :: _, .comma :: .string _ :: .colon :: rest => skipWithin true stack rest
    | .bracket :: stack, .closeBracket :: rest => skipWithin false stack rest
    | .brace :: stack, .closeBrace :: rest => skipWithin false stack rest
    | _, _ => .error .malformed
termination_by ts.length

/-- Skips one value. -/
def skip : Decoder Unit := fun _ ts => (skipWithin true [] ts).map fun rest => ((), rest)

end Decoder

end EventRelay.Json
