import EventRelay.Json.Decoder
import EventRelay.Json.Printer

/-!
# Codecs

A codec pairs the decoder of a type with its encoder. Types with named fields get theirs from a list
of fields: such a value is written as an object with the fields in their order, and read from an
object with the fields in any order, unknown ones left out, or from an array of the fields in their
order. A field is never given twice; one that is left out has to have a default.
-/

namespace EventRelay.Json

/-- A decoder and an encoder of one type. -/
structure Codec (α : Type) where
  decode : Decoder α
  encode : α → Json

namespace Codec

/-- Strings. -/
def string : Codec String := ⟨Decoder.string, .string⟩

/-- Truth values. -/
def bool : Codec Bool := ⟨Decoder.bool, .bool⟩

/-- Whole numbers of 64 bits without sign. -/
def nat64 : Codec Nat := ⟨Decoder.nat64, .nat⟩

/-- Whole numbers of 64 bits with sign. -/
def int64 : Codec Int := ⟨Decoder.int64, .int⟩

/-- Free values. -/
def free : Codec Json := ⟨Decoder.value, id⟩

/-- Arrays of values of one type. -/
def list {α : Type} (c : Codec α) : Codec (List α) :=
  ⟨Decoder.list c.decode, fun as => .array (as.map c.encode)⟩

/-- Values written as values of another type; what does not come from one is mistyped. -/
def via {α β : Type} (c : Codec α) (read : α → Option β) (write : β → α) : Codec β :=
  ⟨c.decode.refine read, fun b => c.encode (write b)⟩

/-- Values with a text of their own. -/
def text {α : Type} (read : String → Option α) (write : α → String) : Codec α :=
  string.via read write

/-- The compact text of a value. -/
def write {α : Type} (c : Codec α) (a : α) : String := (c.encode a).compact

/-- Reads a text that holds one value and nothing else. -/
def read {α : Type} (c : Codec α) (text : String) : Except Fault α := c.decode.whole text

/-- What a free value stands for. No number of it is rounded. -/
def ofJson {α : Type} (c : Codec α) (v : Json) : Except Fault α := c.decode.only v.tokens

end Codec

/-- What the compact text of a value reads as: the value, but for the rounding of doubles. -/
def reread (v : Json) : Json := (Codec.free.read v.compact).toOption.getD v

/-! ## Types with named fields -/

/-- A field: its name, its type with a codec, and its value where it is left out. -/
structure Field where
  name : String
  type : Type
  codec : Codec type
  default? : Option type := none

/-- The values of a list of fields. -/
def Values : List Field → Type
  | [] => Unit
  | f :: fs => f.type × Values fs

/-- The values of a list of fields as far as they were read. -/
def Draft : List Field → Type
  | [] => Unit
  | f :: fs => Option f.type × Draft fs

namespace Draft

/-- Nothing was read. -/
def empty : (fs : List Field) → Draft fs
  | [] => ()
  | _ :: fs => (none, empty fs)

/-- All values, if each was read or has a default. -/
def values? : (fs : List Field) → Draft fs → Option (Values fs)
  | [], _ => some ()
  | f :: fs, (a, rest) => do
    let a ← a <|> f.default?
    let values ← values? fs rest
    return (a, values)

/-- Decodes a member after its name: the value of a field, or a value to skip. A field that was
read before is a fault. -/
def member : (fs : List Field) → Draft fs → String → Decoder (Draft fs)
  | [], d, _ => (Decoder.afterColon Decoder.skip).andThen fun _ => Decoder.result d
  | f :: fs, (a, rest), name =>
    if name = f.name then
      if a.isSome then Decoder.fail .mistyped
      else (Decoder.afterColon f.codec.decode).andThen fun a => Decoder.result (some a, rest)
    else (member fs rest name).andThen fun rest => Decoder.result (a, rest)

/-- Decodes the elements of an array as the fields in their order, as many as there are. `more` says
that an element has to follow a comma. -/
def elements : (fs : List Field) → (more : Bool) → Decoder (Draft fs)
  | [], _ => Decoder.result ()
  | f :: fs, more => fun depth ts =>
    match more, ts with
    | _, .closeBracket :: _ => .ok (empty (f :: fs), ts)
    | true, .comma :: rest | false, rest =>
      (f.codec.decode.andThen fun a =>
        (elements fs true).andThen fun d => Decoder.result ((some a, d) : Draft (f :: fs)))
        depth rest
    | true, _ => .error .malformed

end Draft

namespace Decoder

/-- The closing bracket of an array that has to end here. -/
def arrayEnd : Decoder Unit := fun _ ts =>
  match ts with
  | .closeBracket :: rest => .ok ((), rest)
  | _ => .error .malformed

/-- Finds the values of the fields, or a field missing. -/
def complete (fs : List Field) (d : Draft fs) : Decoder (Values fs) :=
  match d.values? with
  | some values => result values
  | none => fail .mistyped

/-- The fields as the members of an object or as the elements of an array. -/
def fields (fs : List Field) : Decoder (Values fs) := fun depth ts =>
  match ts with
  | .openBracket :: rest =>
    nested ((Draft.elements fs false).andThen fun d =>
      (complete fs d).andThen fun values => arrayEnd.andThen fun _ => result values) depth rest
  | ts => ((object (Draft.member fs) (Draft.empty fs)).andThen (complete fs)) depth ts

end Decoder

/-- The members that the fields are written as. -/
def Values.members : (fs : List Field) → Values fs → List (String × Json)
  | [], _ => []
  | f :: fs, (a, rest) => (f.name, f.codec.encode a) :: members fs rest

namespace Codec

/-- A type with named fields, by how it is put together from their values and taken apart. -/
def record {α : Type} (fs : List Field) (ofValues : Values fs → α) (values : α → Values fs) :
    Codec α where
  decode := (Decoder.fields fs).andThen fun v => Decoder.result (ofValues v)
  encode a := .object (Values.members fs (values a))

end Codec

end EventRelay.Json
