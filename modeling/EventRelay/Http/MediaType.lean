import EventRelay.Http.Query

/-!
# Media types

The name that a request gives to the type of its body: a type and a subtype with a slash between
them, then parameters after semicolons. A subtype may end in a plus sign and a suffix, and a suffix
of `json` says that the body is JSON just as the subtype `json` does.
-/

namespace EventRelay.Http

namespace MediaType

/-- A character of the words of a media type. -/
def isTokenChar (c : Char) : Bool :=
  c.toNat < 128 && (c.isAlphanum || "!#$%&'*+-.^_\x60|~".toList.contains c)

/-- A character that may stand between quotes. -/
def isQuotable (c : Char) : Bool := 32 ≤ c.toNat && c.toNat < 127

/-- What follows a quoted value: nothing, or after blanks a semicolon and another parameter. -/
def afterQuoted? (cs : List Char) : Option (List Char) :=
  match cs.dropWhile (· == ' ') with
  | [] => some []
  | ';' :: rest => some rest
  | _ => none

/-- What follows the value of a parameter: a word, up to a semicolon or the end, or a quoted value,
whose first character may be a quote itself. -/
def afterValue? : List Char → Option (List Char)
  | ['"'] => none
  | '"' :: c :: rest =>
    match rest.dropWhile fun c => c != '"' && isQuotable c with
    | '"' :: after => if isQuotable c then afterQuoted? after else none
    | _ => none
  | cs =>
    match cs.dropWhile isTokenChar with
    | [] => some []
    | ';' :: rest => if cs.head? = some ';' then none else some rest
    | _ => none

/-- The parameters are well formed; `fuel` bounds their number. -/
def areParameters : (fuel : Nat) → List Char → Bool
  | 0, _ => false
  | fuel + 1, cs =>
    match cs.dropWhile (· == ' ') with
    | [] => true
    | cs =>
      match cs.takeWhile isTokenChar, cs.dropWhile isTokenChar with
      | _ :: _, '=' :: rest => (afterValue? rest).any (areParameters fuel)
      | _, _ => false

/-- A subtype without its suffix, and the suffix: what follows the last plus sign, unless the
subtype starts with that one. -/
def splitSuffix (subtype : List Char) : List Char × Option (List Char) :=
  match subtype.reverse.dropWhile (· != '+') with
  | '+' :: c :: stem => ((c :: stem).reverse, some (subtype.drop (stem.length + 2)))
  | _ => (subtype, none)

/-- A media type says that a body is JSON, in any case and with any parameters. -/
def isJson (mediaType : String) : Bool :=
  let cs := mediaType.toList.map Char.toLower
  let (type, rest) := cutAt '/' cs
  let (subtype, parameters) := cutAt ';' rest
  let (stem, suffix?) := splitSuffix subtype
  type == "application".toList && subtype.all isTokenChar &&
    (stem == "json".toList || suffix? == some "json".toList) &&
    areParameters (parameters.length + 1) parameters

end MediaType

end EventRelay.Http
