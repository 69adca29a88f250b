import EventRelay.Http.Query

/-!
# Targets of requests

A client puts the path of what it asks for behind the address of a server, and that address may
bring a path, a query and a fragment of its own. What is sent is the target that the whole comes to:
tabs and line breaks left out, a backslash taken for a slash, segments of dots resolved, characters
that cannot stand in an address written as bytes, and the fragment left out.
-/

namespace EventRelay.Client

/-- The path of a request and the query, if it has one. -/
structure Target where
  path : String
  query? : Option String := none
  deriving DecidableEq

namespace Target

/-- A character that an address is read without. -/
def isDropped (c : Char) : Bool := c == '\t' || c == '\n' || c == '\r'

/-- A byte that is written as it is, apart from some marks. -/
def isPlain (marks : List Char) (b : UInt8) : Bool :=
  0x20 < b && b < 0x7F && !marks.contains (Char.ofNat b.toNat)

/-- A part of an address with the bytes that cannot stand there written as escapes. -/
def escape (marks cs : List Char) : List Char :=
  (Text.utf8 (String.ofList cs)).flatMap fun b =>
    if isPlain marks b then [Char.ofNat b.toNat] else Http.percent b

/-! ## Segments -/

/-- The marks that are escaped in a path. -/
def pathMarks : List Char := ['"', '<', '>', '\x60', '#', '?', '\x7b', '\x7d']

/-- A segment that stands for the place where it is. -/
def isHere (segment : List Char) : Bool :=
  let s := String.ofList (segment.map Char.toLower)
  s == "." || s == "%2e"

/-- A segment that stands for the place above. -/
def isAbove (segment : List Char) : Bool :=
  let s := String.ofList (segment.map Char.toLower)
  s == ".." || s == "%2e." || s == ".%2e" || s == "%2e%2e"

/-- A segment that names a drive, which nothing leads out of. -/
def isDrive : List Char → Bool
  | [c, mark] => c.isAlpha && (mark == ':' || mark == '|')
  | _ => false

/-- The place above the one that segments lead to, the last of them first. -/
def above : List (List Char) → List (List Char)
  | [] => []
  | segment :: rest => if isDrive segment then segment :: rest else rest

/-- Resolves segments; `done` are those before them, the last one first. A path whose last segment
is of dots ends in a slash. -/
def resolve (done : List (List Char)) : List (List Char) → List (List Char)
  | [] => done.reverse
  | segment :: rest =>
    let place := if isAbove segment then above done else done
    if isAbove segment || isHere segment then
      if rest.isEmpty then ([] :: place).reverse else resolve place rest
    else resolve (segment :: done) rest

/-- The path of characters after its first slash. -/
def pathOf (cs : List Char) : String :=
  let segments := (Http.splitAt '/' (cs.map fun c => if c == '\\' then '/' else c)).map
    (escape pathMarks)
  String.ofList ((resolve [] segments).flatMap ('/' :: ·))

/-! ## Queries -/

/-- The marks that are escaped in a query. -/
def queryMarks : List Char := ['"', '#', '<', '>', '\'']

/-- The query of characters in front of a fragment, from the question mark on. -/
def queryOf? : List Char → Option String
  | '?' :: cs => some (String.ofList (escape queryMarks cs))
  | _ => none

/-- The target of an address from the end of the host's name and port on. Nothing but a path, a
query or a fragment can start there. -/
def ofText? (text : String) : Option Target :=
  let (cs, _) := Http.cutAt '#' (text.toList.filter fun c => !isDropped c)
  let path := cs.takeWhile (· != '?')
  let query? := queryOf? (cs.drop path.length)
  match path with
  | [] => some { path := "/", query? }
  | c :: rest => if c == '/' || c == '\\' then some { path := pathOf rest, query? } else none

/-- The target with parameters behind the query that is there. -/
def withParameters (t : Target) (parameters : List (String × String)) : Target :=
  if parameters.isEmpty then t
  else
    let added := Http.Query.write parameters
    match t.query? with
    | none | some "" => { t with query? := some added }
    | some query => { t with query? := some (query ++ "&" ++ added) }

/-- A target as it is sent. -/
def toText (t : Target) : String := t.path ++ (t.query?.map ("?" ++ ·)).getD ""

end Target

end EventRelay.Client
