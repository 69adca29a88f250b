/-!
# Error codes

Every refusal that leaves the program carries one of ten codes. A code belongs to a kind, and to the
HTTP status that answers it.
-/

namespace EventRelay

/-- What went wrong, as clients are told. -/
inductive ErrorCode where
  | tokenMismatch
  | requestMalformed
  | itemNotFound
  | itemNotLocked
  | itemAlreadyQueued
  | revisionAlreadyExists
  | revisionGap
  | aggregateIdentifierMalformed
  | notFound
  | unknownError
  deriving DecidableEq, Repr

/-- The kinds of error codes. -/
inductive ErrorKind where
  | validation
  | conflict
  | lease
  | notFound
  | unknown
  deriving DecidableEq, Repr

namespace ErrorKind

/-- The name of a kind. -/
def name : ErrorKind → String
  | validation => "Validation"
  | conflict => "Conflict"
  | lease => "Lease"
  | notFound => "NotFound"
  | unknown => "Unknown"

end ErrorKind

namespace ErrorCode

/-- All codes. -/
def all : List ErrorCode :=
  [tokenMismatch, requestMalformed, itemNotFound, itemNotLocked, itemAlreadyQueued,
    revisionAlreadyExists, revisionGap, aggregateIdentifierMalformed, notFound, unknownError]

/-- The text of a code. -/
def text : ErrorCode → String
  | tokenMismatch => "ETOKENMISMATCH"
  | requestMalformed => "EREQUESTMALFORMED"
  | itemNotFound => "EITEMNOTFOUND"
  | itemNotLocked => "EITEMNOTLOCKED"
  | itemAlreadyQueued => "EITEMALREADYQUEUED"
  | revisionAlreadyExists => "EREVISIONALREADYEXISTS"
  | revisionGap => "EREVISIONGAP"
  | aggregateIdentifierMalformed => "EAGGREGATEIDENTIFIERMALFORMED"
  | notFound => "ENOTFOUND"
  | unknownError => "EUNKNOWNERROR"

/-- The code with a text; nothing is trimmed and case counts. -/
def ofText? (s : String) : Option ErrorCode := all.find? fun c => c.text == s

/-- The kind of a code. -/
def kind : ErrorCode → ErrorKind
  | requestMalformed | revisionGap | aggregateIdentifierMalformed => .validation
  | itemAlreadyQueued | revisionAlreadyExists => .conflict
  | tokenMismatch | itemNotFound | itemNotLocked => .lease
  | notFound => .notFound
  | unknownError => .unknown

/-- The HTTP status that answers a code. -/
def status : ErrorCode → Nat
  | requestMalformed | revisionGap | aggregateIdentifierMalformed => 400
  | tokenMismatch => 403
  | itemNotFound | notFound => 404
  | itemNotLocked | itemAlreadyQueued | revisionAlreadyExists => 409
  | unknownError => 500

theorem ofText?_text (c : ErrorCode) : ofText? c.text = some c := by
  cases c <;> decide

end ErrorCode

/-! ## Values that are not accepted -/

/-- Why a value is not accepted. -/
inductive ValueError where
  /-- A rule on its parts is broken. -/
  | invalid (reason : String)
  /-- A text is no identifier of the wanted sort. -/
  | invalidIdentifier (what : String)
  deriving DecidableEq, Repr

namespace ValueError

/-- The text of the error. -/
def message : ValueError → String
  | invalid reason => "validation failed: " ++ reason
  | invalidIdentifier what => "invalid identifier: " ++ what

end ValueError

/-- The code with a text, or why there is none. -/
def ErrorCode.parse (s : String) : Except ValueError ErrorCode :=
  match ofText? s with
  | some c => .ok c
  | none => .error (.invalid ("unknown error code '" ++ s ++ "'"))

end EventRelay
