import Reactor.Source
import Reactor.ValueType

/-!
# Errors

* `ErrorKind` : the causes that a handler can tell apart.
* `Error` : a cause, its message, and the source fragments it passed through, innermost first.
* `Error.addSource` : records a fragment once, recognised by its short digest.
* The functions from `Error.invalidCast` on hold the wording of each message.
-/

namespace Reactor

/-- The causes of an error. -/
inductive ErrorKind where
  | invalidCast
  | invalidOperation
  | variableNotFound
  | readonly
  | concurrencyViolation
  | purityViolation
  | constraintViolation
  | excessiveRecursion
  | timeout
  /-- Raised by a computation of the host or of a script. -/
  | exception
  /-- A broken invariant of the use of the library; no handler sees it. -/
  | assertion
  deriving DecidableEq, Repr, Inhabited

namespace ErrorKind

/-- Every cause, in declaration order. -/
def all : List ErrorKind :=
  [invalidCast, invalidOperation, variableNotFound, readonly, concurrencyViolation,
   purityViolation, constraintViolation, excessiveRecursion, timeout, exception, assertion]

/-- The name that handlers see. -/
def name : ErrorKind → String
  | invalidCast => "INVALID_CAST"
  | invalidOperation => "INVALID_OPERATION"
  | variableNotFound => "VARIABLE_NOT_FOUND"
  | readonly => "READONLY"
  | concurrencyViolation => "CONCURRENCY_VIOLATION"
  | purityViolation => "PURITY_VIOLATION"
  | constraintViolation => "CONSTRAINT_VIOLATION"
  | excessiveRecursion => "EXCESSIVE_RECURSION"
  | timeout => "TIMEOUT"
  | exception => "EXCEPTION"
  | assertion => "ASSERTION"

/-- The short code of a rendered error. -/
def code : ErrorKind → String
  | invalidCast => "D001"
  | invalidOperation => "D002"
  | variableNotFound => "D003"
  | readonly => "D004"
  | concurrencyViolation => "D005"
  | purityViolation => "D006"
  | constraintViolation => "D007"
  | excessiveRecursion => "D008"
  | timeout => "D009"
  | exception => "D010"
  | assertion => "D011"

/-- The title of the cause in messages. -/
def title : ErrorKind → String
  | invalidCast => "Invalid cast"
  | invalidOperation => "Invalid operation"
  | variableNotFound => "Variable not found"
  | readonly => "Readonly violation"
  | concurrencyViolation => "Concurrency violation"
  | purityViolation => "Purity violation"
  | constraintViolation => "Constraint violation"
  | excessiveRecursion => "Excessive recursion"
  | timeout => "Timeout"
  | exception => "Exception"
  | assertion => "Assertion failed"

/-- The cause with a given name. -/
def ofName? (name : String) : Option ErrorKind :=
  all.find? fun kind => kind.name == name

/-- Whether handlers may intercept the cause. -/
def isRecoverable (kind : ErrorKind) : Bool :=
  kind != assertion

theorem ofName?_name (kind : ErrorKind) : ofName? kind.name = some kind := by
  cases kind <;> decide

end ErrorKind

/-- A failure with the source fragments that it passed through, innermost first. -/
structure Error where
  kind : ErrorKind
  message : String
  sources : List Segment := []
  deriving DecidableEq, Repr, Inhabited

namespace Error

/-- An error that has not passed through any source yet. -/
def new (kind : ErrorKind) (message : String) : Error :=
  { kind, message }

/-- Records that the error passed through a fragment; a fragment already recorded is left out. -/
def addSource (error : Error) (source : Segment) : Error :=
  if error.sources.any fun s => s.hash == source.hash then error
  else { error with sources := error.sources ++ [source] }

/-- The title of the cause and the message. -/
def describe (error : Error) : String :=
  error.kind.title ++ ": " ++ error.message

/-! ## Wording -/

def invalidCast (source target : ValueType) : Error :=
  new .invalidCast ("Cannot cast " ++ source.name ++ " to " ++ target.name)

def invalidOperation (operation : String) (ty : ValueType) : Error :=
  new .invalidOperation ("Cannot apply '" ++ operation ++ "' to " ++ ty.name)

def invalidOperands (operation : String) (left right : ValueType) : Error :=
  new .invalidOperation
    ("Cannot apply '" ++ operation ++ "' to " ++ left.name ++ " and " ++ right.name)

def variableNotFound (name scope : String) : Error :=
  new .variableNotFound ("Variable '" ++ name ++ "' not found in " ++ scope)

def readonly (name : String) : Error :=
  new .readonly ("Cannot change the value of readonly variable '" ++ name ++ "'")

def excessiveRecursion (depth maxDepth : Nat) : Error :=
  new .excessiveRecursion
    ("Excessive recursion detected: depth " ++ toString depth ++ " exceeds maximum of " ++
      toString maxDepth)

def assertion (message : String) : Error :=
  new .assertion message

def exception (message : String) : Error :=
  new .exception message

@[simp] theorem addSource_kind (error : Error) (source : Segment) :
    (error.addSource source).kind = error.kind := by
  unfold addSource; split <;> rfl

@[simp] theorem addSource_message (error : Error) (source : Segment) :
    (error.addSource source).message = error.message := by
  unfold addSource; split <;> rfl

end Error

end Reactor
