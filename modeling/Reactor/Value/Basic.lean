import Reactor.Decimal.Basic
import Reactor.Entries
import Reactor.Error
import Reactor.TypeLabel

/-!
# Values

* `Data` : the sixteen kinds of payload. A deferred payload names a lambda, a queue payload names a
  queue; both live in the engine's state.
* `Value` : a payload with attached errors and tags.
* `Value.plain` and the constructors after it build values without notes.
* `Value.withError` and the functions after it change the notes and keep the payload.
-/

namespace Reactor

/-- Names a lambda of the engine. -/
structure LambdaId where
  index : Nat
  deriving DecidableEq, Hashable, Repr, Inhabited

/-- Names a queue of the engine. -/
structure QueueId where
  index : Nat
  deriving DecidableEq, Hashable, Repr, Inhabited

/-- Names a cell of the engine. -/
structure CellId where
  index : Nat
  deriving DecidableEq, Hashable, Repr, Inhabited

/-- What a resolved URI is bound to. -/
inductive Resource where
  | queue (id : QueueId)
  | cell (id : CellId)
  deriving DecidableEq, Repr

/-- A URI, bound to a resource once its scheme has been resolved. -/
structure Uri where
  text : String
  resource : Option Resource := none
  deriving DecidableEq, Repr

/-- What is attached to a payload: errors in the order in which they arose, and tags by key. -/
structure Notes where
  errors : List Error := []
  tags : Entries String String := []
  /-- Copies of one value share a mark. A value that has not been copied has mark zero. Marks are
  kept only where a value may differ from itself. -/
  mark : Nat := 0
  deriving DecidableEq, Repr, Inhabited

mutual

/-- The payload of a value. -/
inductive Data where
  | void
  /-- Absence, possibly of a value of a known type. -/
  | null (of : Option ValueType)
  | boolean (b : Bool)
  | integer (n : Int64)
  | decimal (x : Decimal)
  | string (s : String)
  /-- Milliseconds since the epoch. -/
  | date (millis : Int64)
  | infinity (positive : Bool)
  | list (items : List Value)
  | sequence (items : List Value)
  | map (entries : List (String × Value))
  | range (start stop : Value)
  | uri (uri : Uri)
  | queue (id : QueueId)
  | error (error : Error)
  | lambda (id : LambdaId)

/-- A payload with its notes. -/
inductive Value where
  | mk (data : Data) (notes : Notes)

end

instance : Inhabited Data := ⟨.void⟩
instance : Inhabited Value := ⟨.mk .void {}⟩

namespace Data

/-- The type tag of a payload. -/
def type : Data → ValueType
  | void => .void
  | null _ => .null
  | boolean _ => .boolean
  | integer _ => .integer
  | decimal _ => .decimal
  | string _ => .string
  | date _ => .date
  | infinity _ => .infinity
  | list _ => .list
  | sequence _ => .sequence
  | map _ => .map
  | range .. => .range
  | uri _ => .uri
  | queue _ => .queue
  | error _ => .error
  | lambda _ => .block

/-- The payloads with a text of their own. -/
def isScalar : Data → Bool
  | boolean _ | integer _ | decimal _ | string _ | date _ | infinity _ | uri _ => true
  | _ => false

end Data

namespace Value

/-- The payload. -/
def data : Value → Data
  | mk data _ => data

/-- The notes. -/
def notes : Value → Notes
  | mk _ notes => notes

/-- The attached errors. -/
def errors (v : Value) : List Error :=
  v.notes.errors

/-- The type tag of the payload; a lambda is a block. -/
def tag (v : Value) : ValueType :=
  v.data.type

/-! ## Construction -/

/-- A payload without notes. -/
def plain (data : Data) : Value :=
  mk data {}

def void : Value := plain .void
def null : Value := plain (.null none)
def typedNull (ty : ValueType) : Value := plain (.null (some ty))
def boolean (b : Bool) : Value := plain (.boolean b)
def integer (n : Int64) : Value := plain (.integer n)
def decimal (x : Decimal) : Value := plain (.decimal x)
def string (s : String) : Value := plain (.string s)
def date (millis : Int64) : Value := plain (.date millis)
def infinity (positive : Bool) : Value := plain (.infinity positive)
def list (items : List Value) : Value := plain (.list items)
def sequence (items : List Value) : Value := plain (.sequence items)
def map (entries : Entries String Value) : Value := plain (.map entries)
def range (start stop : Value) : Value := plain (.range start stop)
def uri (uri : Uri) : Value := plain (.uri uri)
def queue (id : QueueId) : Value := plain (.queue id)
def lambda (id : LambdaId) : Value := plain (.lambda id)

/-- An error as a value: it is the payload and it is attached. -/
def failure (error : Error) : Value :=
  mk (.error error) { errors := [error] }

/-- Another payload with the same errors and tags. -/
def withData (v : Value) (data : Data) : Value :=
  mk data { errors := v.notes.errors, tags := v.notes.tags }

/-! ## Inspection -/

/-- The lambda of a deferred value. -/
def lambda? (v : Value) : Option LambdaId :=
  match v.data with
  | .lambda id => some id
  | _ => none

/-- The value is deferred. -/
def isLambda (v : Value) : Bool :=
  v.lambda?.isSome

/-! ## Attached errors -/

/-- Errors are attached, or the payload is one. -/
def hasErrors (v : Value) : Bool :=
  !v.errors.isEmpty || v.data matches .error _

/-- Other errors and tags under the same payload. -/
def rebuild (v : Value) (errors : List Error) (tags : Entries String String) : Value :=
  mk v.data { errors, tags }

/-- Attaches one more error. -/
def withError (v : Value) (error : Error) : Value :=
  v.rebuild (v.errors ++ [error]) v.notes.tags

/-- Attaches more errors. -/
def withErrors (v : Value) (errors : List Error) : Value :=
  v.rebuild (v.errors ++ errors) v.notes.tags

/-- Drops the attached errors; an error payload stays. -/
def clearErrors (v : Value) : Value :=
  if v.errors.isEmpty then v else v.rebuild [] v.notes.tags

/-- The first attached error or the error payload as a failure, else the value. -/
def intoResult (v : Value) : Except Error Value :=
  match v.errors, v.data with
  | error :: _, _ => .error error
  | [], .error error => .error error
  | [], _ => .ok v

/-! ## Tags -/

/-- The tag that holds the fingerprint of a constraint. -/
def constraintTag : String := "constraint"

/-- The text under a tag. -/
def tag? (v : Value) (key : String) : Option String :=
  v.notes.tags.get? key

/-- Sets a tag. -/
def withTag (v : Value) (key text : String) : Value :=
  v.rebuild v.errors (v.notes.tags.insert key text)

/-- Sets a tag that may not change once it is set. -/
def withTagOnce (v : Value) (key text : String) : Except Error Value :=
  match v.tag? key with
  | some old =>
    if old = text then .ok v
    else .error (.new .invalidOperation
      ("Meta '" ++ key ++ "' is already set to '" ++ old ++ "', cannot change it to '" ++ text ++
        "'"))
  | none => .ok (v.withTag key text)

/-- Marks a value with the fingerprint of a constraint; another fingerprint cannot replace it. -/
def constrain (v : Value) (source : String) : Except Error Value :=
  let fingerprint := Digest.short source
  match v.tag? constraintTag with
  | some old =>
    if old = fingerprint then .ok (v.withTag constraintTag fingerprint)
    else .error (.new .constraintViolation
      ("Cannot change the constraint of a value (was " ++ old ++ ")"))
  | none => .ok (v.withTag constraintTag fingerprint)

@[simp] theorem data_mk (data : Data) (notes : Notes) : (mk data notes).data = data := rfl
@[simp] theorem notes_mk (data : Data) (notes : Notes) : (mk data notes).notes = notes := rfl
@[simp] theorem data_plain (data : Data) : (plain data).data = data := rfl
@[simp] theorem errors_plain (data : Data) : (plain data).errors = [] := rfl

@[simp] theorem data_rebuild (v : Value) (errors : List Error) (tags : Entries String String) :
    (v.rebuild errors tags).data = v.data := rfl

@[simp] theorem errors_rebuild (v : Value) (errors : List Error) (tags : Entries String String) :
    (v.rebuild errors tags).errors = errors := rfl

@[simp] theorem errors_withErrors (v : Value) (errors : List Error) :
    (v.withErrors errors).errors = v.errors ++ errors := rfl

@[simp] theorem data_withErrors (v : Value) (errors : List Error) :
    (v.withErrors errors).data = v.data := rfl

end Value

end Reactor
