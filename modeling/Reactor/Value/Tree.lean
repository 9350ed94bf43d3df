import Reactor.Calendar
import Reactor.Json.Reader
import Reactor.Number
import Reactor.Value.Forced

/-!
# Values as JSON trees

What JSON has a form of its own for is written in that form. Everything else is an object whose
member `$type` names the type; a map that has such a key itself is wrapped in an object of type
`Map`.

* `Value.toTree`, `Value.toJson` : the tree of a value and its written form.
* `Value.ofTree`, `Value.ofJson` : the value of a tree and of its written form.
-/

namespace Reactor

/-- The member that names the type. -/
def typeKey : String := "$type"

namespace Value

/-- An object of a named type. -/
def tagged (name : String) (members : List (String × Json)) : Json :=
  Json.ofMembers ((typeKey, .string name) :: members)

/-- The tree of a value, to a given depth. -/
def toTreeAt : Nat → Value → Eval Json
  | 0, _ => Eval.exhausted
  | depth + 1, v => v.onForced fun v => do
    match v.data with
    | .void | .lambda _ => return tagged "Void" []
    | .null none => return .null
    | .null (some ty) => return tagged "Null" [("of", .string ty.name)]
    | .boolean b => return .boolean b
    | .integer n => return .integer n
    | .decimal x =>
      if x.isFinite then return .decimal x
      else return tagged "Decimal" [("value", .string (Decimal.bare x))]
    | .string s => return .string s
    | .date millis => return tagged "Date" [("value", .string (Calendar.format millis.toInt))]
    | .infinity positive => return tagged "Infinity" [("positive", .boolean positive)]
    | .list items => return .array (← items.mapM (toTreeAt depth))
    | .sequence items =>
      return tagged "Sequence" [("values", .array (← items.mapM (toTreeAt depth)))]
    | .map entries =>
      let members ← entries.mapM fun (key, item) => do return (key, ← toTreeAt depth item)
      let object := Json.ofMembers members
      if Entries.contains entries typeKey then return tagged "Map" [("entries", object)]
      else return object
    | .range start stop =>
      let start ← toTreeAt depth start
      let stop ← toTreeAt depth stop
      return tagged "Range" [("from", start), ("to", stop)]
    | .uri uri => return tagged "URI" [("value", .string uri.text)]
    | .queue id =>
      let items ← Eval.gets fun w => (w.queueAt id).items
      Eval.holding (itemsPlaces items) do
        return tagged "Queue" [("values", .array (← items.mapM (toTreeAt depth)))]
    | .error e =>
      return tagged "Error"
        [("errorType", .string e.kind.name), ("errorMessage", .string e.message)]

/-- The tree of a value. -/
def toTree (v : Value) : Eval Json := do
  toTreeAt (← Eval.budget) v

/-- The JSON text of a value. -/
def toJson (v : Value) : Eval String := do
  return (← v.toTree).render

/-! ## Reading back -/

/-- A member that an object of a named type must have. -/
def member (members : List (String × Json)) (name key : String) : Except Error Json :=
  match Entries.get? members key with
  | some json => .ok json
  | none => .error (.new .invalidCast ("JSON " ++ name ++ " is missing '" ++ key ++ "'"))

/-- A member that must be a text. -/
def textMember (members : List (String × Json)) (name key : String) : Except Error String := do
  match ← member members name key with
  | .string s => return s
  | _ =>
    .error (.new .invalidCast ("JSON " ++ name ++ " field '" ++ key ++ "' must be a string"))

/-- The reading of an object whose type needs no other tree, or none for other types. -/
def ofTaggedLeaf? (name : String) (members : List (String × Json)) :
    Option (Except Error Value) :=
  match name with
  | "Void" => some (.ok .void)
  | "Null" => some do
    return .typedNull (← ValueType.parse (← textMember members name "of"))
  | "Decimal" => some do
    match Decimal.parse? (← textMember members name "value") with
    | some x => return .decimal x
    | none => .error (.invalidCast .string .decimal)
  | "Date" => some do
    match Calendar.parse? (← textMember members name "value") with
    | some millis => return .date (Int64.ofInt millis)
    | none => .error (.invalidCast .string .date)
  | "Infinity" => some do
    match ← member members name "positive" with
    | .boolean positive => return .infinity positive
    | _ => return .infinity true
  | "URI" => some do
    return .uri { text := ← textMember members name "value" }
  | "Error" => some do
    let kind := (ErrorKind.ofName? (← textMember members name "errorType")).getD .exception
    return .failure (.new kind (← textMember members name "errorMessage"))
  | _ => none

mutual

/-- The value of a tree. -/
def ofTree : Json → Eval Value
  | .null => pure .null
  | .boolean b => pure (.boolean b)
  | .integer n => pure (.integer n)
  | .decimal x => pure (.decimal x)
  | .string s => pure (.string s)
  | .array items => do return .list (← ofTrees items)
  | .object members =>
    match Entries.get? members typeKey with
    | some (.string name) =>
      match ofTaggedLeaf? name members with
      | some leaf => Eval.ofExcept leaf
      | none =>
        match name with
        | "Sequence" => do return .sequence (← ofValues name members members)
        | "Queue" => do
          let items ← ofValues name members members
          return .queue (← Eval.newQueue items)
        | "Range" => do
          let start ← ofMember name "from" members members
          let stop ← ofMember name "to" members members
          return .range start stop
        | "Map" => ofEntries members members
        | _ => Eval.fail (.new .invalidCast ("Unknown JSON type tag '" ++ name ++ "'"))
    | _ => do return .map (← ofMembers members)

/-- The values of the items of an array. -/
def ofTrees : List Json → Eval (List Value)
  | [] => pure []
  | json :: rest => do
    let item ← ofTree json
    let items ← ofTrees rest
    return item :: items

/-- The values of the members of an object, in their order. -/
def ofMembers : List (String × Json) → Eval (List (String × Value))
  | [] => pure []
  | (key, json) :: rest => do
    let item ← ofTree json
    let items ← ofMembers rest
    return (key, item) :: items

/-- The value of a member that must be there. The last argument holds those yet to be searched. -/
def ofMember (name key : String) (all : List (String × Json)) :
    List (String × Json) → Eval Value
  | [] => Eval.fail (.new .invalidCast ("JSON " ++ name ++ " is missing '" ++ key ++ "'"))
  | (k, json) :: rest => if k = key then ofTree json else ofMember name key all rest

/-- The items of the member `values`, which must be an array. -/
def ofValues (name : String) (all : List (String × Json)) :
    List (String × Json) → Eval (List Value)
  | [] => Eval.fail (.new .invalidCast ("JSON " ++ name ++ " is missing 'values'"))
  | (k, json) :: rest =>
    if k = "values" then
      match json with
      | .array items => ofTrees items
      | _ => Eval.fail
        (.new .invalidCast ("JSON " ++ name ++ " field 'values' must be an array"))
    else ofValues name all rest

/-- The map of the member `entries`, which must be an object. -/
def ofEntries (all : List (String × Json)) : List (String × Json) → Eval Value
  | [] => Eval.fail (.new .invalidCast "JSON Map is missing 'entries'")
  | (k, json) :: rest =>
    if k = "entries" then
      match json with
      | .object members => do return .map (← ofMembers members)
      | _ => Eval.fail (.new .invalidCast "JSON Map entries must be an object")
    else ofEntries all rest

end

/-- The failure of reading a text that is not JSON. -/
def invalidJson : Error :=
  .exception "Invalid JSON: *"

/-- The value of a JSON text. -/
def ofJson (text : String) : Eval Value :=
  match Json.parse? text with
  | some json => ofTree json
  | none => Eval.fail invalidJson

end Value

end Reactor
