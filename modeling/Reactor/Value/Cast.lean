import Reactor.Value.Collection

/-!
# Casts

Whether a type can be cast to another one is a table; whether a value can is then up to the value.

* `castValid` : the table.
* `Value.cast` : converts a value, or fails with an invalid cast.
-/

namespace Reactor

/-- The types, other than its own, that only some values of a type can be cast to. -/
def castTargets : ValueType → List ValueType
  | .void => [.list, .map, .boolean, .sequence]
  | .null | .block | .any => []
  | .error => [.boolean]
  | .integer | .decimal => [.integer, .decimal, .boolean, .date, .list, .sequence, .map]
  | .boolean => [.integer, .decimal, .list, .sequence, .map]
  | .string => [.integer, .decimal, .boolean, .date, .uri, .list, .sequence, .map]
  | .date => [.integer, .decimal, .boolean, .list, .sequence, .map]
  | .infinity => [.decimal, .boolean, .list, .sequence, .map]
  | .list | .sequence => [.list, .sequence, .map, .boolean, .range, .queue]
  | .map => [.list, .sequence, .boolean]
  | .range | .queue => [.list, .sequence, .map, .boolean]
  | .uri => [.boolean, .list, .sequence]

/-- The casts that some value of the first type may allow. Every value can be cast to its own type,
to a string, to void and to null. -/
def castValid (source target : ValueType) : Bool :=
  source == target || [.any, .string, .void, .null].contains target ||
    (castTargets source).contains target

/-- Fails if the table does not allow the cast. -/
def validateCast (source target : ValueType) : Except Error Unit :=
  if castValid source target then .ok () else .error (.invalidCast source target)

namespace Value

/-- The texts that are true as a truth value. -/
def readsTrue (s : String) : Bool :=
  let s := Text.trimBlank s
  Text.equalsIgnoringCase s "true" || Text.equalsIgnoringCase s "yes"

/-- A cast to a number, a truth value or a date, which needs nothing but the payload. -/
def castScalar (data : Data) (target : ValueType) : Except Error Value :=
  let failed := Error.invalidCast data.type target
  let integer := (dataToInteger data).mapError fun _ => failed
  match target with
  | .integer =>
    match data with
    | .decimal x => if x.isFinite then .ok (.integer x.toInt64) else .error failed
    | _ => integer.map .integer
  | .decimal =>
    match data with
    | .date millis => .ok (.decimal (Decimal.ofInt64 millis))
    | _ => ((dataToDecimal data).mapError fun _ => failed).map .decimal
  | .date =>
    match data with
    | .string s =>
      match Calendar.parse? s with
      | some millis => .ok (.date (Int64.ofInt millis))
      | none => .error failed
    | _ => integer.map .date
  | _ => .error failed

/-- Converts a forced value to another type for which the table allows it. -/
def convert (v : Value) (target : ValueType) : Eval Value := do
  match target with
  | .string => return .string (← v.human)
  | .boolean =>
    match v.data with
    | .string s => return .boolean (readsTrue s)
    | data => return .boolean (← truthyData data)
  | .uri => return .uri { text := ← v.human }
  | .list => return .list (← v.toList)
  | .sequence => return .sequence (← v.toList)
  | .map => return .map (← v.toMap)
  | .range =>
    match ← v.toList with
    | [start, stop] => return .range start stop
    | _ => Eval.fail (.invalidCast v.tag target)
  | .queue => return .queue (← Eval.newQueue (← v.toList))
  | .void => return .void
  | .null => return .typedNull v.tag
  | _ => Eval.ofExcept (castScalar v.data target)

/-- Converts the forced value to a type. -/
def cast (v : Value) (target : ValueType) : Eval Value :=
  v.onForced fun v => do
    if v.tag = target ∨ target = .any then return v
    else
      Eval.ofExcept (validateCast v.tag target)
      v.convert target

end Value

end Reactor
