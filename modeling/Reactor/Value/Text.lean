import Reactor.Value.Tree

/-!
# Texts of values

* `Value.human` : the text for people. Strings are bare, void is empty, collections are JSON.
* `Value.script` : a script that gives the value again.
* `Value.parseJson` : the value that the text for people describes.
-/

namespace Reactor

namespace Data

/-- The text of a truth value. -/
def booleanText (b : Bool) : String :=
  if b then "true" else "false"

/-- The text of an infinity. -/
def infinityText (positive : Bool) : String :=
  if positive then "infinity" else "-infinity"

/-- The text of a payload that needs no other value for it. -/
def plainText : Data → String
  | .null _ => "null"
  | .boolean b => booleanText b
  | .integer n => toString n.toInt
  | .decimal x => x.human
  | .string s => s
  | .date millis => Calendar.format millis.toInt
  | .infinity positive => infinityText positive
  | .uri u => u.text
  | .error e => e.describe
  | _ => ""

end Data

namespace Value

/-- The text for people, to a given depth of ranges. -/
def humanAt : Nat → Value → Eval String
  | 0, _ => Eval.exhausted
  | depth + 1, v => v.onAttempt fun outcome => do
    match outcome with
    | .error e => return e.describe
    | .ok v =>
      match v.data with
      | .range start stop =>
        let start ← humanAt depth start
        let stop ← humanAt depth stop
        return start ++ ".." ++ stop
      | .list _ | .sequence _ | .map _ | .queue _ =>
        match ← v.toJson.attempt with
        | .ok text => return text
        | .error e => return e.describe
      | data => return data.plainText

/-- The text for people. -/
def human (v : Value) : Eval String := do
  humanAt (← Eval.budget) v

/-- A script that gives the value again, to a given depth. A queue has none. -/
def scriptAt : Nat → Value → Eval String
  | 0, _ => Eval.exhausted
  | depth + 1, v => v.onForced fun v => do
    match v.data with
    | .void | .lambda _ => return "void"
    | .null (some ty) => return "(null as " ++ ty.name ++ ")"
    | .string s => return Json.quote s
    | .date millis => return "(" ++ Json.quote (Calendar.format millis.toInt) ++ " as Date)"
    | .uri uri => return "(" ++ Json.quote uri.text ++ " as URI)"
    | .range start stop =>
      let start ← scriptAt depth start
      let stop ← scriptAt depth stop
      return "(" ++ start ++ ".." ++ stop ++ ")"
    | .list items | .sequence items =>
      return "[" ++ String.intercalate ", " (← items.mapM (scriptAt depth)) ++ "]"
    | .map entries =>
      let parts ← entries.mapM fun (key, item) => do
        return Json.quote key ++ ": " ++ (← scriptAt depth item)
      return String.singleton '\x7b' ++ String.intercalate ", " parts ++ String.singleton '\x7d'
    | .error e =>
      return "error(" ++ Json.quote e.kind.name ++ ", " ++ Json.quote e.message ++ ")"
    | .queue _ =>
      Eval.fail (.new .invalidOperation "A queue cannot be converted to script")
    | data => return data.plainText

/-- A script that gives the value again. -/
def script (v : Value) : Eval String := do
  scriptAt (← Eval.budget) v

/-- The JSON value of the text for people. -/
def parseJson (v : Value) : Eval Value := do
  ofJson (← v.human)

end Value

end Reactor
