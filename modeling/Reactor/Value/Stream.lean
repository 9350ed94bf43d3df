import Reactor.Engine.Resource
import Reactor.Value.Fix

/-!
# Values as streams

A queue, or a URI that is bound to a resource, can be read and written. Reading any other value
gives the value.

* `Value.read`, `Value.write`, `Value.writeAll`, `Value.popTimeout`.
* `Value.subscribe`, `Value.unsubscribe`.
* `Value.drain`, `Value.all`.
-/

namespace Reactor.Value

/-- The resource behind the forced value. -/
def stream? (v : Value) : Eval (Option Resource) := do
  match (← v.forced).data with
  | .queue id => return some (.queue id)
  | .uri uri => return some (← Eval.ofExcept uri.bound)
  | _ => return none

/-- The resource behind the forced value, which must have one. -/
def requireStream (v : Value) (operation : String) : Eval Resource := do
  match ← v.stream? with
  | some resource => return resource
  | none => Eval.fail (.invalidOperation operation (← v.type))

/-- Reads from the resource; a value without one is read itself. -/
def read (v : Value) (blocking mutating : Bool) : Eval Value := do
  match ← v.stream? with
  | some resource => Eval.holding [resource.place] (resource.read blocking mutating)
  | none => v.forced

/-- Writes the deeply fixed item to the resource. -/
def write (v item : Value) (mutating : Bool) : Eval Value := do
  let resource ← v.requireStream "write"
  Eval.holding [resource.place] do
    let item ← item.fixDeep false
    let item ← item.share
    Eval.holding item.places (resource.write item mutating)

/-- Writes items one after another; a queue keeps them. -/
def writeAll (v : Value) (items : List Value) : Eval Unit :=
  Eval.inTurn (fun _ => []) places (fun _ item => do let _ ← v.write item true) () items

/-- Takes an item, waiting for a time at most. -/
def popTimeout (v : Value) (millis : Nat) : Eval Value := do
  let resource ← v.requireStream "pop"
  Eval.holding [resource.place] (resource.readTimeout millis true)

/-- Has an expression evaluated with every value that is written. -/
def subscribe (v : Value) (callback : Callback) : Eval String := do
  (← v.requireStream "subscribe").subscribe callback

/-- Ends a subscription. -/
def unsubscribe (v : Value) (subscription : String) : Eval Bool := do
  (← v.requireStream "unsubscribe").unsubscribe subscription

/-- Takes all items away. -/
def drain (v : Value) : Eval Value := do
  return .list (← (← v.requireStream "drain").drain)

/-- The items, which stay where they are. -/
def all (v : Value) : Eval Value := do
  return .list (← (← v.requireStream "all").all)

end Reactor.Value
