import Reactor.Engine.World

/-!
# Views of values

* `View` : a value as it stands at one moment. A lambda shows whether it is pending and is not
  forced; a queue shows its items.
* `Value.view` : the view of a value in a state.
-/

namespace Reactor

mutual

/-- What a view shows of a payload. -/
inductive Payload where
  | nothing
  | type (type : ValueType)
  | flag (b : Bool)
  | integer (n : Int)
  | decimal (x : Decimal)
  | text (s : String)
  | items (items : List View)
  | entries (entries : List (String × View))
  | uri (text : String) (resolved : Bool)
  | error (e : Error)
  | block (operation : String) (pending : Bool)

/-- A value as it stands at one moment. -/
inductive View where
  | mk (type : ValueType) (payload : Payload) (errors : List Error) (tags : Entries String String)

end

instance : Inhabited View := ⟨.mk .void .nothing [] []⟩

namespace View

/-- The tags that a view shows. -/
def shownTags : List String := ["constraint", "unit", "name", "origin"]

/-- How far a view looks into a value. -/
def maxDepth : Nat := 1000000

end View

namespace Value

/-- The view of a value down to a depth. -/
def viewAt (w : World) : Nat → Value → View
  | 0, v => .mk v.tag .nothing [] []
  | depth + 1, v =>
    let payload : Payload :=
      match v.data with
      | .void => .nothing
      | .null none => .nothing
      | .null (some type) => .type type
      | .boolean b => .flag b
      | .integer n => .integer n.toInt
      | .decimal x => .decimal x
      | .string s => .text s
      | .date millis => .integer millis.toInt
      | .infinity positive => .flag positive
      | .list items => .items (items.map (viewAt w depth))
      | .sequence items => .items (items.map (viewAt w depth))
      | .map entries => .entries (entries.map fun (key, item) => (key, viewAt w depth item))
      | .range start stop => .items [viewAt w depth start, viewAt w depth stop]
      | .uri uri => .uri uri.text uri.resource.isSome
      | .queue id => .items ((w.queueAt id).items.map (viewAt w depth))
      | .error e => .error e
      | .lambda id =>
        let record := w.lambdaAt id
        .block record.operation (!(record.cache matches .holding _))
    .mk v.tag payload v.errors (v.notes.tags.filter fun (key, _) => View.shownTags.contains key)

/-- The view of a value in a state. -/
def view (v : Value) (w : World) : View :=
  v.viewAt w View.maxDepth

end Value

end Reactor
