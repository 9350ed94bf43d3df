import Reactor.Engine.Resource
import Reactor.Value.Arithmetic
import Reactor.Value.Order

/-!
# Collections

A scalar behaves as a collection of one element, void as an empty one.

* `Value.rangeLength`, `Value.rangeItems` : the elements of a range.
* `Value.toList`, `Value.toMap`, `Value.size`.
* `Value.get`, `Value.set`, `Value.append`, `Value.prepend`, `Value.remove`, `Value.withEntry`.
* `Value.containsValue`, `Value.containsKey`, `Value.keys`.
* `Value.sum`, `Value.product`, `Value.min`, `Value.max`, `Value.avg`.
* `Value.sort`, `Value.reverse`, `Value.unique`.
-/

namespace Reactor.Value

/-! ## Ranges -/

/-- The most elements that a range may be expanded to. -/
def maxRange : Nat := 10000000

/-- What the elements of a range are. -/
inductive RangeKind where
  | integers
  | days
  | characters
  deriving DecidableEq, Repr

/-- The only character of a text. -/
def singleChar? (s : String) : Option Char :=
  match s.toList with
  | [c] => some c
  | _ => none

/-- The kind of a range with its ends as numbers. -/
def rangeEnds (start stop : Data) : Except Error (RangeKind × Int × Int) :=
  match start, stop with
  | .integer m, .integer n => .ok (.integers, m.toInt, n.toInt)
  | .date m, .date n => .ok (.days, m.toInt, n.toInt)
  | .string s, .string t =>
    match singleChar? s, singleChar? t with
    | some c, some d => .ok (.characters, c.toNat, d.toNat)
    | _, _ => .error (.invalidOperands "range" .string .string)
  | start, stop => .error (.invalidOperands "range" start.type stop.type)

/-- The distance between neighbouring elements. -/
def RangeKind.step : RangeKind → Nat
  | .days => 86400000
  | _ => 1

/-- The number of elements, which counts the steps that fit between the ends. -/
def lengthOfEnds : RangeKind × Int × Int → Nat
  | (kind, start, stop) => min ((stop - start).natAbs / kind.step + 1) (wordBound - 1)

/-- The element that a number stands for. A number that is no code point of a character stands for
none. -/
def rangeItem (kind : RangeKind) (n : Int) : Value :=
  match kind with
  | .integers => .integer (Int64.ofInt n)
  | .days => .date (Int64.ofInt n)
  | .characters =>
    if 0 ≤ n && n.toNat.isValidChar then .string (String.singleton (Char.ofNat n.toNat)) else .void

/-- The number of elements of a range. -/
def rangeLength (start stop : Value) : Eval Nat :=
  start.onForcedBoth stop fun start stop => do
    return lengthOfEnds (← Eval.ofExcept (rangeEnds start.data stop.data))

/-- A number of elements from the first end on, in the direction of the second. -/
def itemsOfEnds (length : Nat) : RangeKind × Int × Int → List Value
  | (kind, start, stop) =>
    let step : Int := if start ≤ stop then kind.step else -kind.step
    (List.range length).map fun (i : Nat) => rangeItem kind (start + i * step)

/-- The elements of a range. Its ends are forced once for the number of elements and once more for
the elements. -/
def rangeItems (start stop : Value) : Eval (List Value) := do
  let length ← rangeLength start stop
  if maxRange < length then
    Eval.fail (.new .invalidOperation
      ("Range of " ++ toString length ++ " elements is too large to expand"))
  else
    start.onForcedBoth stop fun start stop => do
      return itemsOfEnds length (← Eval.ofExcept (rangeEnds start.data stop.data))

/-! ## Collections as lists and maps -/

/-- A list, or a sequence if that is what it came from. -/
def sameKind (source : Value) (items : List Value) : Value :=
  match source.data with
  | .sequence _ => .sequence items
  | _ => .list items

/-- The elements. A map has a map of one entry for each of its entries. -/
def toList (v : Value) : Eval (List Value) :=
  v.onForced fun v => do
    match v.data with
    | .void => return []
    | .list items => return items
    | .sequence items => return items
    | .range start stop => rangeItems start stop
    | .queue id => Eval.gets fun w => (w.queueAt id).items
    | .uri uri => (← Eval.ofExcept uri.bound).all
    | .map entries => return entries.map fun (key, item) => .map [(key, item)]
    | _ => return [v]

/-- Works with the elements, which are held meanwhile. -/
def onItems {α : Type} (v : Value) (work : List Value → Eval α) : Eval α := do
  let items ← v.toList
  Eval.holding (itemsPlaces items) (work items)

/-- Elements under their places as keys. -/
def numbered (items : List Value) : Entries String Value :=
  items.zipIdx.map fun (item, i) => (toString i, item)

/-- The entries; elements have their places as keys, and a scalar is under the key `value`. -/
def toMap (v : Value) : Eval (Entries String Value) :=
  v.onForced fun v => do
    match v.data with
    | .void => return []
    | .map entries => return entries
    | .list _ | .sequence _ | .range .. | .queue _ => return numbered (← v.toList)
    | _ => return [("value", v)]

/-- The number of elements; of a string, the number of characters. -/
def size (v : Value) : Eval Nat :=
  v.onForced fun v => do
    match v.data with
    | .void | .null _ | .error _ => return 0
    | .string s => return s.length
    | .list items => return items.length
    | .sequence items => return items.length
    | .map entries => return entries.length
    | .range start stop => rangeLength start stop
    | .queue id => Eval.gets fun w => (w.queueAt id).items.length
    | .uri uri => (← Eval.ofExcept uri.bound).size
    | _ => return 1

/-- There are no elements, or they cannot be counted. -/
def isEmpty (v : Value) : Eval Bool := do
  match ← v.size.attempt with
  | .ok n => return n = 0
  | .error _ => return true

/-! ## Elements -/

/-- The place that a key stands for; a negative number stands for none. -/
def indexOf (key : Value) : Eval (Option Nat) := do
  let n ← key.toInteger
  return if n < 0 then none else some n.toInt.toNat

/-- The element under a key, or void. -/
def get (v key : Value) : Eval Value :=
  v.onForced fun v => do
    let found ← (match v.data with
      | .void | .null _ => pure none
      | .map entries => do return Entries.get? entries (← key.human)
      | .list items | .sequence items => do return (← indexOf key).bind fun i => items[i]?
      | .string s => do
        return (← indexOf key).bind fun i => s.toList[i]?.map fun c => .string (String.singleton c)
      | .range .. | .queue _ =>
        v.onItems fun items => do return (← indexOf key).bind fun i => items[i]?
      | .uri _ => Eval.fail (.invalidOperation "get" .uri)
      | _ => do return if (← indexOf key) = some 0 then some v else none)
    return found.getD .void

/-- The collection with another element under a key; the place behind the last one may be set. -/
def set (v key item : Value) : Eval Value :=
  v.onForced fun v => do
    match v.data with
    | .map entries => return .map (Entries.insert entries (← key.human) item)
    | .list items | .sequence items =>
      match ← indexOf key with
      | some i =>
        if i < items.length then return sameKind v (items.set i item)
        else if i = items.length then return sameKind v (items ++ [item])
        else outOfBounds items.length
      | none => outOfBounds items.length
    | data => Eval.fail (.invalidOperation "set" data.type)
where
  /-- The failure of setting a place that is not there. -/
  outOfBounds (length : Nat) : Eval Value := do
    Eval.fail (.new .invalidOperation
      ("Index " ++ (← key.human) ++ " out of bounds (length: " ++ toString length ++ ")"))

/-- The collection with an element at its end. -/
def append (v item : Value) : Eval Value :=
  v.onForced fun v => do
    match v.data with
    | .void => return .list [item]
    | .list items | .sequence items => return sameKind v (items ++ [item])
    | .map _ =>
      item.onForced fun forced => do
        match forced.data with
        | .map _ => v.plus item
        | other => Eval.fail (.invalidOperands "append" .map other.type)
    | .string s => return .string (s ++ (← item.human))
    | .queue _ | .uri _ => Eval.fail (.invalidOperation "append" v.tag)
    | _ => return .list [v, item]

/-- The collection with an element in front. -/
def prepend (v item : Value) : Eval Value :=
  v.onForced fun v => do
    match v.data with
    | .void => return .list [item]
    | .list items | .sequence items => return sameKind v (item :: items)
    | .string s => return .string ((← item.human) ++ s)
    | .map _ | .queue _ | .uri _ => Eval.fail (.invalidOperation "prepend" v.tag)
    | _ => return .list [item, v]

/-- The collection without the elements that equal the item. -/
def remove (v item : Value) : Eval Value :=
  v.onForced fun v => do
    match v.data with
    | .list _ | .sequence _ | .string _ | .map _ => v.minus item
    | .void => return v
    | other => Eval.fail (.invalidOperation "remove" other.type)

/-- Some element equals the item. A range holds what lies between its ends. -/
def containsValue (v item : Value) : Eval Bool :=
  v.onForced fun v => do
    match v.data with
    | .void | .null _ | .error _ => return false
    | .list items | .sequence items => anyEquals items item
    | .map entries => anyEquals (Entries.values entries) item
    | .string s => return Text.containsText s (← item.human)
    | .range start stop => item.within start stop
    | .queue id =>
      let items ← Eval.gets fun w => (w.queueAt id).items
      Eval.holding (itemsPlaces items) (anyEquals items item)
    | _ => v.equals item

/-- There is an element under the key. -/
def containsKey (v key : Value) : Eval Bool :=
  v.onForced fun v => do
    match v.data with
    | .map entries => return Entries.contains entries (← key.human)
    | .list items | .sequence items => return (← indexOf key).any (· < items.length)
    | .string s => return (← indexOf key).any (· < s.length)
    | _ => return false

/-- The map with an entry; void and null count as empty maps. -/
def withEntry (v : Value) (key : String) (item : Value) : Eval Value :=
  v.onForced fun v => do
    match v.data with
    | .void | .null _ => return .map [(key, item)]
    | .map entries => return .map (Entries.insert entries key item)
    | other => Eval.fail (.invalidOperation "with" other.type)

/-- The keys of a map or the places of a list. -/
def keys (v : Value) : Eval Value := do
  let v ← v.forced
  match v.data with
  | .map entries => return .list ((Entries.keys entries).map .string)
  | .list items | .sequence items =>
    return .list ((List.range items.length).map fun i => .integer (Int64.ofNat i))
  | _ => return .list []

/-- The first element, or void. -/
def first (v : Value) : Eval Value := do
  return (← v.toList).head?.getD .void

/-- The last element, or void. -/
def last (v : Value) : Eval Value := do
  return (← v.toList).getLast?.getD .void

/-! ## Aggregates -/

/-- The elements joined by an operator from the first one on, each in its turn; the default if there
are none. -/
def foldItems (f : Value → Value → Eval Value) (default : Value) : List Value → Eval Value
  | [] => pure default
  | first :: rest => Eval.inTurn places places f first rest

/-- The sum of the elements; zero if there are none. -/
def sum (v : Value) : Eval Value := do
  foldItems plus (.integer 0) (← v.toList)

/-- The product of the elements; one if there are none. -/
def product (v : Value) : Eval Value := do
  foldItems multiply (.integer 1) (← v.toList)

/-- The first element that none comes before, or void. -/
def min (v : Value) : Eval Value := do
  foldItems (fun best item => do return if (← best.compare item) ≠ .gt then best else item) .void
    (← v.toList)

/-- The first element that comes before none, or void. -/
def max (v : Value) : Eval Value := do
  foldItems (fun best item => do return if (← best.compare item) ≠ .lt then best else item) .void
    (← v.toList)

/-- The sum divided by the number of elements; void if there are none. -/
def avg (v : Value) : Eval Value := do
  let count := (← v.toList).length
  if count = 0 then return .void
  else
    let total ← v.sum
    Eval.holding total.places (total.divide (.integer (Int64.ofNat count)))

/-! ## Rearrangements -/

/-- The elements in order; elements of the same rank keep their order. -/
def sort (v : Value) : Eval Value :=
  v.onForced fun v => do
    return sameKind v (← v.onItems sortItems)

/-- The elements in reverse; strings and ranges stay what they are. -/
def reverse (v : Value) : Eval Value :=
  v.onForced fun v => do
    match v.data with
    | .string _ | .range .. => v.negate
    | _ => return sameKind v (← v.toList).reverse

/-- The elements that equal none of those kept before them, each in its turn. -/
def distinct (items : List Value) : Eval (List Value) :=
  Eval.inTurn itemsPlaces places
    (fun kept item => do return if ← anyEquals kept item then kept else kept ++ [item]) [] items

/-- One of each group of equal elements, the first. -/
def unique (v : Value) : Eval Value :=
  v.onForced fun v => do
    return sameKind v (← distinct (← v.toList))

end Reactor.Value
