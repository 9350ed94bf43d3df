import Reactor.Value.Text

/-!
# Equality of values

Values of different types may be equal: numbers by size, lists and sequences by their elements, and
other scalars by their texts. Notes do not matter.

* `Value.equals` : equality of the forced values. A value that cannot be forced equals nothing.
  Copies of one value are equal without being forced.
-/

namespace Reactor.Value

/-- Every pair of elements at the same place is equal. -/
def equalItems (equal : Value → Value → Eval Bool) : List Value → List Value → Eval Bool
  | [], [] => pure true
  | x :: xs, y :: ys => do if ← equal x y then equalItems equal xs ys else return false
  | _, _ => pure false

/-- Every entry has an equal one under its key. -/
def equalEntries (equal : Value → Value → Eval Bool) (other : Entries String Value) :
    Entries String Value → Eval Bool
  | [] => pure true
  | (key, x) :: rest =>
    match Entries.get? other key with
    | none => pure false
    | some y => do if ← equal x y then equalEntries equal other rest else return false

/-- Equality of two payloads that are not collections. -/
def equalLeaves (a b : Data) : Bool :=
  match a, b with
  | .void, .void => true
  | .void, _ => false
  | _, .void => false
  | .null x, .null y => x = y
  | .null _, _ => false
  | _, .null _ => false
  | .error x, .error y => x.kind = y.kind ∧ x.message = y.message
  | .error _, _ => false
  | _, .error _ => false
  | .boolean x, .boolean y => x == y
  | .date x, .date y => x == y
  | .uri x, .uri y => x.text == y.text
  | a, b =>
    match Number.of? a, Number.of? b with
    | some m, some n => m.equals n
    | _, _ => a.isScalar && b.isScalar && a.plainText == b.plainText

/-- The elements of a list or a sequence. -/
def items? : Data → Option (List Value)
  | .list items => some items
  | .sequence items => some items
  | _ => none

/-- Equality to a given depth. -/
def equalsAt : Nat → Value → Value → Eval Bool
  | 0, _, _ => Eval.exhausted
  | depth + 1, a, b => do
    if sameCopy a b then return true
    a.onAttempt fun x => b.onAttempt fun y => do
      match x, y with
      | .ok a, .ok b =>
        match a.data, b.data with
        | .range p q, .range r s =>
          if ← equalsAt depth p r then equalsAt depth q s else return false
        | .map x, .map y =>
          if x.length = y.length then equalEntries (equalsAt depth) y x else return false
        | .queue p, .queue q =>
          if p = q then return true
          let w ← Eval.world
          let xs := (w.queueAt p).items
          let ys := (w.queueAt q).items
          if xs.length = ys.length then
            Eval.holding (itemsPlacesBefore xs (itemsPlaces ys)) (equalItems (equalsAt depth) xs ys)
          else return false
        | a, b =>
          match items? a, items? b with
          | some xs, some ys =>
            if xs.length = ys.length then equalItems (equalsAt depth) xs ys else return false
          | _, _ => return equalLeaves a b
      | _, _ => return false

/-- Equality of the forced values. -/
def equals (a b : Value) : Eval Bool := do
  equalsAt (← Eval.budget) a b

/-- Some element equals the value. The elements are on the left. -/
def anyEquals (items : List Value) (v : Value) : Eval Bool :=
  items.anyM fun item => item.equals v

end Reactor.Value
