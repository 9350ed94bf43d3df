import Reactor.Value.Equality
import Reactor.Sorting.Stable

/-!
# Order of values

Void comes first, then null. Numbers and numeric texts are ordered by size, other scalars by their
texts, lists and sequences element by element. Other pairs cannot be compared.

* `Value.compare` : the order of the forced values.
* `Value.within` : a value lies between the ends of a range.
* `Value.order`, `Value.sortItems` : the stable sort by this order.
-/

namespace Reactor.Value

/-- The order of texts, by code points. -/
def compareText (s t : String) : Ordering :=
  if s < t then .lt else if s = t then .eq else .gt

/-- The order of two payloads that are not both lists or sequences. -/
def compareLeaves (a b : Data) : Except Error Ordering :=
  match a, b with
  | .void, .void => .ok .eq
  | .null _, .null _ => .ok .eq
  | .void, _ => .ok .lt
  | _, .void => .ok .gt
  | .null _, _ => .ok .lt
  | _, .null _ => .ok .gt
  | .boolean x, .boolean y => .ok (Ord.compare x.toNat y.toNat)
  | .date x, .date y => .ok (Ord.compare x.toInt y.toInt)
  | .string x, .string y =>
    match Number.parse? x, Number.parse? y with
    | some m, some n => .ok (m.compare n)
    | _, _ => .ok (compareText x y)
  | a, b =>
    match Number.coerce? a, Number.coerce? b with
    | some m, some n => .ok (m.compare n)
    | _, _ =>
      if a.isScalar && b.isScalar then .ok (compareText a.plainText b.plainText)
      else .error (.invalidOperands "compare" a.type b.type)

/-- The order of the first elements that differ, else of the lengths. -/
def compareItems (order : Value → Value → Eval Ordering) : List Value → List Value → Eval Ordering
  | x :: xs, y :: ys => do
    match ← order x y with
    | .eq => compareItems order xs ys
    | other => return other
  | xs, ys => pure (Ord.compare xs.length ys.length)

/-- The order of the forced values, to a given depth. -/
def compareAt : Nat → Value → Value → Eval Ordering
  | 0, _, _ => Eval.exhausted
  | depth + 1, a, b => a.onForcedBoth b fun a b => do
    match items? a.data, items? b.data with
    | some xs, some ys => compareItems (compareAt depth) xs ys
    | _, _ => Eval.ofExcept (compareLeaves a.data b.data)

/-- The order of the forced values. -/
def compare (a b : Value) : Eval Ordering := do
  compareAt (← Eval.budget) a b

/-- The value lies between the ends, whichever of them is the lower one. -/
def within (v start stop : Value) : Eval Bool := do
  let (low, high) := if (← start.compare stop) = .gt then (stop, start) else (start, stop)
  if (← v.compare low) = .lt then return false
  return (← v.compare high) ≠ .gt

/-- How a sort compares values. The first failure is kept, and a pair that cannot be compared counts
as in order. -/
def order : Comparison (StateT (Option Error) Eval) Value where
  less a b := do
    match ← (a.compare b).attempt with
    | .ok order => return order = .lt
    | .error e =>
      modify (·.or (some e))
      return false
  contradiction :=
    Eval.panic (some "user-provided comparison function does not correctly implement a total order")

/-- The stable sort. If a pair cannot be compared, all is still compared, and the first failure is
the result. -/
def sortItems (items : List Value) : Eval (List Value) := do
  match ← (order.sort items).run none with
  | (_, some e) => Eval.fail e
  | (sorted, none) => return sorted

end Reactor.Value
