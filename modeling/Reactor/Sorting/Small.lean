import Reactor.Sorting.Merge

/-!
# Sorting a few elements

* `Comparison.sortFour`, `Comparison.sortEight` : a fixed number of elements.
* `Comparison.sortSmall` : up to thirty-two elements. Both halves are sorted by insertion behind a
  few elements that are in order, and then merged.
* `Comparison.sortByInsertion` : any number of elements, which pays for the shortest lists only.
-/

namespace Reactor.Comparison

variable {m : Type → Type} [Monad m] {α : Type}

/-- The stable sort by insertion. -/
@[specialize] def sortByInsertion (order : Comparison m α) (xs : List α) : m (List α) := do
  return (← order.insertAll [] xs).reverse

/-- Two elements in order. -/
@[specialize] def sortTwo (order : Comparison m α) (x y : α) : m (α × α) := do
  if ← order.less y x then return (y, x) else return (x, y)

/-- Four elements in order: two pairs are sorted, then the ends are found, then the middle. -/
@[specialize] def sortFour (order : Comparison m α) (x y z w : α) : m (List α) := do
  let (a, b) ← order.sortTwo x y
  let (c, d) ← order.sortTwo z w
  let lowRight ← order.less c a
  let highLeft ← order.less d b
  let first := if lowRight then c else a
  let last := if highLeft then b else d
  let left := if lowRight then a else if highLeft then c else b
  let right := if highLeft then d else if lowRight then b else c
  let (second, third) ← order.sortTwo left right
  return [first, second, third, last]

/-- The first four elements in order. There are at least as many. -/
@[specialize] def sortFirstFour (order : Comparison m α) (xs : List α) : m (List α) :=
  match xs with
  | x :: y :: z :: w :: _ => order.sortFour x y z w
  | xs => return xs

/-- The first eight elements in order. There are at least as many. -/
@[specialize] def sortEight (order : Comparison m α) (xs : List α) : m (List α) := do
  let left ← order.sortFirstFour xs
  let right ← order.sortFirstFour (xs.drop 4)
  order.mergeFromEnds left right

/-- The number of elements of each half that are sorted before the others are inserted. -/
def presorted (length : Nat) : Nat :=
  if 16 ≤ length then 8 else if 8 ≤ length then 4 else 1

/-- The first elements in order, as many as are sorted before the others are inserted. -/
@[specialize] def sortStart (order : Comparison m α) (count : Nat) (xs : List α) : m (List α) :=
  match count with
  | 8 => order.sortEight xs
  | 4 => order.sortFirstFour xs
  | _ => return xs.take 1

/-- The most elements that are sorted without being divided further. -/
def smallLimit : Nat := 32

/-- The stable sort of a few elements. -/
@[specialize] def sortSmall (order : Comparison m α) (xs : List α) : m (List α) := do
  if xs.length < 2 then return xs
  let half := xs.length / 2
  let count := presorted xs.length
  let left := xs.take half
  let right := xs.drop half
  let leftStart ← order.sortStart count left
  let rightStart ← order.sortStart count right
  let left ← order.insertAll leftStart.reverse (left.drop count)
  let right ← order.insertAll rightStart.reverse (right.drop count)
  order.mergeFromEnds left.reverse right.reverse

end Reactor.Comparison
