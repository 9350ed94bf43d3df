import Reactor.Sorting.Runs

/-!
# The stable sort

Short lists are sorted by insertion. Longer ones are cut into runs; those that are not sorted by
themselves are divided at a pivot again and again until few elements are left.

* `Comparison.choosePivot` : the place of an element that may divide a list well.
* `Comparison.divide` : the elements to the left and to the right of a pivot.
* `Comparison.sortByPivots`, `Comparison.sort`.
-/

namespace Reactor.Comparison

variable {m : Type → Type} [Monad m] {α : Type}

/-! ## The pivot -/

/-- The place of the middle one of three elements. -/
@[specialize] def middleOfThree (order : Comparison m α) (xs : Array α) (i j k : Nat) : m Nat := do
  match xs[i]?, xs[j]?, xs[k]? with
  | some a, some b, some c =>
    let x ← order.less a b
    let y ← order.less a c
    if x = y then
      let z ← order.less b c
      return if z = x then j else k
    else return i
  | _, _, _ => return i

/-- The place of an element in the middle of three parts, each of which stands for the elements from
a place on. The first argument bounds how often parts are divided. -/
@[specialize] def middleOfParts (order : Comparison m α) (xs : Array α) :
    Nat → Nat → Nat → Nat → Nat → m Nat
  | 0, _, i, j, k => order.middleOfThree xs i j k
  | steps + 1, length, i, j, k => do
    if length * 8 < 64 then order.middleOfThree xs i j k
    else
      let part := length / 8
      let middle (i : Nat) := order.middleOfParts xs steps part i (i + 4 * part) (i + 7 * part)
      let i ← middle i
      let j ← middle j
      let k ← middle k
      order.middleOfThree xs i j k

/-- The place of an element that may divide a list well. -/
@[specialize] def choosePivot (order : Comparison m α) (xs : Array α) : m Nat :=
  let part := xs.size / 8
  if xs.size < 64 then order.middleOfThree xs 0 (4 * part) (7 * part)
  else order.middleOfParts xs xs.size part 0 (4 * part) (7 * part)

/-! ## Division -/

/-- The elements that pass a test, the last one first, and those that do not. -/
@[specialize] def sift (test : α → m Bool) (sifted : List α × List α) (x : α) :
    m (List α × List α) := do
  if ← test x then return (x :: sifted.1, sifted.2) else return (sifted.1, x :: sifted.2)

/-- The elements that pass a test and those that do not, each in order. The element at one place is
not tested. -/
@[specialize] def divide (test : α → m Bool) (xs : List α) (place : Nat) (passes : Bool) :
    m (List α × List α) := do
  let (yes, no) ← (xs.take place).foldlM (sift test) ([], [])
  let pivot := (xs.drop place).take 1
  let sifted := if passes then (pivot ++ yes, no) else (yes, pivot ++ no)
  let (yes, no) ← (xs.drop (place + 1)).foldlM (sift test) sifted
  return (yes.reverse, no.reverse)

/-! ## The sort -/

/-- The stable sort by dividing at pivots, a number of times at most. The elements are not less than
the given one, if there is one; those equal to it need no further division. -/
@[specialize] def sortByPivots (order : Comparison m α) :
    Nat → Option α → List α → m (List α)
  | divisions, least, xs => do
    if xs.length ≤ smallLimit then order.sortSmall xs
    else
      match divisions with
      | 0 => order.mergeRuns pure true xs
      | divisions + 1 =>
        let place ← order.choosePivot xs.toArray
        match xs[place]? with
        | none => return xs
        | some pivot =>
          let isLeast ← (match least with
            | none => return false
            | some least => return !(← order.less least pivot))
          let (left, right) ← (if isLeast then return ([], xs)
            else divide (fun x => order.less x pivot) xs place false)
          if left.isEmpty then
            let (left, right) ← divide (fun x => return !(← order.less pivot x)) xs place true
            return left ++ (← order.sortByPivots divisions none right)
          else
            let right ← order.sortByPivots divisions (some pivot) right
            return (← order.sortByPivots divisions least left) ++ right

/-- The stable sort by dividing at pivots. -/
@[specialize] def quicksort (order : Comparison m α) (xs : List α) : m (List α) :=
  order.sortByPivots (2 * (xs.length ||| 1).log2) none xs

/-- The most elements that are sorted by insertion. -/
def insertionLimit : Nat := 20

/-- The stable sort. -/
@[specialize] def sort (order : Comparison m α) (xs : List α) : m (List α) :=
  if xs.length ≤ insertionLimit then order.sortByInsertion xs
  else order.mergeRuns order.quicksort (xs.length ≤ 2 * smallLimit) xs

end Reactor.Comparison
