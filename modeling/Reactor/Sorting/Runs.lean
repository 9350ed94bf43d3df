import Reactor.Power
import Reactor.Sorting.Small

/-!
# Merging runs

A list is cut into runs, and neighbouring runs are merged in an order that keeps the merges
balanced. A run may stay unsorted until it is merged with one that is sorted; two unsorted runs only
become a longer one.

* `Comparison.sortedStart` : the longest sorted start of a list.
* `Run`, `Comparison.nextRun` : the runs of a list.
* `mergeDepth` : how deep in a balanced tree of merges the point between two runs lies.
* `Comparison.mergeRuns` : the stable sort by merging runs, with a sort for runs that are not.
-/

namespace Reactor

/-- Neighbouring elements. -/
structure Run (α : Type) where
  items : List α
  sorted : Bool

namespace Comparison

variable {m : Type → Type} [Monad m] {α : Type}

/-! ## Finding runs -/

/-- Folds elements until one is refused: the state, and the elements from that one on. -/
@[specialize] def foldWhile {σ : Type} (step : σ → α → m (σ × Bool)) (s : σ) :
    List α → m (σ × List α)
  | [] => return (s, [])
  | x :: xs => do
    let (s, taken) ← step s x
    if taken then foldWhile step s xs else return (s, x :: xs)

/-- Puts an element in front of a strictly falling run, which has its last element first, if it goes
on falling. -/
@[specialize] def extendFalling (order : Comparison m α) (run : List α) (x : α) :
    m (List α × Bool) := do
  match run with
  | [] => return ([x], true)
  | last :: _ => if ← order.less x last then return (x :: run, true) else return (run, false)

/-- Puts an element in front of a rising run, which has its last element first, if it goes on
rising. -/
@[specialize] def extendRising (order : Comparison m α) (run : List α) (x : α) :
    m (List α × Bool) := do
  match run with
  | [] => return ([x], true)
  | last :: _ => if ← order.less x last then return (run, false) else return (x :: run, true)

/-- The longest sorted start of a list, be it rising or strictly falling, in rising order, and the
rest. -/
@[specialize] def sortedStart (order : Comparison m α) : List α → m (List α × List α)
  | x :: y :: xs => do
    if ← order.less y x then foldWhile order.extendFalling [y, x] xs
    else
      let (run, rest) ← foldWhile order.extendRising [y, x] xs
      return (run.reverse, rest)
  | xs => return (xs, [])

/-- The next run of a list and the rest: a sorted start if it is long enough. Otherwise it is a few
elements, which an eager sort puts in order at once, or as many as make a run worth merging. -/
@[specialize] def nextRun (order : Comparison m α) (goodLength : Nat) (eager : Bool) (xs : List α) :
    m (Run α × List α) := do
  let enough := (xs.take goodLength).length = goodLength
  let found ← if enough then order.sortedStart xs else pure ([], xs)
  if enough && goodLength ≤ found.1.length then
    return ({ items := found.1, sorted := true }, found.2)
  else if eager then
    return ({ items := ← order.sortSmall (xs.take smallLimit), sorted := true }, xs.drop smallLimit)
  else return ({ items := xs.take goodLength, sorted := false }, xs.drop goodLength)

/-! ## The tree of merges -/

/-- The number of leading zeros of a word of 64 bits. -/
def leadingZeros (n : Nat) : Nat :=
  if n = 0 then 64 else 63 - n.log2

/-- How deep in the tree of merges of a list of some length the point between two runs lies, given
the starts of the two runs and the end of the second one. -/
def mergeDepth (length start middle stop : Nat) : Nat :=
  let scale := (twoTo 62 + length - 1) / length
  let x := scale * (start + middle) % wordBound
  let y := scale * (middle + stop) % wordBound
  leadingZeros (x ^^^ y)

/-- About the square root of a number. -/
def approximateSqrt (n : Nat) : Nat :=
  let shift := (1 + (n ||| 1).log2) / 2
  (twoTo shift + n / twoTo shift) / 2

/-- The length from which on a sorted run is worth keeping. -/
def goodLength (length : Nat) : Nat :=
  if length ≤ 4096 then min (length - length / 2) 64 else approximateSqrt length

/-! ## Merging -/

/-- Joins two neighbouring runs. They are merged if one of them is sorted. -/
@[specialize] def join (order : Comparison m α) (sort : List α → m (List α)) (left right : Run α) :
    m (Run α) := do
  if left.sorted || right.sorted then
    let xs ← if left.sorted then pure left.items else sort left.items
    let ys ← if right.sorted then pure right.items else sort right.items
    return { items := ← order.merge xs ys, sorted := true }
  else return { items := left.items ++ right.items, sorted := false }

/-- Joins a run with those before it, the last one first, whose depth is not less than a given one.
The first run of all stays. -/
@[specialize] def joinDeeper (order : Comparison m α) (sort : List α → m (List α)) (depth : Nat) :
    List (Run α × Nat) → Run α → m (List (Run α × Nat) × Run α)
  | (left, leftDepth) :: below :: runs, run => do
    if depth ≤ leftDepth then
      order.joinDeeper sort depth (below :: runs) (← order.join sort left run)
    else return ((left, leftDepth) :: below :: runs, run)
  | runs, run => return (runs, run)

/-- Joins the runs of a list. The first argument bounds the number of runs; the others are the
length of the whole list, the runs that wait to be joined with their depths, the last run and its
end, and what comes behind it. -/
@[specialize] def joinRuns (order : Comparison m α) (sort : List α → m (List α)) (eager : Bool)
    (length : Nat) : Nat → List (Run α × Nat) → Run α → Nat → List α → m (Run α)
  | steps + 1, runs, run, stop, xs@(_ :: _) => do
    let (next, rest) ← order.nextRun (goodLength length) eager xs
    let nextStop := stop + next.items.length
    let depth := mergeDepth length (stop - run.items.length) stop nextStop
    let (runs, run) ← order.joinDeeper sort depth runs run
    order.joinRuns sort eager length steps ((run, depth) :: runs) next nextStop rest
  | _, runs, run, _, _ => do return (← order.joinDeeper sort 0 runs run).2

/-- The stable sort by merging runs. The runs that are not sorted when they are needed are sorted by
a sort of their own. -/
@[specialize] def mergeRuns (order : Comparison m α) (sort : List α → m (List α)) (eager : Bool)
    (xs : List α) : m (List α) := do
  if xs.length < 2 then return xs
  let run ← order.joinRuns sort eager xs.length xs.length [] { items := [], sorted := true } 0 xs
  if run.sorted then return run.items else sort run.items

end Comparison

end Reactor
