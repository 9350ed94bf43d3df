/-!
# Comparing, inserting and merging

The parts of a stable sort whose comparisons are computations: which pairs are compared, and in what
order, can be seen from outside.

* `Comparison` : how elements are compared.
* `Comparison.insertBehind`, `Comparison.insertAll` : insertion into a sorted list.
* `Comparison.mergeUp`, `Comparison.mergeDown`, `Comparison.merge` : the merge of two sorted lists.
* `Comparison.mergeFromEnds` : the merge of two halves from both ends at once.
-/

namespace Reactor

/-- How a sort compares elements. -/
structure Comparison (m : Type → Type) (α : Type) where
  /-- The first element belongs before the second one. -/
  less : α → α → m Bool
  /-- Done when a merge from both ends meets elements that it has used already. -/
  contradiction : m Unit

namespace Comparison

variable {m : Type → Type} [Monad m] {α : Type}

/-! ## Insertion -/

/-- Inserts an element behind those that it does not belong before. The list is sorted and has its
last element first. -/
@[specialize] def insertBehind (order : Comparison m α) (x : α) : List α → m (List α)
  | [] => return [x]
  | last :: rest => do
    if ← order.less x last then return last :: (← order.insertBehind x rest)
    else return x :: last :: rest

/-- Inserts elements one after another into a sorted list that has its last element first. -/
@[specialize] def insertAll (order : Comparison m α) (sorted xs : List α) : m (List α) :=
  xs.foldlM (fun sorted x => order.insertBehind x sorted) sorted

/-! ## Merges -/

/-- The merge of two sorted lists from their first elements on, behind those that are done, of which
the last one comes first. -/
@[specialize] def mergeUp (order : Comparison m α) (done : List α) :
    List α → List α → m (List α)
  | [], right => return done.reverse ++ right
  | left, [] => return done.reverse ++ left
  | x :: left, y :: right => do
    if ← order.less y x then order.mergeUp (y :: done) (x :: left) right
    else order.mergeUp (x :: done) left (y :: right)
termination_by left right => left.length + right.length

/-- The merge of two sorted lists, given with their last elements first, from there on. What is done
stands behind it. -/
@[specialize] def mergeDown (order : Comparison m α) (done : List α) :
    List α → List α → m (List α)
  | [], right => return right.reverse ++ done
  | left, [] => return left.reverse ++ done
  | x :: left, y :: right => do
    if ← order.less y x then order.mergeDown (x :: done) left (y :: right)
    else order.mergeDown (y :: done) (x :: left) right
termination_by left right => left.length + right.length

/-- The stable merge of two sorted lists. It starts at the end where the shorter one is used up
first. -/
@[specialize] def merge (order : Comparison m α) (left right : List α) : m (List α) :=
  if left.length ≤ right.length then order.mergeUp [] left right
  else order.mergeDown [] left.reverse right.reverse

/-! ## Merging from both ends -/

/-- What is left of two lists that are merged from both ends, and what is done. -/
structure EndsMerge (α : Type) where
  left : List α
  right : List α
  /-- The lists with their last elements first. -/
  leftBack : List α
  rightBack : List α
  /-- What is done at the front, the last one first. -/
  front : List α := []
  /-- What is done at the back. -/
  back : List α := []
  /-- The number of elements taken from the first list. -/
  fromLeft : Nat := 0

/-- Takes the next element of the front. -/
@[specialize] def takeFront (order : Comparison m α) (s : EndsMerge α) : m (EndsMerge α) := do
  match s.left, s.right with
  | x :: left, y :: right =>
    if ← order.less y x then return { s with right, front := y :: s.front }
    else return { s with left, front := x :: s.front, fromLeft := s.fromLeft + 1 }
  | _, _ => return s

/-- Takes the next element of the back. -/
@[specialize] def takeBack (order : Comparison m α) (s : EndsMerge α) : m (EndsMerge α) := do
  match s.leftBack, s.rightBack with
  | x :: leftBack, y :: rightBack =>
    if ← order.less y x then
      return { s with leftBack, back := x :: s.back, fromLeft := s.fromLeft + 1 }
    else return { s with rightBack, back := y :: s.back }
  | _, _ => return s

/-- Takes a number of elements at each end. -/
@[specialize] def takeFromEnds (order : Comparison m α) : Nat → EndsMerge α → m (EndsMerge α)
  | 0, s => return s
  | n + 1, s => do order.takeFromEnds n (← order.takeBack (← order.takeFront s))

/-- Takes the element in the middle of an odd number from the first list, if it is not used up. -/
def EndsMerge.takeMiddle (s : EndsMerge α) (leftLength : Nat) : EndsMerge α :=
  if s.fromLeft < leftLength then
    { s with front := s.left.take 1 ++ s.front, fromLeft := s.fromLeft + 1 }
  else { s with front := s.right.take 1 ++ s.front }

/-- The merge of two sorted halves from both ends. The second half may have one element more. -/
@[specialize] def mergeFromEnds (order : Comparison m α) (left right : List α) : m (List α) := do
  let start : EndsMerge α :=
    { left, right, leftBack := left.reverse, rightBack := right.reverse }
  let s ← order.takeFromEnds left.length start
  let s := if left.length = right.length then s else s.takeMiddle left.length
  if s.fromLeft ≠ left.length then order.contradiction
  return s.front.reverse ++ s.back

end Comparison

end Reactor
