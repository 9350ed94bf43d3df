import Reactor.Decimal.Basic
import Reactor.Entries
import Reactor.ValueType

/-!
# Tallies of types

* `Counts` : how often each type was seen, for the types that were seen at all.
* `Tally` : counts, with their sum.
* `Tally.types` : the seen types by falling count, ties in declaration order.
* `Tally.probable?` : the type that was seen most often.
* `Tally.probability` : the share of a type in all that was seen.
-/

namespace Reactor

/-- How often each type was seen, for the types that were seen at all. Counts are 64-bit words. -/
abbrev Counts := Entries ValueType UInt64

namespace Counts

/-- The count of a type. -/
def count (counts : Counts) (ty : ValueType) : UInt64 :=
  (Entries.get? counts ty).getD 0

/-- Counts a type a number of times more. -/
def add (counts : Counts) (ty : ValueType) (n : UInt64) : Counts :=
  Entries.insert counts ty (counts.count ty + n)

/-- Adds all counts of another table. -/
def addAll (counts more : Counts) : Counts :=
  more.foldl (fun counts (ty, n) => counts.add ty n) counts

end Counts

/-- How often each type was seen, and how often any was. -/
structure Tally where
  counts : Counts := []
  total : UInt64 := 0
  deriving DecidableEq, Repr, Inhabited

namespace Tally

/-- The count of a type. -/
def count (tally : Tally) (ty : ValueType) : UInt64 :=
  tally.counts.count ty

/-- Counts a type a number of times more. -/
def add (tally : Tally) (ty : ValueType) (n : UInt64) : Tally :=
  { counts := tally.counts.add ty n, total := tally.total + n }

/-- Adds all counts of a table. -/
def addAll (tally : Tally) (counts : Counts) : Tally :=
  counts.foldl (fun tally (ty, n) => tally.add ty n) tally

/-- Nothing was seen. -/
def isEmpty (tally : Tally) : Bool :=
  tally.total == 0

/-- The seen types in declaration order. -/
def seen (tally : Tally) : List ValueType :=
  ValueType.all.filter fun ty => Entries.contains tally.counts ty

/-- The order in which the types are given: by falling count, then as they are declared. -/
def compareGiven (tally : Tally) (s t : ValueType) : Ordering :=
  (compare (tally.count t) (tally.count s)).then (compare s.index t.index)

/-- The seen types by falling count, ties in declaration order. -/
def types (tally : Tally) : List ValueType :=
  tally.seen.mergeSort fun s t => (tally.compareGiven s t).isLE

/-- The order by which the most probable type is chosen: by count, and of two with the same count the one
that is declared first is the greater. -/
def compareProbable (tally : Tally) (s t : ValueType) : Ordering :=
  (compare (tally.count s) (tally.count t)).then (compare t.index s.index)

/-- The greater of two types; the second one, unless the first one is strictly greater. -/
def moreProbable (tally : Tally) (s t : ValueType) : ValueType :=
  if tally.compareProbable s t = .gt then s else t

/-- The type that was seen most often; of several, the one that is declared first. -/
def probable? (tally : Tally) : Option ValueType :=
  match tally.seen with
  | [] => none
  | first :: rest => some (rest.foldl tally.moreProbable first)

/-- The share of a type; zero if nothing was seen. -/
def probability (tally : Tally) (ty : ValueType) : Decimal :=
  if tally.isEmpty then Decimal.zero
  else (Decimal.ofNat (tally.count ty).toNat).div (Decimal.ofNat tally.total.toNat)

/-- A single sight of a type. -/
def certain (ty : ValueType) : Tally :=
  add {} ty 1

end Tally

end Reactor
