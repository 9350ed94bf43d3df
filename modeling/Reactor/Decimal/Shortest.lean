import Reactor.Decimal.Basic

/-!
# Shortest digits

The text of a decimal has the fewest digits that read back as the same decimal, and among those the
digits nearest to it. The reals that read back as `m * 2 ^ q` form an interval around it, which
holds its ends exactly if `m` is even.

* `Tie` : which of two equally near neighbours is taken.
* `shortest` : the digits and the exponent of ten.
-/

namespace Reactor.Decimal

/-- Which of two equally near grid points is taken. -/
inductive Tie where
  | up
  | even
  deriving DecidableEq, Repr

/-- A positive real scaled to whole numbers: the value and the ends of its interval, all to be
divided by `scale`. -/
structure Interval where
  value : Nat
  low : Nat
  high : Nat
  scale : Nat
  closed : Bool
  deriving DecidableEq, Repr

/-- The interval of the reals that round to `m * 2 ^ q`. The gap below a power of two is half as
wide, except at the smallest exponent. -/
def Interval.of (m : Nat) (q : Int) : Interval :=
  let narrow := m == twoTo 52 && q != -1074
  let up := twoTo q.toNat
  { value := 4 * m * up
    low := (4 * m - if narrow then 1 else 2) * up
    high := (4 * m + 2) * up
    scale := 4 * twoTo (-q).toNat
    closed := m % 2 == 0 }

/-- The real `numerator / denominator` lies in the interval. -/
def Interval.contains (i : Interval) (numerator denominator : Nat) : Bool :=
  let x := numerator * i.scale
  let low := i.low * denominator
  let high := i.high * denominator
  if i.closed then low ≤ x && x ≤ high else low < x && x < high

/-- The power `10 ^ k` as a fraction. -/
def powerOfTen (k : Int) : Nat × Nat :=
  (tenTo k.toNat, tenTo (-k).toNat)

/-- The multiple of `10 ^ k` nearest to the value, if one lies in the interval. -/
def Interval.nearest? (i : Interval) (tie : Tie) (k : Int) : Option Nat :=
  let (num, den) := powerOfTen k
  let below := i.value * den / (i.scale * num)
  let hasBelow := i.contains (below * num) den
  let hasAbove := i.contains ((below + 1) * num) den
  if hasBelow && hasAbove then
    -- Twice the distance from below, against one step of the grid.
    let twice := 2 * (i.value * den - below * num * i.scale)
    let step := num * i.scale
    if twice < step then some below
    else if step < twice then some (below + 1)
    else match tie with
      | .up => some (below + 1)
      | .even => some (if below % 2 == 0 then below else below + 1)
  else if hasBelow then some below
  else if hasAbove then some (below + 1)
  else none

/-- The first grid with a hit, from `10 ^ k` down to `10 ^ (k - fuel)`. -/
def Interval.search (i : Interval) (tie : Tie) : Nat → Int → Nat × Int
  | 0, k => ((i.nearest? tie k).getD 0, k)
  | fuel + 1, k =>
    match i.nearest? tie k with
    | some digits => (digits, k)
    | none => i.search tie fuel (k - 1)

/-- The digits `d` and the exponent `k` of the shortest `d * 10 ^ k` that reads back as
`m * 2 ^ q`, for `0 < m`. -/
def shortest (tie : Tie) (m : Nat) (q : Int) : Nat × Int :=
  -- No grid above this power of ten has a point in the interval.
  let top := ((Nat.log2 m : Int) + 1 + q) * 30103 / 100000 + 1
  (Interval.of m q).search tie 20 top

end Reactor.Decimal
