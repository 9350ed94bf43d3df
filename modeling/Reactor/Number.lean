import Reactor.Decimal.Text
import Reactor.Power
import Reactor.Text.Blank
import Reactor.Value.Basic

/-!
# Numbers

* `Number` : the numeric view of a value: a 64-bit integer, a decimal or a signed infinity.
* `Number.of?`, `Number.coerce?` : the view of a payload, and the same with numeric texts.
* `Number.compare` : the total order of numbers.
* `Number.add` and the functions after it: arithmetic. A result that does not fit in an integer
  becomes a decimal.
-/

namespace Reactor

/-- The numeric view of a value. -/
inductive Number where
  | int (n : Int64)
  | dec (x : Decimal)
  | inf (positive : Bool)
  deriving DecidableEq, Repr

/-- An integer as a 64-bit word, if it fits. -/
def int64? (n : Int) : Option Int64 :=
  if -int64Bound ≤ n ∧ n < int64Bound then some (Int64.ofInt n) else none

/-- Reads a 64-bit integer numeral. -/
def readInt64? (s : String) : Option Int64 :=
  (Text.integerBelow? (int64Bound + 1) s).bind int64?

namespace Number

/-- The number that a payload is. -/
def of? : Data → Option Number
  | .integer n => some (int n)
  | .decimal x => some (dec x)
  | .infinity positive => some (inf positive)
  | _ => none

/-- Reads a number; blanks around it do not matter, and it must be finite. -/
def parse? (s : String) : Option Number :=
  let s := Text.trimBlank s
  match readInt64? s with
  | some n => some (int n)
  | none =>
    match Decimal.parse? s with
    | some x => if x.isFinite then some (dec x) else none
    | none => none

/-- The number that a payload is or that its text shows. -/
def coerce? : Data → Option Number
  | .string s => parse? s
  | data => of? data

/-- The decimal nearest to a number. -/
def toDecimal : Number → Decimal
  | int n => Decimal.ofInt64 n
  | dec x => x
  | inf positive => Decimal.infinity positive

def isZero : Number → Bool
  | int n => n == 0
  | dec x => x.isZero
  | inf _ => false

def isNegative : Number → Bool
  | int n => n < 0
  | dec x => x.isNegative
  | inf positive => !positive

def isPositive (n : Number) : Bool :=
  !n.isZero && !n.isNegative

/-- The payload of a number. -/
def toData : Number → Data
  | int n => .integer n
  | dec x => .decimal x
  | inf positive => .infinity positive

/-- Equality of numbers; an infinity equals only itself. -/
def equals : Number → Number → Bool
  | int m, int n => m == n
  | inf p, inf q => p == q
  | inf _, _ => false
  | _, inf _ => false
  | m, n => m.toDecimal.equals n.toDecimal

/-- The total order of numbers: infinities at the ends, integers by size, and decimals by the total
order of their format. -/
def compare : Number → Number → Ordering
  | int m, int n => Ord.compare m.toInt n.toInt
  | inf p, inf q => Ord.compare p.toNat q.toNat
  | inf p, _ => if p then .gt else .lt
  | _, inf q => if q then .lt else .gt
  | m, n => Ord.compare (Decimal.totalKey m.toDecimal) (Decimal.totalKey n.toDecimal)

/-! ## Arithmetic -/

/-- The integer if it fits, else a decimal. -/
@[inline] def fit (n : Int) (otherwise : Decimal) : Number :=
  match int64? n with
  | some n => int n
  | none => dec otherwise

/-- The sum of two integers fits. It does not if they have the same sign and the wrapped sum has the
other one. -/
def sumFits (m n : Int64) : Bool :=
  (m < 0) != (n < 0) || (m + n < 0) == (m < 0)

/-- The difference of two integers fits. -/
def differenceFits (m n : Int64) : Bool :=
  (m < 0) == (n < 0) || (m - n < 0) == (m < 0)

theorem sumFits_iff (m n : Int64) :
    sumFits m n = true ↔
      -int64Bound ≤ m.toInt + n.toInt ∧ m.toInt + n.toInt < int64Bound := by
  have := m.le_toInt
  have := m.toInt_lt
  have := n.le_toInt
  have := n.toInt_lt
  simp only [sumFits, int64Bound, Bool.or_eq_true, bne_iff_ne, ne_eq, beq_iff_eq, decide_eq_decide,
    Int64.lt_iff_toInt_lt, Int64.toInt_add, Int64.toInt_zero, Int.bmod]
  omega

theorem differenceFits_iff (m n : Int64) :
    differenceFits m n = true ↔
      -int64Bound ≤ m.toInt - n.toInt ∧ m.toInt - n.toInt < int64Bound := by
  have := m.le_toInt
  have := m.toInt_lt
  have := n.le_toInt
  have := n.toInt_lt
  simp only [differenceFits, int64Bound, Bool.or_eq_true, beq_iff_eq, decide_eq_decide,
    Int64.lt_iff_toInt_lt, Int64.toInt_sub, Int64.toInt_zero, Int.bmod]
  omega

/-- Opposite infinities have no sum. -/
def add : Number → Number → Number
  | inf p, inf q => if p == q then inf p else dec Decimal.notANumber
  | inf p, _ => inf p
  | _, inf q => inf q
  | int m, int n =>
    if sumFits m n then int (m + n) else dec ((Decimal.ofInt64 m).add (Decimal.ofInt64 n))
  | m, n => dec (m.toDecimal.add n.toDecimal)

/-- Equal infinities have no difference. -/
def sub : Number → Number → Number
  | inf p, inf q => if p == q then dec Decimal.notANumber else inf p
  | inf p, _ => inf p
  | _, inf q => inf (!q)
  | int m, int n =>
    if differenceFits m n then int (m - n)
    else dec ((Decimal.ofInt64 m).sub (Decimal.ofInt64 n))
  | m, n => dec (m.toDecimal.sub n.toDecimal)

/-- The sum of two integers is exact if it fits. -/
theorem add_int (m n : Int64) :
    add (int m) (int n) =
      fit (m.toInt + n.toInt) ((Decimal.ofInt64 m).add (Decimal.ofInt64 n)) := by
  simp only [add, fit, int64?, sumFits_iff]
  split <;> simp [Int64.ofInt_add]

/-- The difference of two integers is exact if it fits. -/
theorem sub_int (m n : Int64) :
    sub (int m) (int n) =
      fit (m.toInt - n.toInt) ((Decimal.ofInt64 m).sub (Decimal.ofInt64 n)) := by
  simp only [sub, fit, int64?, differenceFits_iff]
  split <;> simp [Int64.ofInt_sub]

/-- Infinity times zero is zero. -/
def mul : Number → Number → Number
  | inf p, n => if n.isZero then int 0 else inf (p != n.isNegative)
  | m, inf q => if m.isZero then int 0 else inf (q != m.isNegative)
  | int m, int n => fit (m.toInt * n.toInt) ((Decimal.ofInt64 m).mul (Decimal.ofInt64 n))
  | m, n => dec (m.toDecimal.mul n.toDecimal)

/-- The quotient of two integers: an integer if it is exact and fits. The divisor is not zero. -/
def quotient (m n : Int64) : Number :=
  if m.toInt.tmod n.toInt = 0 then
    fit (m.toInt.tdiv n.toInt) ((Decimal.ofInt64 m).div (Decimal.ofInt64 n))
  else dec ((Decimal.ofInt64 m).div (Decimal.ofInt64 n))

/-- Division by zero gives an infinity with the sign of the dividend, and division by an infinity
gives zero. -/
def div : Number → Number → Number
  | inf _, inf _ => dec Decimal.notANumber
  | _, inf _ => int 0
  | inf p, n => inf (p != n.isNegative)
  | m, n =>
    if n.isZero then inf (!m.isNegative)
    else match m, n with
      | int m, int n => quotient m n
      | m, n => dec (m.toDecimal.div n.toDecimal)

/-- The remainder of truncating division. A zero divisor gives an infinity. -/
def rem (m n : Number) : Number :=
  if n.isZero then inf (!m.isNegative)
  else match m, n with
    | inf _, _ => dec Decimal.notANumber
    | m, inf _ => m
    | int m, int n => int (Int64.ofInt (m.toInt.tmod n.toInt))
    | m, n => dec (m.toDecimal.rem n.toDecimal)

def neg : Number → Number
  | int n => fit (-n.toInt) (Decimal.ofInt64 n).neg
  | dec x => dec x.neg
  | inf p => inf (!p)

/-- A word is the integer it was made from, if that fits. -/
theorem toInt_of_int64? {n : Int} {m : Int64} (h : int64? n = some m) : m.toInt = n := by
  unfold int64? at h
  split at h
  · rename_i hn
    obtain rfl := Option.some.inj h
    exact Int64.toInt_ofInt_of_le hn.1 hn.2
  · cases h

end Number

end Reactor
