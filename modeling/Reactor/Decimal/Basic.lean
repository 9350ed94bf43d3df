import Reactor.Power

/-!
# Decimals

A decimal is a binary floating-point number of 64 bits. What a rule needs to know about one is read
off its bits.

* `Decimal` : the bits of a number.
* `Decimal.Shape`, `Decimal.shape` : not a number, an infinity, or `m * 2 ^ q` with a sign.
* `Decimal.totalKey` : the place of a decimal in the total order of the format.
* `Decimal.toInt64`, `Decimal.toCount` : the whole part, kept within a range of integers.
* `Decimal.nearest` : the decimal nearest to a fraction.
* `Decimal.add` and the functions after it: arithmetic, rounded to the nearest decimal.
-/

namespace Reactor

/-- A binary floating-point number of 64 bits. -/
structure Decimal where
  bits : UInt64
  deriving DecidableEq, Repr, Inhabited

namespace Decimal

/-- What the bits of a decimal stand for. -/
inductive Shape where
  | notANumber
  | infinite (negative : Bool)
  /-- The number `m * 2 ^ q`, negated if the flag is set. -/
  | finite (negative : Bool) (m : Nat) (q : Int)
  deriving DecidableEq, Repr

/-- The sign bit is set; so also for negative zero. -/
def isSigned (x : Decimal) : Bool :=
  int64Bound ≤ x.bits.toNat

/-- What a decimal stands for. -/
def shape (x : Decimal) : Shape :=
  let n := x.bits.toNat
  let exponent : Nat := n / twoTo 52 % twoTo 11
  let fraction : Nat := n % twoTo 52
  if exponent == 2047 then if fraction == 0 then .infinite x.isSigned else .notANumber
  else if exponent == 0 then .finite x.isSigned fraction (-1074)
  else .finite x.isSigned (twoTo 52 + fraction) ((exponent : Int) - 1075)

/-- The decimal that a native number is. -/
def ofFloat (x : Float) : Decimal :=
  ⟨x.toBits⟩

/-- The native number that a decimal is. -/
def toFloat (x : Decimal) : Float :=
  Float.ofBits x.bits

def isNotANumber (x : Decimal) : Bool :=
  x.shape matches .notANumber

/-- Neither an infinity nor not a number. -/
def isFinite (x : Decimal) : Bool :=
  x.shape matches .finite ..

def isZero (x : Decimal) : Bool :=
  x.shape matches .finite _ 0 _

/-- Less than zero. -/
def isNegative (x : Decimal) : Bool :=
  x.isSigned && !x.isZero && !x.isNotANumber

/-- The place of a decimal in the total order: signed ones from the largest bits down, then the
others from the smallest bits up. -/
def totalKey (x : Decimal) : Int :=
  let n := x.bits.toNat
  if x.isSigned then (int64Bound : Int) - 1 - n else n

/-- Equality of the numbers: the two zeros are equal, and what is not a number equals nothing. -/
def equals (x y : Decimal) : Bool :=
  !x.isNotANumber && !y.isNotANumber && (x == y || (x.isZero && y.isZero))

/-- The whole part of `m * 2 ^ q`. -/
def wholePart (m : Nat) : Int → Nat
  | .ofNat q => m * twoTo q
  | .negSucc q => m / twoTo (q + 1)

/-- The number `m * 2 ^ q` is whole. -/
def isWhole (m : Nat) : Int → Bool
  | .ofNat _ => true
  | .negSucc q => m % twoTo (q + 1) == 0

/-- The whole part as a 64-bit integer: beyond the range the nearest end, zero if not a number. -/
def toInt64 (x : Decimal) : Int64 :=
  match x.shape with
  | .notANumber => 0
  | .infinite negative => if negative then Int64.minValue else Int64.maxValue
  | .finite negative m q =>
    let n : Int := wholePart m q
    let n := if negative then -n else n
    Int64.ofInt (max (-int64Bound) (min n (int64Bound - 1)))

/-- The whole part as a count: zero below zero and if not a number, at most `2 ^ 64 - 1`. -/
def toCount (x : Decimal) : Nat :=
  match x.shape with
  | .notANumber => 0
  | .infinite negative => if negative then 0 else wordBound - 1
  | .finite negative m q => if negative then 0 else min (wholePart m q) (wordBound - 1)

/-- The decimal that is not a number, without a sign. -/
def notANumber : Decimal :=
  ⟨0x7ff8000000000000⟩

/-- What an operation on numbers gives that has no result: not a number, with the sign bit set. -/
def undefined : Decimal :=
  ⟨0xfff8000000000000⟩

/-- The infinite decimals. -/
def infinity (positive : Bool) : Decimal :=
  if positive then ⟨0x7ff0000000000000⟩ else ⟨0xfff0000000000000⟩

def zero : Decimal := ⟨0⟩
def one : Decimal := ⟨0x3ff0000000000000⟩

/-- The other sign; also of what is not a number. -/
def neg (x : Decimal) : Decimal :=
  ⟨x.bits ^^^ 0x8000000000000000⟩

/-! ## Rounding -/

/-- The whole number nearest to `num / den`. Halfway between two it is the even one. -/
def roundEven (num den : Nat) : Nat :=
  let below := num / den
  let twice := 2 * (num % den)
  if twice < den || (twice == den && below % 2 == 0) then below else below + 1

/-- The exponent of the last place of the decimals around `num / den`, which is positive. The numbers of
bits tell it, except for one place. -/
def lastPlace (num den : Nat) : Int :=
  let q : Int := max (-1074) ((Nat.log2 num : Int) - Nat.log2 den - 53)
  if twoTo 53 * (den * twoTo q.toNat) ≤ num * twoTo (-q).toNat then q + 1 else q

/-- The decimal nearest to `num / den`. Halfway between two it is the one whose last bit is not set, and
beyond the largest one it is infinite. -/
def nearest (num den : Nat) : Decimal :=
  if num == 0 then zero
  else
    let q := lastPlace num den
    let m := roundEven (num * twoTo (-q).toNat) (den * twoTo q.toNat)
    -- If the places overflow, the exponent goes up.
    let n := m + (q + 1074).toNat * twoTo 52
    if n < 2047 * twoTo 52 then ⟨UInt64.ofNat n⟩ else infinity true

/-- The nearest decimal to a natural number. -/
def ofNat (n : Nat) : Decimal :=
  nearest n 1

/-- The nearest decimal to an integer. -/
def ofInt64 (n : Int64) : Decimal :=
  let size := ofNat n.toInt.natAbs
  if n.toInt < 0 then neg size else size

/-- The power `2 ^ q` for `-1074 ≤ q ≤ 971`. -/
def powerOfTwo (q : Int) : Decimal :=
  if q < -1022 then ⟨UInt64.ofNat (twoTo (q + 1074).toNat)⟩
  else ⟨UInt64.ofNat ((q + 1023).toNat * twoTo 52)⟩

/-! ## Arithmetic -/

/-- What is not a number as the result of an operation: its quiet bit is set, the sign and the other
bits stay. -/
def quiet (x : Decimal) : Decimal :=
  ⟨x.bits ||| 0x0008000000000000⟩

/-- An operation on native numbers. The first operand that is not a number is the result, quiet. -/
def lift (f : Float → Float → Float) (x y : Decimal) : Decimal :=
  if x.isNotANumber then x.quiet
  else if y.isNotANumber then y.quiet
  else
    let r := f x.toFloat y.toFloat
    if r.isNaN then undefined else ofFloat r

def add : Decimal → Decimal → Decimal := lift (· + ·)
def sub : Decimal → Decimal → Decimal := lift (· - ·)
def mul : Decimal → Decimal → Decimal := lift (· * ·)
def div : Decimal → Decimal → Decimal := lift (· / ·)

/-- The remainder of truncating division, exactly, with the sign of the dividend. -/
def rem (x y : Decimal) : Decimal :=
  if x.isNotANumber then x.quiet
  else match x.shape, y.shape with
    | _, .notANumber => y.quiet
    | .finite negative m p, .finite _ n q =>
      if n = 0 then undefined
      else
        let low := min p q
        let r := m * twoTo (p - low).toNat % (n * twoTo (q - low).toNat)
        let size := mul (ofNat r) (powerOfTwo low)
        if negative then neg size else size
    | .finite .., .infinite _ => x
    | _, _ => undefined

end Decimal

end Reactor
