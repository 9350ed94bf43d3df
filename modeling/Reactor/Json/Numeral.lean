import Reactor.Json.Basic

/-!
# Numbers in JSON texts

A number with neither point nor exponent is a whole number if it fits in 64 bits. Any other number
is taken from its leading digits, as many as fit in an unsigned word of 64 bits, and scaled by
powers of ten in floating-point arithmetic.

* `Json.Numeral.read?` : reads a number from the front of a list of characters.
-/

namespace Reactor.Json.Numeral

/-- The largest unsigned word of 64 bits. -/
def maxWord : Nat := wordBound - 1

/-- The largest signed word of 32 bits, beyond which an exponent is not counted. -/
def maxExponent : Nat := twoTo 31 - 1

/-- The digits taken so far, as a number, and the power of ten that scales it. -/
structure Scaled where
  digits : Nat
  exponent : Int
  deriving DecidableEq, Repr

/-- The digit that a character stands for. -/
def digit? (c : Char) : Option Nat :=
  if c.isDigit then some (c.toNat - 48) else none

/-- The power `10 ^ n` for `n ≤ 308`. -/
def decimalTenTo (n : Nat) : Decimal :=
  Decimal.ofScientific 1 n

/-- Scales by a power of ten: one product or quotient within `10 ^ 308`, and quotients by
`10 ^ 308` before that for smaller powers. None if the number is too large. -/
def scale? : Nat → Decimal → Int → Option Decimal
  | fuel, x, exponent =>
    if exponent.natAbs ≤ 308 then
      if 0 ≤ exponent then
        let y := Decimal.mul x (decimalTenTo exponent.natAbs)
        if y.isFinite then some y else none
      else some (Decimal.div x (decimalTenTo exponent.natAbs))
    else if x.isZero then some x
    else if 0 ≤ exponent then none
    else match fuel with
      | 0 => some Decimal.zero
      | fuel + 1 => scale? fuel (Decimal.div x (decimalTenTo 308)) (exponent + 308)

/-- The decimal of a sign and a size. -/
def withSign (negative : Bool) (x : Decimal) : Decimal :=
  if negative then x.neg else x

/-- The decimal of a sign and scaled digits. After three quotients nothing is left of a word. -/
def decimal? (negative : Bool) (n : Scaled) : Option Decimal :=
  (scale? 4 (Decimal.ofNat n.digits) n.exponent).map (withSign negative)

/-- Takes digits in front of the point. Digits beyond the first word only raise the exponent. -/
def takeWhole : List Char → Scaled → Bool → Scaled × Bool × List Char
  | [], n, full => (n, full, [])
  | c :: cs, n, full =>
    match digit? c with
    | none => (n, full, c :: cs)
    | some d =>
      let next := 10 * n.digits + d
      if full || maxWord < next then takeWhole cs { n with exponent := n.exponent + 1 } true
      else takeWhole cs { n with digits := next } false

/-- Takes digits behind the point. Digits beyond the first word are passed over. -/
def takePlaces : List Char → Scaled → Bool → Scaled × List Char
  | [], n, _ => (n, [])
  | c :: cs, n, full =>
    match digit? c with
    | none => (n, c :: cs)
    | some d =>
      let next := 10 * n.digits + d
      if full || maxWord < next then takePlaces cs n true
      else takePlaces cs { digits := next, exponent := n.exponent - 1 } false

/-- The end of the exponent of a number. Exponents that do not fit in a word make zero or fail. -/
def withExponent? (negative : Bool) (n : Scaled) (cs : List Char) : Option (Decimal × List Char) :=
  let (down, cs) :=
    match cs with
    | '+' :: cs => (false, cs)
    | '-' :: cs => (true, cs)
    | cs => (false, cs)
  let digits := cs.takeWhile Char.isDigit
  let rest := cs.dropWhile Char.isDigit
  if digits.isEmpty then none
  else
    let exponent := Text.cappedValue (maxExponent + 1) digits
    if maxExponent < exponent then
      if n.digits != 0 && !down then none else some (withSign negative Decimal.zero, rest)
    else
      let exponent := if down then n.exponent - exponent else n.exponent + exponent
      (decimal? negative { n with exponent }).map fun x => (x, rest)

/-- What follows the digits of a number that is not whole. -/
def finish? (negative : Bool) (n : Scaled) : List Char → Option (Decimal × List Char)
  | 'e' :: cs => withExponent? negative n cs
  | 'E' :: cs => withExponent? negative n cs
  | cs => (decimal? negative n).map fun x => (x, cs)

/-- A number without point and exponent, whose digits fit in an unsigned word. -/
def whole (negative : Bool) (n : Nat) : Json :=
  if negative then
    if n = 0 || int64Bound < n then .decimal (Decimal.ofNat n).neg
    else .integer (Int64.ofInt (-(n : Int)))
  else if n < int64Bound then .integer (Int64.ofNat n) else .decimal (Decimal.ofNat n)

/-- Reads what follows the sign of a number. -/
def readUnsigned? (negative : Bool) (cs : List Char) : Option (Json × List Char) :=
  let leading :=
    match cs with
    | '0' :: cs =>
      if cs.head?.any Char.isDigit then none
      else some (({ digits := 0, exponent := 0 } : Scaled), false, cs)
    | c :: cs => if c.isDigit then some (takeWhole (c :: cs) ⟨0, 0⟩ false) else none
    | [] => none
  match leading with
  | none => none
  | some (n, _, '.' :: cs) =>
    if cs.head?.any Char.isDigit then
      let (n, cs) := takePlaces cs n false
      (finish? negative n cs).map fun (x, cs) => (.decimal x, cs)
    else none
  | some (n, full, cs) =>
    if full || cs.head? == some 'e' || cs.head? == some 'E' then
      (finish? negative n cs).map fun (x, cs) => (.decimal x, cs)
    else some (whole negative n.digits, cs)

/-- Reads a number. -/
def read? : List Char → Option (Json × List Char)
  | '-' :: cs => readUnsigned? true cs
  | cs => readUnsigned? false cs

end Reactor.Json.Numeral
