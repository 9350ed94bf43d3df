import Reactor.Text.Search
import Reactor.Value.Equality

/-!
# Operators

Operators force their operands. Void changes nothing as an operand of `+` and `-`; null and errors
take the place of the result; errors attached to an operand are attached to the result.

* `Value.plus`, `Value.minus`, `Value.multiply`, `Value.divide`, `Value.modulus`.
* `Value.negate`, `Value.abs`, `Value.sign`, `Value.inc`, `Value.dec`.
* `Value.toInteger`, `Value.toDecimal` : the number that a value stands for.
-/

namespace Reactor.Value

/-- The length in bytes of a string, or in elements of a list, that repetition may build. -/
def maxRepeat : Nat := 10000000

/-- The milliseconds of a day. -/
def millisPerDay : Decimal := Decimal.ofNat 86400000

/-! ## Numbers of values -/

/-- The integer that a payload stands for. -/
def dataToInteger : Data → Except Error Int64
  | .integer n => .ok n
  | .decimal x => .ok x.toInt64
  | .boolean b => .ok (if b then 1 else 0)
  | .date millis => .ok millis
  | .string s =>
    match readInt64? (Text.trimBlank s) with
    | some n => .ok n
    | none => .error (.invalidCast .string .integer)
  | data => .error (.invalidCast data.type .integer)

/-- The integer that the forced value stands for. -/
def toInteger (v : Value) : Eval Int64 := do
  Eval.ofExcept (dataToInteger (← v.forced).data)

/-- The decimal that a payload stands for. -/
def dataToDecimal : Data → Except Error Decimal
  | .integer n => .ok (Decimal.ofInt64 n)
  | .decimal x => .ok x
  | .infinity positive => .ok (Decimal.infinity positive)
  | .boolean b => .ok (if b then Decimal.one else Decimal.zero)
  | .string s =>
    match Decimal.parse? (Text.trimBlank s) with
    | some x => .ok x
    | none => .error (.invalidCast .string .decimal)
  | data => .error (.invalidCast data.type .decimal)

/-- The decimal that the forced value stands for. -/
def toDecimal (v : Value) : Eval Decimal := do
  Eval.ofExcept (dataToDecimal (← v.forced).data)

/-! ## Rules that the operators share -/

/-- Attaches the errors of the operands that the result does not have yet. -/
def carry (result a b : Value) : Value :=
  let missing := (a.errors ++ b.errors).filter fun e => !result.errors.contains e
  if missing.isEmpty then result else result.withErrors missing

/-- The operand that takes the place of the result: the first one that is null or an error. -/
def absorbing? (a b : Value) : Option Value :=
  match a.data, b.data with
  | .error _, _ => some a
  | .null _, _ => some a
  | _, .error _ => some b
  | _, .null _ => some b
  | _, _ => none

/-- An operation on numbers. -/
def numeric (name : String) (f : Number → Number → Number) (a b : Data) : Except Error Value :=
  match Number.of? a, Number.of? b with
  | some m, some n => .ok (.plain (f m n).toData)
  | _, _ => .error (.invalidOperands name a.type b.type)

/-- An integer kept within 64 bits. -/
def saturate (n : Int) : Int64 :=
  Int64.ofInt (max (-int64Bound) (min n (int64Bound - 1)))

/-- An instant moved by a number of days, as far as instants reach. -/
def shiftDays (millis : Int64) (days : Data) : Except Error Value := do
  let offset := ((← dataToDecimal days).mul millisPerDay).toInt64
  return .date (saturate (millis.toInt + offset.toInt))

/-- How often a count repeats something of a given length. Negative counts repeat it never. -/
def repeatCount (length : Nat) (times : Data) : Except Error Nat := do
  let count := (← dataToInteger times).toInt.toNat
  if length * count ≤ maxRepeat then return count
  else .error (.new .invalidOperation
    ("Repeating " ++ toString length ++ " elements " ++ toString count ++ " times is too large"))

/-- A number of copies of something; what is empty needs none. -/
def repeated {α : Type} (isEmpty : Bool) (count : Nat) (a : α) : List α :=
  if isEmpty then [] else List.replicate count a

/-! ## Unary operators -/

/-- The negative of a payload: numbers change their sign, strings and lists are reversed, ranges
swap their ends, truth values change. -/
def negateData (v : Value) : Except Error Value :=
  match v.data with
  | .void | .null _ | .error _ => .ok v
  | .string s => .ok (.string (String.ofList s.toList.reverse))
  | .list items => .ok (.list items.reverse)
  | .sequence items => .ok (.sequence items.reverse)
  | .range start stop => .ok (.range stop start)
  | .boolean b => .ok (.boolean !b)
  | data =>
    match Number.of? data with
    | some n => .ok (.plain n.neg.toData)
    | none => .error (.invalidOperation "negate" data.type)

/-- The negative of the forced value. -/
def negate (v : Value) : Eval Value := do
  let v ← v.forced
  return carry (← Eval.ofExcept (negateData v)) v .void

/-- The size of a number. -/
def abs (v : Value) : Eval Value :=
  v.onForced fun v => do
    match Number.of? v.data with
    | some n => if n.isNegative then v.negate else return v
    | none => Eval.fail (.invalidOperation "abs" v.tag)

/-- Minus one, zero or one; what is not a number has no sign. -/
def signOf : Number → Value
  | n =>
    if n.isZero then .integer 0
    else if n.isNegative then .integer (-1)
    else match n with
      | .dec x => if x.isNotANumber then .decimal Decimal.notANumber else .integer 1
      | _ => .integer 1

/-- The sign of a number. -/
def sign (v : Value) : Eval Value := do
  let v ← v.forced
  match Number.of? v.data with
  | some n => return signOf n
  | none => Eval.fail (.invalidOperation "sign" v.tag)

/-- The property of the number that the forced value is; false if it is none. -/
def numberMatches (v : Value) (test : Number → Bool) : Eval Bool := do
  match ← v.forced.attempt with
  | .ok v => return (Number.of? v.data).any test
  | .error _ => return false

/-- The character whose code point is `delta` further, if there is one. -/
def stepChar? (c : Char) (delta : Int) : Option Char :=
  let n := (c.toNat : Int) + delta
  if 0 ≤ n ∧ n.toNat.isValidChar then some (Char.ofNat n.toNat) else none

/-- A string whose last character is moved by `delta`. -/
def stepLastChar (s : String) (delta : Int) : Except Error String :=
  match s.toList.reverse with
  | last :: rest =>
    match stepChar? last delta with
    | some c => .ok (String.ofList (c :: rest).reverse)
    | none => .error (.new .invalidOperation ("Cannot step the last character of '" ++ s ++ "'"))
  | [] => .error (.new .invalidOperation ("Cannot step the last character of '" ++ s ++ "'"))

/-! ## Binary operators -/

/-- The sum of two forced operands of which none is void, null or an error. -/
def plusConcrete (plus : Value → Value → Eval Value) (a b : Value) : Eval Value := do
  match a.data, b.data with
  | .string s, _ => return .string (s ++ (← b.human))
  | .list items, _ => return .list (items ++ [b])
  | .sequence items, _ => return .sequence (items ++ [b])
  | .map x, .map y => return .map (Entries.merge x y)
  | .range start stop, y =>
    if b.tag.isNumeric then
      let start ← plus start b
      let stop ← Eval.holding start.places (plus stop b)
      return .range start stop
    else Eval.ofExcept (numeric "+" Number.add a.data y)
  | x, .string t =>
    if x.isScalar then return .string (x.plainText ++ t)
    else Eval.ofExcept (numeric "+" Number.add x b.data)
  | x, .list items =>
    if x.isScalar then return .list (a :: items)
    else Eval.ofExcept (numeric "+" Number.add x b.data)
  | .date millis, y =>
    if b.tag.isNumeric then Eval.ofExcept (shiftDays millis y)
    else Eval.ofExcept (numeric "+" Number.add a.data y)
  | x, y => Eval.ofExcept (numeric "+" Number.add x y)

/-- Addition, to a given depth of ranges. -/
def plusAt : Nat → Value → Value → Eval Value
  | 0, _, _ => Eval.exhausted
  | depth + 1, a, b => a.onForcedBoth b fun a b => do
    let result ← (match a.data, b.data with
      | .void, _ => pure b
      | _, .void => pure a
      | _, _ =>
        match absorbing? a b with
        | some absorbed => pure absorbed
        | none => plusConcrete (plusAt depth) a b)
    return carry result a b

/-- Numbers are added, strings joined, elements appended, maps merged, ranges shifted, and days
added to dates. -/
def plus (a b : Value) : Eval Value := do
  plusAt (← Eval.budget) a b

/-- The difference of two forced operands of which none is void, null or an error. -/
def minusConcrete (minus : Value → Value → Eval Value) (a b : Value) : Eval Value := do
  match a.data, b.data with
  | .string s, _ =>
    let part ← b.human
    if part.isEmpty then return a else return .string (Text.removeText s part)
  | .list items, _ => return .list (← items.filterM fun item => do return !(← item.equals b))
  | .sequence items, _ =>
    return .sequence (← items.filterM fun item => do return !(← item.equals b))
  | .map x, .map y => return .map (x.filter fun entry => !Entries.contains y entry.1)
  | .map x, _ => return .map (Entries.erase x (← b.human))
  | .range start stop, y =>
    if b.tag.isNumeric then
      let start ← minus start b
      let stop ← Eval.holding start.places (minus stop b)
      return .range start stop
    else Eval.ofExcept (numeric "-" Number.sub a.data y)
  | .date x, .date y =>
    return .decimal ((Decimal.ofInt64 (saturate (x.toInt - y.toInt))).div millisPerDay)
  | .date millis, y =>
    if b.tag.isNumeric then
      let days ← b.negate
      Eval.ofExcept (shiftDays millis days.data)
    else Eval.ofExcept (numeric "-" Number.sub a.data y)
  | x, y => Eval.ofExcept (numeric "-" Number.sub x y)

/-- Subtraction, to a given depth of ranges. -/
def minusAt : Nat → Value → Value → Eval Value
  | 0, _, _ => Eval.exhausted
  | depth + 1, a, b => a.onForcedBoth b fun a b => do
    let result ← (match a.data, b.data with
      | _, .void => pure a
      | .void, _ => b.negate
      | _, _ =>
        match absorbing? a b with
        | some absorbed => pure absorbed
        | none => minusConcrete (minusAt depth) a b)
    return carry result a b

/-- Numbers are subtracted, parts removed from strings, lists and maps, ranges shifted, and dates
moved or subtracted. -/
def minus (a b : Value) : Eval Value := do
  minusAt (← Eval.budget) a b

/-- A binary operator whose result is void if an operand is, unless null or an error takes its
place. -/
def strict (f : Data → Data → Except Error Value) (a b : Value) : Eval Value :=
  a.onForcedBoth b fun a b => do
    match absorbing? a b with
    | some absorbed => return carry absorbed a b
    | none => return carry (← Eval.ofExcept (f a.data b.data)) a b

/-- Numbers are multiplied, strings and lists repeated. -/
def multiplyData (a b : Data) : Except Error Value :=
  match a, b with
  | .void, _ => .ok .void
  | _, .void => .ok .void
  | .string s, y =>
    if y.type.isNumeric then do
      let count ← repeatCount s.utf8ByteSize y
      return .string (String.join (repeated s.isEmpty count s))
    else numeric "*" Number.mul a b
  | .list items, y =>
    if y.type.isNumeric then do
      let count ← repeatCount items.length y
      return .list (repeated items.isEmpty count items).flatten
    else numeric "*" Number.mul a b
  | x, y => numeric "*" Number.mul x y

/-- Numbers are multiplied, strings and lists repeated. -/
def multiply : Value → Value → Eval Value :=
  strict multiplyData

/-- Numbers are divided, strings split at a string or cut to a share of their length. -/
def divideData (a b : Data) : Except Error Value :=
  match a, b with
  | .void, _ => .ok .void
  | _, .void => .ok .void
  | .string s, .string part =>
    if part.isEmpty then .ok (.list (s.toList.map fun c => .string (String.singleton c)))
    else .ok (.list ((Text.splitText s part).map .string))
  | .string s, y =>
    if y.type.isNumeric then do
      let divisor ← dataToDecimal y
      if divisor.isZero || divisor.isNegative then
        .error (.new .invalidOperation ("Cannot divide a string by " ++ y.plainText))
      else
        let keep := ((Decimal.ofNat s.length).div divisor).toCount
        return .string (String.ofList (s.toList.take keep))
    else numeric "/" Number.div a b
  | x, y => numeric "/" Number.div x y

/-- Numbers are divided, strings split at a string or cut to a share of their length. -/
def divide : Value → Value → Eval Value :=
  strict divideData

/-- The remainder of numbers. -/
def modulus : Value → Value → Eval Value :=
  strict (numeric "%" Number.rem)

/-! ## Steps -/

/-- One more; a string steps its last character forward. -/
def inc (v : Value) : Eval Value :=
  v.onForced fun v => do
    match v.data with
    | .string s => return v.withData (.string (← Eval.ofExcept (stepLastChar s 1)))
    | _ => v.plus (.integer 1)

/-- One less; a string steps its last character back. -/
def dec (v : Value) : Eval Value :=
  v.onForced fun v => do
    match v.data with
    | .string s => return v.withData (.string (← Eval.ofExcept (stepLastChar s (-1))))
    | _ => v.minus (.integer 1)

end Reactor.Value
