import Reactor.Decimal.Shortest
import Reactor.Text.Numeral

/-!
# Texts of decimals

* `Decimal.human` : the form in texts for people and in scripts, never with an exponent.
* `Decimal.json` : the form in JSON, with an exponent for very large and very small numbers.
* `Decimal.bare` : positional digits without a fractional part unless one is needed.
* `Decimal.parse?` : reads a decimal numeral, rounding to the nearest decimal.
-/

namespace Reactor.Decimal

/-- The digits `d` with the point moved `k` places to the right, for a number that is not zero. -/
def positional (d : Nat) (k : Int) (keepPoint : Bool) : String :=
  let digits := (toString d).toList
  let place := (digits.length : Int) + k
  if 0 ≤ k then
    String.ofList (digits ++ List.replicate k.toNat '0') ++ if keepPoint then ".0" else ""
  else if 0 < place then
    String.ofList (digits.take place.toNat) ++ "." ++ String.ofList (digits.drop place.toNat)
  else "0." ++ String.ofList (List.replicate (-place).toNat '0' ++ digits)

/-- One digit before the point, the others behind it, and a signed exponent. -/
def scientific (d : Nat) (k : Int) : String :=
  let digits := (toString d).toList
  let exponent := (digits.length : Int) + k - 1
  let mantissa :=
    match digits with
    | first :: rest@(_ :: _) => String.ofList (first :: '.' :: rest)
    | digits => String.ofList digits
  mantissa ++ "e" ++ (if exponent < 0 then "-" else "+") ++ toString exponent.natAbs

/-- The sign in front of a number. -/
def signed (negative : Bool) (text : String) : String :=
  if negative then "-" ++ text else text

/-- Positional digits, with a point only where there is a fraction. -/
def bare (x : Decimal) : String :=
  match x.shape with
  | .notANumber => "NaN"
  | .infinite negative => signed negative "inf"
  | .finite negative m q =>
    if m == 0 then signed negative "0"
    else
      let (d, k) := shortest .up m q
      signed negative (positional d k false)

/-- The form for people: whole numbers below `10 ^ 15` keep one decimal place. -/
def human (x : Decimal) : String :=
  match x.shape with
  | .notANumber => "NaN"
  | .infinite negative => signed negative "infinity"
  | .finite negative m q =>
    if isWhole m q && wholePart m q < tenTo 15 then
      signed negative (toString (wholePart m q) ++ ".0")
    else bare x

/-- The form in JSON: positional from `10 ^ -5` up to below `10 ^ 16`, else with an exponent. -/
def json (x : Decimal) : String :=
  match x.shape with
  | .finite negative m q =>
    if m == 0 then signed negative "0.0"
    else
      let (d, k) := shortest .even m q
      let exponent := ((toString d).length : Int) + k - 1
      signed negative
        (if -5 ≤ exponent && exponent < 16 then positional d k true else scientific d k)
  | _ => "null"

/-- The decimal nearest to `digits * 10 ^ exponent`. -/
def ofScientific (digits : Nat) (exponent : Int) : Decimal :=
  nearest (digits * tenTo exponent.toNat) (tenTo (-exponent).toNat)

/-- Reads a decimal numeral. -/
def parse? (s : String) : Option Decimal :=
  (Text.decimal? s).map fun
    | .notANumber negative => if negative then neg notANumber else notANumber
    | .infinite negative => infinity (!negative)
    | .finite negative digits exponent =>
      let size := ofScientific digits exponent
      if negative then neg size else size

end Reactor.Decimal
