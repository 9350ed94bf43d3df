/-!
# Numerals

The two grammars of numbers in texts. Digits are the ASCII digits, and nothing may stand around a
numeral.

* `integerBelow?` : an optional sign and at least one digit.
* `decimal?` : an optional sign, digits with an optional point and an optional exponent, or one of
  the words `inf`, `infinity` and `nan` in any case.
* `natural?`, `naturalBelow?` : digits only.

Texts may be long, so a number that is too large for its use is not worked out to its end.
-/

namespace Reactor.Text

/-- The number that a list of digits stands for, most significant first. -/
def digitsValue (cs : List Char) : Nat :=
  cs.foldl (fun n c => 10 * n + (c.toNat - 48)) 0

/-- The number that a list of digits stands for; once it has reached a bound, the digits that follow
are not counted. -/
def cappedValue (bound : Nat) (cs : List Char) : Nat :=
  cs.foldl (fun n c => if n < bound then 10 * n + (c.toNat - 48) else n) 0

/-- Reads a numeral that consists of digits only. -/
def natural? (cs : List Char) : Option Nat :=
  if !cs.isEmpty && cs.all Char.isDigit then some (digitsValue cs) else none

/-- Reads a numeral that consists of digits only and stands for a number below a bound. -/
def naturalBelow? (bound : Nat) (cs : List Char) : Option Nat :=
  if !cs.isEmpty && cs.all Char.isDigit then
    let n := cappedValue bound cs
    if n < bound then some n else none
  else none

/-- Splits off a leading sign; the flag says whether it is a minus. -/
def splitSign : List Char → Bool × List Char
  | '+' :: cs => (false, cs)
  | '-' :: cs => (true, cs)
  | cs => (false, cs)

/-- Reads the numeral of an integer whose size is below a bound. -/
def integerBelow? (bound : Nat) (s : String) : Option Int :=
  let (negative, cs) := splitSign s.toList
  (naturalBelow? bound cs).map fun n => if negative then -(n : Int) else n

/-- What a decimal numeral denotes. -/
inductive Numeral where
  | notANumber (negative : Bool)
  | infinite (negative : Bool)
  /-- The number `digits * 10 ^ exponent`, negated if the flag is set. -/
  | finite (negative : Bool) (digits : Nat) (exponent : Int)
  deriving DecidableEq, Repr

/-- The size from which on the digits of an exponent are not counted. -/
def maxExponent : Nat := 65536

/-- Reads the exponent part of a numeral: nothing, or a mark, an optional sign and digits. -/
def exponent? : List Char → Option Int
  | [] => some 0
  | mark :: cs =>
    let (negative, digits) := splitSign cs
    if (mark == 'e' || mark == 'E') && !digits.isEmpty && digits.all Char.isDigit then
      let n := cappedValue maxExponent digits
      some (if negative then -(n : Int) else n)
    else none

/-- The number of digits, not counting zeros in front, that decide to which decimal a number is
rounded. No number halfway between two decimals has as many. -/
def maxSignificant : Nat := 800

/-- The number that a list of digits stands for, up to a power of ten, which comes with it. Of the
digits that do not decide it only matters whether one of them is not zero. -/
def significand (cs : List Char) : Nat × Nat :=
  let cs := cs.dropWhile (· == '0')
  let n := digitsValue (cs.take maxSignificant)
  match cs.drop maxSignificant with
  | [] => (n, 0)
  | rest => if rest.all (· == '0') then (n, rest.length) else (10 * n + 1, rest.length - 1)

/-- Reads a decimal numeral. -/
def decimal? (s : String) : Option Numeral :=
  let (negative, cs) := splitSign s.toList
  let word := String.ofList (cs.map Char.toLower)
  if word == "nan" then some (.notANumber negative)
  else if word == "inf" || word == "infinity" then some (.infinite negative)
  else
    let whole := cs.takeWhile Char.isDigit
    let rest := cs.dropWhile Char.isDigit
    let (places, rest) :=
      match rest with
      | '.' :: rest => (rest.takeWhile Char.isDigit, rest.dropWhile Char.isDigit)
      | rest => ([], rest)
    if whole.isEmpty && places.isEmpty then none
    else (exponent? rest).map fun exponent =>
      let (digits, power) := significand (whole ++ places)
      .finite negative digits (exponent + power - places.length)

/-- A number in decimal with at least `width` digits. -/
def padDigits (width n : Nat) : String :=
  let digits := toString n
  String.ofList (List.replicate (width - digits.length) '0') ++ digits

/-! ## Numbers below a bound -/

theorem foldl_capped_of_le {bound n : Nat} (h : bound ≤ n) (cs : List Char) :
    cs.foldl (fun n c => if n < bound then 10 * n + (c.toNat - 48) else n) n = n := by
  induction cs with
  | nil => rfl
  | cons c cs ih => simpa [Nat.not_lt.2 h] using ih

theorem le_foldl_digits (n : Nat) (cs : List Char) :
    n ≤ cs.foldl (fun n c => 10 * n + (c.toNat - 48)) n := by
  induction cs generalizing n with
  | nil => exact Nat.le_refl n
  | cons c cs ih => exact Nat.le_trans (by show n ≤ 10 * n + _; omega) (ih _)

/-- Below the bound nothing is left out, and a number that is not below it is recognised. -/
theorem foldl_capped (bound n : Nat) (cs : List Char) :
    let capped := cs.foldl (fun n c => if n < bound then 10 * n + (c.toNat - 48) else n) n
    let value := cs.foldl (fun n c => 10 * n + (c.toNat - 48)) n
    (capped < bound ↔ value < bound) ∧ (value < bound → capped = value) := by
  induction cs generalizing n with
  | nil => simp
  | cons c cs ih =>
    by_cases h : n < bound
    · simpa [h] using ih (10 * n + (c.toNat - 48))
    · have hn := Nat.not_lt.1 h
      have hv := le_foldl_digits n (c :: cs)
      simp only [foldl_capped_of_le hn]
      omega

/-- To read a number below a bound is to read a number and to look whether it is below the bound. -/
theorem naturalBelow?_eq (bound : Nat) (cs : List Char) :
    naturalBelow? bound cs = (natural? cs).filter fun n => n < bound := by
  unfold naturalBelow? natural?
  split
  · obtain ⟨hiff, heq⟩ := foldl_capped bound 0 cs
    by_cases h : digitsValue cs < bound
    · have hc : cappedValue bound cs = digitsValue cs := heq h
      simp [hc, h, Option.filter]
    · have hc : ¬ cappedValue bound cs < bound := fun hc => h (hiff.1 hc)
      simp [hc, h, Option.filter]
  · rfl

end Reactor.Text
