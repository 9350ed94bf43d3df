import Reactor.Power
import Reactor.Text.Blank
import Reactor.Text.Numeral

/-!
# Calendar dates

Instants are milliseconds since the start of 1970 in UTC, dates those of the proleptic Gregorian
calendar.

* `Calendar.dayNumber`, `Calendar.Date.ofDayNumber` : dates and day numbers, the epoch being day 0.
* `Calendar.format` : the ISO 8601 text of an instant, to the millisecond.
* `Calendar.parse?` : reads a date, optionally with a time of day.
-/

namespace Reactor.Calendar

def millisPerDay : Int := 86400000

/-- The largest year that a text may name. -/
def maxYear : Nat := 100000000

/-- A date of the Gregorian calendar. -/
structure Date where
  year : Int
  month : Nat
  day : Nat
  deriving DecidableEq, Repr

/-- The day number of a date. Years are taken from March on, so that the leap day comes last. -/
def Date.dayNumber (date : Date) : Int :=
  let year := if date.month ≤ 2 then date.year - 1 else date.year
  let era := year.fdiv 400
  let yearOfEra := year - era * 400
  let monthFromMarch : Int := if 2 < date.month then date.month - 3 else date.month + 9
  let dayOfYear := (153 * monthFromMarch + 2) / 5 + date.day - 1
  let dayOfEra := yearOfEra * 365 + yearOfEra / 4 - yearOfEra / 100 + dayOfYear
  era * 146097 + dayOfEra - 719468

/-- The date of a day number. -/
def Date.ofDayNumber (days : Int) : Date :=
  let shifted := days + 719468
  let era := shifted.fdiv 146097
  let dayOfEra := shifted - era * 146097
  let yearOfEra :=
    (dayOfEra - dayOfEra / 1460 + dayOfEra / 36524 - dayOfEra / 146096) / 365
  let dayOfYear := dayOfEra - (365 * yearOfEra + yearOfEra / 4 - yearOfEra / 100)
  let monthFromMarch := (5 * dayOfYear + 2) / 153
  let day := dayOfYear - (153 * monthFromMarch + 2) / 5 + 1
  let month := if monthFromMarch < 10 then monthFromMarch + 3 else monthFromMarch - 9
  { year := yearOfEra + era * 400 + (if month ≤ 2 then 1 else 0)
    month := month.toNat
    day := day.toNat }

/-- A year with at least four characters; the sign counts as one of them. -/
def formatYear (year : Int) : String :=
  if year < 0 then "-" ++ Text.padDigits 3 year.natAbs else Text.padDigits 4 year.natAbs

/-- The text `year-month-dayThours:minutes:seconds.millisecondsZ`. -/
def format (millis : Int) : String :=
  let date := Date.ofDayNumber (millis.fdiv millisPerDay)
  let rest := (millis.fmod millisPerDay).toNat
  formatYear date.year ++ "-" ++ Text.padDigits 2 date.month ++ "-" ++ Text.padDigits 2 date.day ++
    "T" ++ Text.padDigits 2 (rest / 3600000) ++ ":" ++ Text.padDigits 2 (rest / 60000 % 60) ++
    ":" ++ Text.padDigits 2 (rest / 1000 % 60) ++ "." ++ Text.padDigits 3 (rest % 1000) ++ "Z"

/-- The parts before and after the first character that satisfies `p`, if there is one. -/
def splitAtFirst? (p : Char → Bool) (cs : List Char) : Option (List Char × List Char) :=
  match cs.span fun c => !p c with
  | (front, _ :: back) => some (front, back)
  | (_, []) => none

/-- Reads `year-month-day` as a day number. The day may be any of the first 31 of the month. -/
def parseDay? (cs : List Char) : Option Int := do
  let (year, rest) ← splitAtFirst? (· == '-') cs
  let (month, day) ← splitAtFirst? (· == '-') rest
  let year ← Text.naturalBelow? (maxYear + 1) year
  let month ← Text.naturalBelow? 13 month
  let day ← Text.naturalBelow? 32 day
  if month == 0 || day == 0 then none else some (Date.mk year month day).dayNumber

/-- Reads the first three digits of a fraction of a second as milliseconds. -/
def parseFraction? (cs : List Char) : Option Nat := do
  let digits := cs.take 3
  let n ← Text.natural? digits
  return n * tenTo (3 - digits.length)

/-- Reads `hours:minutes[:seconds][.fraction][Z]` as milliseconds. There may be a leap second. -/
def parseTime? (cs : List Char) : Option Nat := do
  let cs := if cs.getLast? == some 'Z' then cs.dropLast else cs
  let (clock, fraction) :=
    match splitAtFirst? (· == '.') cs with
    | some (clock, fraction) => (clock, some fraction)
    | none => (cs, none)
  let (hours, rest) ← splitAtFirst? (· == ':') clock
  let (minutes, seconds) :=
    match splitAtFirst? (· == ':') rest with
    | some (minutes, seconds) => (minutes, some seconds)
    | none => (rest, none)
  let hours ← Text.naturalBelow? 24 hours
  let minutes ← Text.naturalBelow? 60 minutes
  let seconds ← (match seconds with
    | some seconds => Text.naturalBelow? 61 seconds
    | none => some 0)
  let millis ← (match fraction with
    | some fraction => parseFraction? fraction
    | none => some 0)
  return hours * 3600000 + minutes * 60000 + seconds * 1000 + millis

/-- Reads a date, optionally followed by `T` or a space and a time of day. -/
def parse? (text : String) : Option Int := do
  let cs := Text.trimChars text.toList
  match splitAtFirst? (fun c => c == 'T' || c == ' ') cs with
  | none => return (← parseDay? cs) * millisPerDay
  | some (date, time) =>
    let day ← parseDay? date
    let millis ← parseTime? time
    return day * millisPerDay + millis

end Reactor.Calendar
