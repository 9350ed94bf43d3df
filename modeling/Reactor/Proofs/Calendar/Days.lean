import Reactor.Calendar

/-!
# Day numbers

* `yearOfEra_spec` : the year that a day of an era of 400 years falls in, years being taken from
  March on, begins on that day or before, and the next year begins after it.
* `Date.dayNumber_ofDayNumber` : a day number is that of its date.
* `Date.month_day_ofDayNumber` : the bounds of its month and day.
-/

namespace Reactor.Calendar

/-- The day of an era on which a year begins. -/
def firstDay (year : Int) : Int :=
  365 * year + year / 4 - year / 100

/-- A year of an era, and a day of that year. The last year of an era ends in a leap day. -/
structure InEra (year day : Int) : Prop where
  year_nonneg : 0 ≤ year
  year_lt : year < 400
  day_nonneg : 0 ≤ day
  day_lt : firstDay year + day < firstDay (year + 1) ∨ year = 399 ∧ day = 365

theorem InEra.day_le {year day : Int} (h : InEra year day) : day ≤ 365 := by
  have hlt := h.day_lt
  simp only [firstDay] at hlt
  omega

/-- Within a century every fourth year is a leap year. The days are counted over by as many as the
centuries before have leap days too few. -/
theorem yearOfCentury_spec (day shift : Int) (hday : 0 ≤ day) (hday' : day ≤ 36524)
    (hshift : 0 ≤ shift) (hshift' : shift ≤ 72) :
    let year := (day - (day + shift) / 1460) / 365
    0 ≤ year ∧ year < 100 ∧ 365 * year + year / 4 ≤ day ∧
      day < 365 * (year + 1) + (year + 1) / 4 := by
  intro year
  have hyear : year = (day - (day + shift) / 1460) / 365 := rfl
  clear_value year
  omega

/-- The year that a day of an era falls in. -/
theorem yearOfEra_spec (day : Int) (hday : 0 ≤ day) (hday' : day < 146097) :
    let year := (day - day / 1460 + day / 36524 - day / 146096) / 365
    InEra year (day - firstDay year) := by
  intro year
  -- The last day of the era, a leap day, belongs to its last century.
  obtain ⟨century, hcentury⟩ : ∃ n, n = day / 36524 - day / 146096 := ⟨_, rfl⟩
  obtain ⟨rest, hrest⟩ : ∃ r, r = day - 36524 * century := ⟨_, rfl⟩
  have hbounds : 0 ≤ century ∧ century ≤ 3 ∧ 0 ≤ rest ∧ rest ≤ 36524 := by omega
  have hspec := yearOfCentury_spec rest (24 * century) (by omega) (by omega)
    (by omega) (by omega)
  have hyear : year = 100 * century + (rest - (rest + 24 * century) / 1460) / 365 := by
    show (day - day / 1460 + day / 36524 - day / 146096) / 365 = _
    omega
  clear_value year
  revert hspec hyear
  generalize (rest - (rest + 24 * century) / 1460) / 365 = z
  intro hspec hyear
  have hfourths : year / 4 = 25 * century + z / 4 := by omega
  have hcenturies : year / 100 = century := by omega
  constructor
  · omega
  · omega
  · simp only [firstDay]
    omega
  · simp only [firstDay]
    omega

namespace Date

/-- The date of a day of a year that is counted from March on. -/
def ofDayOfYear (era year day : Int) : Date :=
  let monthFromMarch := (5 * day + 2) / 153
  let month := if monthFromMarch < 10 then monthFromMarch + 3 else monthFromMarch - 9
  { year := year + era * 400 + (if month ≤ 2 then 1 else 0)
    month := month.toNat
    day := (day - (153 * monthFromMarch + 2) / 5 + 1).toNat }

variable {era year day : Int}

/-- The bounds of the month and the day of the month. -/
theorem month_day_ofDayOfYear (hday : 0 ≤ day) (hday' : day ≤ 365) :
    (1 ≤ (ofDayOfYear era year day).month ∧ (ofDayOfYear era year day).month ≤ 12) ∧
      1 ≤ (ofDayOfYear era year day).day ∧ (ofDayOfYear era year day).day ≤ 31 := by
  simp only [ofDayOfYear]
  split <;> omega

/-- The number of a day of a year that is counted from March on. -/
theorem dayNumber_ofDayOfYear (h : InEra year day) :
    (ofDayOfYear era year day).dayNumber = era * 146097 + (firstDay year + day) - 719468 := by
  have hday' := h.day_le
  obtain ⟨hyear, hyear', hday, -⟩ := h
  obtain ⟨month, hmonth⟩ : ∃ m, m = (5 * day + 2) / 153 := ⟨_, rfl⟩
  have hdays : ((day - (153 * month + 2) / 5 + 1).toNat : Int) =
      day - (153 * month + 2) / 5 + 1 := Int.toNat_of_nonneg (by omega)
  have hera : (year + era * 400) / 400 = era := by omega
  have hyears : year + era * 400 - era * 400 = year := by omega
  have hfdiv (a : Int) : a.fdiv 400 = a / 400 := Int.fdiv_eq_ediv_of_nonneg a (by decide)
  simp only [ofDayOfYear, dayNumber, firstDay, ← hmonth, hdays, hfdiv]
  by_cases h : month < 10
  · have hcast : ((month + 3).toNat : Int) = month + 3 := Int.toNat_of_nonneg (by omega)
    have hlate : ¬(month + 3).toNat ≤ 2 := by omega
    have hlate' : ¬month + 3 ≤ 2 := by omega
    simp only [if_pos h, if_neg hlate, if_neg hlate', if_pos (Nat.lt_of_not_le hlate), hcast,
      Int.add_zero, hera, hyears, Int.add_sub_cancel]
    omega
  · have hcast : ((month - 9).toNat : Int) = month - 9 := Int.toNat_of_nonneg (by omega)
    have hearly : (month - 9).toNat ≤ 2 := by omega
    have hearly' : month - 9 ≤ 2 := by omega
    simp only [if_neg h, if_pos hearly, if_pos hearly', if_neg (Nat.not_lt.2 hearly), hcast,
      Int.add_sub_cancel, hera, hyears, Int.sub_add_cancel]
    omega

/-- A day number is that of a day of a year that is counted from March on. -/
theorem ofDayNumber_eq (days : Int) :
    ∃ era year day : Int, InEra year day ∧ ofDayNumber days = ofDayOfYear era year day ∧
      days = era * 146097 + (firstDay year + day) - 719468 := by
  have hfdiv (a : Int) : a.fdiv 146097 = a / 146097 := Int.fdiv_eq_ediv_of_nonneg a (by decide)
  have hspec :=
    yearOfEra_spec (days + 719468 - (days + 719468) / 146097 * 146097) (by omega) (by omega)
  refine ⟨(days + 719468) / 146097, _, _, hspec, ?_, by omega⟩
  simp only [ofDayNumber, hfdiv]
  rfl

/-- A day number is that of its date. -/
theorem dayNumber_ofDayNumber (days : Int) : (ofDayNumber days).dayNumber = days := by
  obtain ⟨era, year, day, hday, hdate, hdays⟩ := ofDayNumber_eq days
  rw [hdate, dayNumber_ofDayOfYear hday, ← hdays]

/-- The bounds of the month and the day of the month of a day number. -/
theorem month_day_ofDayNumber (days : Int) :
    (1 ≤ (ofDayNumber days).month ∧ (ofDayNumber days).month ≤ 12) ∧
      1 ≤ (ofDayNumber days).day ∧ (ofDayNumber days).day ≤ 31 := by
  obtain ⟨era, year, day, hday, hdate, -⟩ := ofDayNumber_eq days
  rw [hdate]
  exact month_day_ofDayOfYear hday.day_nonneg hday.day_le

end Date

end Reactor.Calendar
