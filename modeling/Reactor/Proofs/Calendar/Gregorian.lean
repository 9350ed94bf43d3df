import Mathlib.Logic.Function.Iterate
import Mathlib.Order.Monotone.Basic
import Mathlib.Tactic.IntervalCases
import Reactor.Proofs.Calendar.Days

/-!
# The Gregorian calendar

A date exists if its month has that day (`Date.IsValid`), and after each date there is a next one
(`Date.next`). This is the calendar as it is written down; that the arithmetic of day numbers counts its
days, without a gap and without a day that is counted twice, takes three steps.

* `Date.isValid_ofDayNumber` : every day number has a date that exists.
* `Date.dayNumber_next` : the next date has the next number. Months are as long as the calendar says, so
  the first days of the months come in their order (`Date.monthStart_mono`).
* `Date.ofDayNumber_dayNumber` : so a date that exists is that of its number.

`Date.IsValid.isDay_iff` says the same of the dates alone: the number of a date is how often one has to go
on to the next date to come to it from the epoch.
-/

namespace Reactor.Calendar

/-- Every fourth year is a leap year, except for the centuries that 400 does not divide. -/
def isLeapYear (year : Int) : Bool :=
  year % 4 == 0 && (year % 100 != 0 || year % 400 == 0)

/-- The length of a month. -/
def daysInMonth (year : Int) (month : Nat) : Nat :=
  match month with
  | 2 => if isLeapYear year then 29 else 28
  | 4 | 6 | 9 | 11 => 30
  | _ => 31

theorem isLeapYear_iff {year : Int} :
    isLeapYear year = true ↔ year % 4 = 0 ∧ (year % 100 ≠ 0 ∨ year % 400 = 0) := by
  simp [isLeapYear]

theorem daysInMonth_pos (year : Int) (month : Nat) : 1 ≤ daysInMonth year month := by
  unfold daysInMonth
  repeat' split
  all_goals omega

/-- February is longer in a year that adds a leap day to those of the years before. -/
theorem daysInMonth_february (year : Int) :
    (daysInMonth year 2 : Int) =
      28 + (year / 4 - year / 100 + year / 400) -
        ((year - 1) / 4 - (year - 1) / 100 + (year - 1) / 400) := by
  have leap : isLeapYear year = true ↔ _ := isLeapYear_iff
  rw [daysInMonth]
  split
  · next h =>
    have := leap.1 h
    omega
  · next h =>
    have := mt leap.2 h
    omega

namespace Date

/-- The date exists: its month has that day. -/
structure IsValid (date : Date) : Prop where
  month : 1 ≤ date.month ∧ date.month ≤ 12
  day : 1 ≤ date.day ∧ date.day ≤ daysInMonth date.year date.month

/-- The day after a date. -/
def next (date : Date) : Date :=
  if date.day < daysInMonth date.year date.month then { date with day := date.day + 1 }
  else if date.month < 12 then { date with month := date.month + 1, day := 1 }
  else { year := date.year + 1, month := 1, day := 1 }

theorem IsValid.next {date : Date} (h : date.IsValid) : date.next.IsValid := by
  obtain ⟨hmonth, hday⟩ := h
  unfold Date.next
  split
  · next within => exact ⟨hmonth, Nat.succ_pos _, within⟩
  · split
    · next before => exact ⟨⟨Nat.succ_pos _, before⟩, Nat.le_refl 1, daysInMonth_pos _ _⟩
    · exact ⟨by simp, Nat.le_refl 1, daysInMonth_pos _ _⟩

/-! ## Dates of day numbers -/

theorem isValid_ofDayOfYear {era year day : Int} (h : InEra year day) :
    (ofDayOfYear era year day).IsValid := by
  have hday := h.day_le
  obtain ⟨hyear, hyear', hday', hlast⟩ := h
  obtain ⟨month, hmonth⟩ : ∃ m, m = (5 * day + 2) / 153 := ⟨_, rfl⟩
  obtain ⟨hlow, hhigh⟩ : 0 ≤ month ∧ month ≤ 11 := by omega
  simp only [ofDayOfYear, ← hmonth]
  constructor
  · simp only
    split <;> omega
  · simp only
    by_cases hfeb : month = 11
    · -- The year that is counted from March on ends in the February of the next one.
      subst hfeb
      have := daysInMonth_february (year + era * 400 + 1)
      simp only [firstDay] at hlast
      simp
      omega
    · interval_cases month <;> simp [daysInMonth] at hfeb ⊢ <;> omega

/-- Every day number has a date that exists. -/
theorem isValid_ofDayNumber (days : Int) : (ofDayNumber days).IsValid := by
  obtain ⟨era, year, day, hday, hdate, -⟩ := ofDayNumber_eq days
  rw [hdate]
  exact isValid_ofDayOfYear hday

/-! ## Numbers of dates -/

theorem dayNumber_eq_first (year : Int) (month day : Nat) :
    (Date.mk year month day).dayNumber = (Date.mk year month 1).dayNumber + day - 1 := by
  simp only [dayNumber]
  omega

/-- The first day of a month, without eras. -/
theorem dayNumber_first (year : Int) (month : Nat) :
    (Date.mk year month 1).dayNumber =
      let year := if month ≤ 2 then year - 1 else year
      365 * year + year / 4 - year / 100 + year / 400 +
        (153 * (if 2 < month then (month : Int) - 3 else month + 9) + 2) / 5 - 719468 := by
  have hfdiv (a : Int) : a.fdiv 400 = a / 400 := Int.fdiv_eq_ediv_of_nonneg a (by decide)
  simp only [dayNumber, hfdiv]
  generalize (if month ≤ 2 then year - 1 else year) = y
  omega

theorem dayNumber_nextMonth (year : Int) {month : Nat} (h : 1 ≤ month) (h' : month < 12) :
    (Date.mk year (month + 1) 1).dayNumber =
      (Date.mk year month 1).dayNumber + daysInMonth year month := by
  simp only [dayNumber_first]
  by_cases hfeb : month = 2
  · subst hfeb
    rw [daysInMonth_february]
    simp
    omega
  · interval_cases month <;> simp [daysInMonth] at hfeb ⊢ <;> omega

theorem dayNumber_nextYear (year : Int) :
    (Date.mk (year + 1) 1 1).dayNumber = (Date.mk year 12 1).dayNumber + daysInMonth year 12 := by
  simp [dayNumber_first, daysInMonth]
  omega

/-- The next date has the next number. -/
theorem dayNumber_next {date : Date} (h : date.IsValid) :
    date.next.dayNumber = date.dayNumber + 1 := by
  obtain ⟨year, month, day⟩ := date
  obtain ⟨hmonth, hday⟩ := h
  have whole := dayNumber_eq_first year month day
  simp only at hmonth hday
  simp only [Date.next]
  by_cases within : day < daysInMonth year month
  · rw [if_pos within, dayNumber_eq_first, whole]
    omega
  · rw [if_neg within]
    by_cases before : month < 12
    · rw [if_pos before, dayNumber_nextMonth year hmonth.1 before, whole]
      omega
    · obtain rfl : month = 12 := by omega
      rw [if_neg before, dayNumber_nextYear, whole]
      omega

/-! ## Months in a row -/

/-- The number of the first day of a month, the months being counted from the start of year 0 on. -/
def monthStart (n : Int) : Int :=
  (Date.mk (n / 12) ((n % 12).toNat + 1) 1).dayNumber

theorem monthStart_succ (n : Int) :
    monthStart (n + 1) = monthStart n + daysInMonth (n / 12) ((n % 12).toNat + 1) := by
  simp only [monthStart]
  by_cases before : n % 12 < 11
  · have hyear : (n + 1) / 12 = n / 12 := by omega
    have hmonth : ((n + 1) % 12).toNat = (n % 12).toNat + 1 := by omega
    rw [hyear, hmonth, dayNumber_nextMonth _ (Nat.succ_pos _) (by omega)]
  · have hyear : (n + 1) / 12 = n / 12 + 1 := by omega
    have hmonth : ((n + 1) % 12).toNat = 0 := by omega
    have hlast : (n % 12).toNat = 11 := by omega
    rw [hyear, hmonth, hlast, dayNumber_nextYear]

theorem monthStart_mono {m n : Int} (h : m ≤ n) : monthStart m ≤ monthStart n := by
  refine monotone_int_of_le_succ (fun n => ?_) h
  rw [monthStart_succ]
  omega

/-- A date lies within its month. -/
theorem IsValid.within {date : Date} (h : date.IsValid) :
    date.dayNumber = monthStart (12 * date.year + date.month - 1) + date.day - 1 ∧
      date.dayNumber < monthStart (12 * date.year + date.month - 1 + 1) := by
  obtain ⟨year, month, day⟩ := date
  obtain ⟨⟨hmonth, hmonth'⟩, hday⟩ := h
  simp only at hmonth hmonth' hday ⊢
  have hyear : (12 * year + month - 1) / 12 = year := by omega
  have hmod : ((12 * year + month - 1) % 12).toNat + 1 = month := by omega
  rw [monthStart_succ, monthStart, hyear, hmod, dayNumber_eq_first]
  omega

/-- No two dates that exist have the same number. -/
theorem dayNumber_inj {date other : Date} (h : date.IsValid) (h' : other.IsValid)
    (same : date.dayNumber = other.dayNumber) : date = other := by
  have notBefore {date other : Date} (h : date.IsValid) (h' : other.IsValid)
      (same : date.dayNumber = other.dayNumber) :
      12 * other.year + other.month ≤ 12 * date.year + date.month := by
    by_contra earlier
    have apart := monthStart_mono
      (show 12 * date.year + date.month - 1 + 1 ≤ 12 * other.year + other.month - 1 by omega)
    have := h.within.2
    have := h'.within.1
    have := h'.day.1
    omega
  have months := Int.le_antisymm (notBefore h' h same.symm) (notBefore h h' same)
  have days : date.day = other.day := by
    have hdate := h.within.1
    have hother := h'.within.1
    rw [months] at hdate
    omega
  have := h.month
  have := h'.month
  obtain ⟨year, month, day⟩ := date
  obtain ⟨year', month', day'⟩ := other
  simp only [Date.mk.injEq] at *
  omega

/-- A date that exists is that of its number. -/
theorem ofDayNumber_dayNumber {date : Date} (h : date.IsValid) : ofDayNumber date.dayNumber = date :=
  dayNumber_inj (isValid_ofDayNumber _) h (dayNumber_ofDayNumber _)

/-- The next day number is that of the next date. -/
theorem ofDayNumber_succ (days : Int) : ofDayNumber (days + 1) = (ofDayNumber days).next := by
  have valid := isValid_ofDayNumber days
  have number : (ofDayNumber days).next.dayNumber = days + 1 := by
    rw [dayNumber_next valid, dayNumber_ofDayNumber]
  rw [← number, ofDayNumber_dayNumber valid.next]

/-! ## Counting from the epoch -/

/-- The day from which on days are counted. -/
def epoch : Date :=
  { year := 1970, month := 1, day := 1 }

/-- The date is the one that many days after the epoch, or before it if the number is negative. -/
def IsDay (date : Date) (days : Int) : Prop :=
  Date.next^[days.toNat] epoch = Date.next^[(-days).toNat] date

theorem IsValid.iterate_next {date : Date} (h : date.IsValid) (n : Nat) :
    (Date.next^[n] date).IsValid ∧ (Date.next^[n] date).dayNumber = date.dayNumber + n := by
  induction n with
  | zero => exact ⟨h, (Int.add_zero _).symm⟩
  | succ n ih =>
    rw [Function.iterate_succ_apply', dayNumber_next ih.1, ih.2]
    exact ⟨ih.1.next, by omega⟩

/-- The number of a date counts the days from the epoch on. -/
theorem IsValid.isDay_iff {date : Date} (h : date.IsValid) {days : Int} :
    date.IsDay days ↔ date.dayNumber = days := by
  have valid : epoch.IsValid := ⟨by decide, by decide⟩
  have number : epoch.dayNumber = 0 := by decide
  obtain ⟨later, hlater⟩ := valid.iterate_next days.toNat
  obtain ⟨later', hlater'⟩ := h.iterate_next (-days).toNat
  constructor
  · intro same
    rw [IsDay] at same
    rw [same] at hlater
    omega
  · intro same
    exact dayNumber_inj later later' (by omega)

end Date

end Reactor.Calendar
