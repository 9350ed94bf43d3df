import Reactor.Proofs.Calendar.Gregorian

/-!
# The calendar in machine words

Day numbers and dates are worked out in integers of 64 bits, months and days of the month in natural
numbers of 32 bits. Here the arithmetic is done word by word: each operation fails if its result is not a
word (`word?`), and a number that is made a natural number must not be negative (`natural32?`). Division
goes towards zero.

* `Date.ofDayNumber?`, `Date.dayNumber?` : the two conversions, operation by operation.
* `Date.ofDayNumber?_eq`, `Date.dayNumber?_eq` : for the day of an instant of 64 bits no operation fails,
  so they are `Date.ofDayNumber` and `Date.dayNumber`.
-/

namespace Reactor.Calendar

/-! ## Words -/

/-- A number, if it is an integer of 64 bits. -/
def word? (n : Int) : Option Int :=
  if -int64Bound ≤ n ∧ n < int64Bound then some n else none

/-- A number, if it is a natural number of 32 bits. -/
def natural32? (n : Int) : Option Nat :=
  if 0 ≤ n ∧ n < twoTo 32 then some n.toNat else none

def add? (m n : Int) : Option Int := word? (m + n)

def sub? (m n : Int) : Option Int := word? (m - n)

def mul? (m n : Int) : Option Int := word? (m * n)

def div? (m n : Int) : Option Int := word? (m.tdiv n)

/-- Division that goes down, by means of the one that goes towards zero. -/
def floorDiv? (m n : Int) : Option Int := do
  let m ← (if 0 ≤ m then some m else sub? m (n - 1))
  div? m n

variable {m n : Int}

theorem word?_eq (h : -9223372036854775808 ≤ n ∧ n < 9223372036854775808) : word? n = some n :=
  if_pos h

theorem natural32?_eq (h : 0 ≤ n ∧ n < 4294967296) : natural32? n = some n.toNat :=
  if_pos h

theorem add?_eq (h : -9223372036854775808 ≤ m + n ∧ m + n < 9223372036854775808) :
    add? m n = some (m + n) :=
  word?_eq h

theorem sub?_eq (h : -9223372036854775808 ≤ m - n ∧ m - n < 9223372036854775808) :
    sub? m n = some (m - n) :=
  word?_eq h

theorem mul?_eq (h : -9223372036854775808 ≤ m * n ∧ m * n < 9223372036854775808) :
    mul? m n = some (m * n) :=
  word?_eq h

/-- Numbers that are not negative are divided as usual. -/
theorem div?_eq (hm : 0 ≤ m) (hm' : m < 9223372036854775808) (hn : 0 < n) :
    div? m n = some (m / n) := by
  have hle : m / n ≤ m := Int.ediv_le_self n hm
  have hnonneg : 0 ≤ m / n := Int.ediv_nonneg hm (Int.le_of_lt hn)
  rw [div?, Int.tdiv_eq_ediv_of_nonneg hm]
  exact word?_eq (by omega)

theorem floorDiv?_eq (hm : -4611686018427387904 ≤ m) (hm' : m < 4611686018427387904) (hn : 0 < n)
    (hn' : n < 4611686018427387904) : floorDiv? m n = some (m.fdiv n) := by
  rw [Int.fdiv_eq_ediv_of_nonneg m (Int.le_of_lt hn), floorDiv?]
  by_cases h : 0 ≤ m
  · rw [if_pos h]
    exact div?_eq h (by omega) hn
  · have hback : (n - 1 - m) / n = -(m / n) := by
      have hsplit := Int.mul_ediv_add_emod m n
      have hrest := Int.emod_nonneg m (Int.ne_of_gt hn)
      have hrest' := Int.emod_lt_of_pos m hn
      rw [Int.ediv_eq_iff_of_pos hn, Int.neg_mul, Int.mul_comm]
      omega
    have hdown : (m - (n - 1)).tdiv n = m / n := by
      rw [← Int.neg_sub, Int.neg_tdiv, Int.tdiv_eq_ediv_of_nonneg (by omega), hback, Int.neg_neg]
    have hle : (n - 1 - m) / n ≤ n - 1 - m := Int.ediv_le_self n (by omega)
    have hnonneg : 0 ≤ (n - 1 - m) / n := Int.ediv_nonneg (by omega) (Int.le_of_lt hn)
    rw [if_neg h, sub?_eq (by omega)]
    show word? ((m - (n - 1)).tdiv n) = some (m / n)
    rw [hdown]
    exact word?_eq (by omega)

/-- The day number of an instant of 64 bits. -/
def InReach (days : Int) : Prop :=
  ∃ millis : Int64, millis.toInt.fdiv millisPerDay = days

theorem InReach.bounds {days : Int} (h : InReach days) :
    -106751991168 ≤ days ∧ days ≤ 106751991167 := by
  obtain ⟨millis, rfl⟩ := h
  have := millis.le_toInt
  have := millis.toInt_lt
  rw [millisPerDay, Int.fdiv_eq_ediv_of_nonneg _ (by decide)]
  omega

/-! ## The conversions -/

namespace Date

/-- The year of a day of an era. -/
def yearOfEra? (day : Int) : Option Int := do
  let days ← sub? day (← div? day 1460)
  let days ← add? days (← div? day 36524)
  div? (← sub? days (← div? day 146096)) 365

/-- The first day of a year of an era. -/
def firstDay? (year : Int) : Option Int := do
  sub? (← add? (← mul? 365 year) (← div? year 4)) (← div? year 100)

/-- The days of a year before a month, both counted from March on. -/
def daysBefore? (month : Int) : Option Int := do
  div? (← add? (← mul? 153 month) 2) 5

/-- The date of a day of a year that is counted from March on. -/
def ofDayOfYear? (era year day : Int) : Option Date := do
  let monthFromMarch ← div? (← add? (← mul? 5 day) 2) 153
  let dayOfMonth ← natural32? (← add? (← sub? day (← daysBefore? monthFromMarch)) 1)
  let month ← (if monthFromMarch < 10 then add? monthFromMarch 3 else sub? monthFromMarch 9)
  let month ← natural32? month
  let year ← add? year (← mul? era 400)
  return { year := ← add? year (if month ≤ 2 then 1 else 0), month, day := dayOfMonth }

/-- The date of a day number. -/
def ofDayNumber? (days : Int) : Option Date := do
  let shifted ← add? days 719468
  let era ← floorDiv? shifted 146097
  let dayOfEra ← sub? shifted (← mul? era 146097)
  let yearOfEra ← yearOfEra? dayOfEra
  ofDayOfYear? era yearOfEra (← sub? dayOfEra (← firstDay? yearOfEra))

/-- The day number of a date. -/
def dayNumber? (date : Date) : Option Int := do
  let year ← (if date.month ≤ 2 then sub? date.year 1 else some date.year)
  let era ← floorDiv? year 400
  let yearOfEra ← sub? year (← mul? era 400)
  let monthFromMarch ← natural32? (if 2 < date.month then date.month - 3 else date.month + 9)
  let dayOfYear ← sub? (← add? (← daysBefore? monthFromMarch) date.day) 1
  let dayOfEra ← add? (← firstDay? yearOfEra) dayOfYear
  sub? (← add? (← mul? era 146097) dayOfEra) 719468

theorem yearOfEra?_eq {day : Int} (hday : 0 ≤ day) (hday' : day < 146097) :
    yearOfEra? day = some ((day - day / 1460 + day / 36524 - day / 146096) / 365) := by
  have hdiv (n : Int) (hn : 0 < n) : div? day n = some (day / n) := div?_eq hday (by omega) hn
  simp only [yearOfEra?, hdiv 1460 (by decide), hdiv 36524 (by decide), hdiv 146096 (by decide),
    Option.bind_eq_bind, Option.bind_some]
  rw [sub?_eq (by omega), Option.bind_some, add?_eq (by omega), Option.bind_some, sub?_eq (by omega),
    Option.bind_some, div?_eq (by omega) (by omega) (by decide)]

theorem firstDay?_eq {year : Int} (hyear : 0 ≤ year) (hyear' : year < 400) :
    firstDay? year = some (firstDay year) := by
  have hdiv (n : Int) (hn : 0 < n) : div? year n = some (year / n) := div?_eq hyear (by omega) hn
  simp only [firstDay?, hdiv 4 (by decide), hdiv 100 (by decide), Option.bind_eq_bind,
    Option.bind_some]
  rw [mul?_eq (by omega), Option.bind_some, add?_eq (by omega), Option.bind_some, sub?_eq (by omega)]
  rfl

theorem daysBefore?_eq {month : Int} (hmonth : 0 ≤ month) (hmonth' : month ≤ 11) :
    daysBefore? month = some ((153 * month + 2) / 5) := by
  simp only [daysBefore?, Option.bind_eq_bind]
  rw [mul?_eq (by omega), Option.bind_some, add?_eq (by omega), Option.bind_some,
    div?_eq (by omega) (by omega) (by decide)]

theorem ofDayOfYear?_eq {era year day : Int} (h : InEra year day)
    (hera : -1000000 ≤ era ∧ era ≤ 1000000) :
    ofDayOfYear? era year day = some (ofDayOfYear era year day) := by
  have hday' := h.day_le
  obtain ⟨hyear, hyear', hday, -⟩ := h
  simp only [ofDayOfYear?, ofDayOfYear, Option.bind_eq_bind]
  rw [mul?_eq (by omega), Option.bind_some, add?_eq (by omega), Option.bind_some,
    div?_eq (by omega) (by omega) (by decide), Option.bind_some]
  obtain ⟨month, hmonth⟩ : ∃ m, m = (5 * day + 2) / 153 := ⟨_, rfl⟩
  obtain ⟨hlow, hhigh⟩ : 0 ≤ month ∧ month ≤ 11 := by omega
  obtain ⟨later, hlater⟩ : ∃ l, l = if month < 10 then month + 3 else month - 9 := ⟨_, rfl⟩
  have hshift : (if month < 10 then add? month 3 else sub? month 9) = some later := by
    rw [hlater]
    split
    · exact add?_eq (by omega)
    · exact sub?_eq (by omega)
  rw [← hmonth, ← hlater, daysBefore?_eq hlow hhigh, Option.bind_some, sub?_eq (by omega),
    Option.bind_some, add?_eq (by omega), Option.bind_some, natural32?_eq (by omega),
    Option.bind_some, hshift, Option.bind_some, natural32?_eq (by omega), Option.bind_some,
    mul?_eq (by omega), Option.bind_some, add?_eq (by omega), Option.bind_some,
    add?_eq (by omega), Option.bind_some]
  have hsame : later.toNat ≤ 2 ↔ later ≤ 2 := by omega
  simp only [hsame]
  rfl

/-- For a day in reach no operation fails. -/
theorem ofDayNumber?_eq {days : Int} (h : InReach days) :
    ofDayNumber? days = some (ofDayNumber days) := by
  obtain ⟨hlow, hhigh⟩ := h.bounds
  obtain ⟨era, hera⟩ : ∃ e, e = (days + 719468).fdiv 146097 := ⟨_, rfl⟩
  have hfdiv : (days + 719468).fdiv 146097 = (days + 719468) / 146097 :=
    Int.fdiv_eq_ediv_of_nonneg _ (by decide)
  obtain ⟨dayOfEra, hday⟩ : ∃ d, d = days + 719468 - era * 146097 := ⟨_, rfl⟩
  have hyear := yearOfEra_spec dayOfEra (by omega) (by omega)
  simp only [ofDayNumber?, Option.bind_eq_bind]
  rw [add?_eq (by omega), Option.bind_some, floorDiv?_eq (by omega) (by omega) (by decide) (by decide),
    Option.bind_some, ← hera, mul?_eq (by omega), Option.bind_some, sub?_eq (by omega), Option.bind_some,
    ← hday, yearOfEra?_eq (by omega) (by omega), Option.bind_some]
  obtain ⟨year, hy⟩ : ∃ y, y = (dayOfEra - dayOfEra / 1460 + dayOfEra / 36524 - dayOfEra / 146096) / 365 :=
    ⟨_, rfl⟩
  simp only [← hy] at hyear ⊢
  have := hyear.day_le
  have := hyear.day_nonneg
  rw [firstDay?_eq hyear.year_nonneg hyear.year_lt, Option.bind_some, sub?_eq (by omega), Option.bind_some,
    ofDayOfYear?_eq hyear (by omega)]
  simp only [ofDayNumber, ← hera, ← hday, ← hy]
  rfl

/-- For a date within a few hundred million years no operation fails, also if its month is shorter. -/
theorem dayNumber?_eq_of_bounds {date : Date} (hyear : -300000000 < date.year ∧ date.year ≤ 300000000)
    (hmonth : 1 ≤ date.month ∧ date.month ≤ 12) (hday : 1 ≤ date.day ∧ date.day ≤ 31) :
    date.dayNumber? = some date.dayNumber := by
  obtain ⟨year, month, day⟩ := date
  simp only at hyear hmonth hday
  obtain ⟨y, hy⟩ : ∃ y, y = if month ≤ 2 then year - 1 else year := ⟨_, rfl⟩
  obtain ⟨m, hm⟩ : ∃ m : Int, m = if 2 < month then (month : Int) - 3 else month + 9 := ⟨_, rfl⟩
  obtain ⟨hm0, hm11⟩ : 0 ≤ m ∧ m ≤ 11 := by omega
  have hybounds : -300000000 ≤ y ∧ y ≤ 300000000 := by omega
  have hstart : (if month ≤ 2 then sub? year 1 else some year) = some y := by
    rw [hy]
    split
    · exact sub?_eq (by omega)
    · rfl
  obtain ⟨era, hera⟩ : ∃ e, e = y.fdiv 400 := ⟨_, rfl⟩
  have hfdiv : y.fdiv 400 = y / 400 := Int.fdiv_eq_ediv_of_nonneg _ (by decide)
  have hfirst := @firstDay?_eq (y - era * 400) (by omega) (by omega)
  have hbelow : 0 ≤ firstDay (y - era * 400) ∧ firstDay (y - era * 400) < 146097 := by
    simp only [firstDay]
    omega
  have hnat : (m.toNat : Int) = m := Int.toNat_of_nonneg hm0
  simp only [dayNumber?, Option.bind_eq_bind]
  rw [hstart, Option.bind_some, floorDiv?_eq (by omega) (by omega) (by decide) (by decide), Option.bind_some,
    ← hera, mul?_eq (by omega), Option.bind_some, sub?_eq (by omega), Option.bind_some, ← hm,
    natural32?_eq (by omega), Option.bind_some, hnat, daysBefore?_eq hm0 hm11, Option.bind_some,
    add?_eq (by omega), Option.bind_some, sub?_eq (by omega), Option.bind_some, hfirst, Option.bind_some,
    add?_eq (by omega), Option.bind_some, mul?_eq (by omega), Option.bind_some, add?_eq (by omega),
    Option.bind_some, sub?_eq (by omega)]
  simp only [dayNumber, ← hy, ← hm, ← hera, firstDay, Option.some.injEq]
  omega

/-- For a date whose day is in reach no operation fails. -/
theorem dayNumber?_eq {date : Date} (h : date.IsValid) (hreach : InReach date.dayNumber) :
    date.dayNumber? = some date.dayNumber := by
  obtain ⟨year, month, day⟩ := date
  obtain ⟨hlow, hhigh⟩ := hreach.bounds
  obtain ⟨hmonth, hday⟩ := h
  have hlong : daysInMonth year month ≤ 31 := by
    unfold daysInMonth
    repeat' split
    all_goals omega
  rw [dayNumber_eq_first, dayNumber_first] at hlow hhigh
  simp only at hmonth hday hlow hhigh
  have hyear : -300000000 < year ∧ year ≤ 300000000 := by
    split at hlow <;> split at hlow <;> split at hhigh <;> omega
  exact dayNumber?_eq_of_bounds hyear hmonth ⟨hday.1, by simp only; omega⟩

end Date

/-- **Day numbers and dates correspond.** The day number of every instant of 64 bits is that of exactly one
date that exists, day 0 being the first of January 1970 and the next number that of the next date, and every
date that exists is that of its number. In words of 64 bits, with months and days of the month in natural
numbers of 32, both conversions go through without a number that does not fit. -/
theorem days_correspond :
    Date.ofDayNumber 0 = { year := 1970, month := 1, day := 1 } ∧
      (∀ millis : Int64,
        let days := millis.toInt.fdiv millisPerDay
        let date := Date.ofDayNumber days
        date.IsValid ∧ date.dayNumber = days ∧ Date.ofDayNumber (days + 1) = date.next ∧
          Date.ofDayNumber? days = some date ∧ date.dayNumber? = some days) ∧
      ∀ date : Date, date.IsValid → InReach date.dayNumber →
        Date.ofDayNumber date.dayNumber = date ∧ date.dayNumber? = some date.dayNumber ∧
          Date.ofDayNumber? date.dayNumber = some date := by
  refine ⟨by decide, fun millis => ?_, fun date valid reach => ?_⟩
  · intro days date
    have reach : InReach days := ⟨millis, rfl⟩
    have valid : date.IsValid := Date.isValid_ofDayNumber days
    have number : date.dayNumber = days := Date.dayNumber_ofDayNumber days
    refine ⟨valid, number, Date.ofDayNumber_succ days, Date.ofDayNumber?_eq reach, ?_⟩
    rw [Date.dayNumber?_eq valid (number ▸ reach), number]
  · have same := Date.ofDayNumber_dayNumber valid
    exact ⟨same, Date.dayNumber?_eq valid reach, (Date.ofDayNumber?_eq reach).trans (congrArg some same)⟩

/-- The leap day of a century that 400 divides, in the last era before year 0. -/
theorem days_correspond_leap_day :
    let date : Date := { year := -400, month := 2, day := 29 }
    date.IsValid ∧ date.dayNumber = -865566 ∧ Date.ofDayNumber? (-865566) = some date ∧
      date.next = { year := -400, month := 3, day := 1 } := by
  intro date
  have valid : date.IsValid := ⟨by decide, by decide⟩
  have number : date.dayNumber = -865566 := by decide
  have reach : InReach date.dayNumber := ⟨Int64.ofInt (-865566 * 86400000), by decide⟩
  obtain ⟨-, -, backwards⟩ := days_correspond
  obtain ⟨-, -, words⟩ := backwards date valid reach
  exact ⟨valid, number, number ▸ words, by decide⟩

end Reactor.Calendar
