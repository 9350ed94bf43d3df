import Reactor.Proofs.Calendar.Days
import Mathlib.Data.List.TakeDrop

/-!
# Texts of dates

* `Text.natural?_padDigits` : a padded number reads back.
* `splitAtFirst?_append` : the parts before and after a mark that the first part does not contain.
* `parse?_format` : the text of an instant reads back as that instant, for the years that a text may
  name.
-/

namespace Reactor

namespace Text

/-! ## Padded numbers -/

theorem toList_padDigits (width n : Nat) :
    (padDigits width n).toList =
      List.replicate (width - (Nat.toDigits 10 n).length) '0' ++ Nat.toDigits 10 n := by
  rw [padDigits, Nat.toString_eq_ofList_toDigits]
  simp

theorem isDigit_of_mem_padDigits {width n : Nat} {c : Char} (h : c ∈ (padDigits width n).toList) :
    c.isDigit = true := by
  rw [toList_padDigits, List.mem_append] at h
  rcases h with h | h
  · rw [List.eq_of_mem_replicate h]
    rfl
  · exact Nat.isDigit_of_mem_toDigits (by decide) (by decide) h

theorem padDigits_ne_nil (width n : Nat) : (padDigits width n).toList ≠ [] := by
  simp [toList_padDigits, Nat.toDigits_ne_nil]

theorem length_padDigits {width n : Nat} (hwidth : 0 < width) (h : n < tenTo width) :
    (padDigits width n).toList.length = width := by
  have := (Nat.length_toDigits_le_iff (b := 10) (by decide) hwidth).2 h
  simp only [toList_padDigits, List.length_append, List.length_replicate]
  omega

/-- Zeros in front do not count. -/
theorem digitsValue_zeros (k : Nat) (cs : List Char) :
    digitsValue (List.replicate k '0' ++ cs) = digitsValue cs := by
  induction k with
  | zero => rfl
  | succ k ih => exact ih

/-- A padded number reads back. -/
theorem natural?_padDigits (width n : Nat) : natural? (padDigits width n).toList = some n := by
  have hdigits : (padDigits width n).toList.all Char.isDigit = true :=
    List.all_eq_true.2 fun c hc => isDigit_of_mem_padDigits hc
  have hvalue : digitsValue (padDigits width n).toList = n := by
    rw [toList_padDigits, digitsValue_zeros]
    exact Nat.ofDigitChars_toDigits (by decide) (by decide)
  have hsome : (padDigits width n).toList.isEmpty = false := by
    simpa using padDigits_ne_nil width n
  rw [natural?, hdigits, hvalue, hsome]
  rfl

theorem naturalBelow?_padDigits {bound n : Nat} (h : n < bound) (width : Nat) :
    naturalBelow? bound (padDigits width n).toList = some n := by
  simp [naturalBelow?_eq, natural?_padDigits, Option.filter, h]

/-- A digit is not blank. -/
theorem isBlank_of_isDigit {c : Char} (h : c.isDigit = true) : isBlank c = false := by
  have hc : 48 ≤ c.toNat ∧ c.toNat ≤ 57 := by
    simpa [Char.isDigit, Char.le_def, UInt32.le_iff_toNat_le] using h
  simp only [isBlank, Bool.or_eq_false_iff, Bool.and_eq_false_iff, decide_eq_false_iff_not,
    beq_eq_false_iff_ne]
  omega

/-- A text that neither begins nor ends with a blank is left alone. -/
theorem trimChars_of_ends {first last : Char} {cs : List Char} (hfirst : isBlank first = false)
    (hlast : isBlank last = false) :
    trimChars (first :: cs ++ [last]) = first :: cs ++ [last] := by
  simp [trimChars, hfirst, hlast]

end Text

namespace Calendar

/-- The parts before and after a mark that the first part does not contain. -/
theorem splitAtFirst?_append {p : Char → Bool} {front back : List Char} {mark : Char}
    (hfront : ∀ c ∈ front, p c = false) (hmark : p mark = true) :
    splitAtFirst? p (front ++ mark :: back) = some (front, back) := by
  have htake : (front ++ mark :: back).takeWhile (fun c => !p c) = front := by
    rw [List.takeWhile_append_of_pos fun c hc => by simp [hfront c hc]]
    simp [hmark]
  have hdrop : (front ++ mark :: back).dropWhile (fun c => !p c) = mark :: back := by
    rw [List.dropWhile_append_of_pos fun c hc => by simp [hfront c hc]]
    simp [hmark]
  simp [splitAtFirst?, List.span_eq_takeWhile_dropWhile, htake, hdrop]

theorem splitAtFirst?_padDigits {p : Char → Bool} (width n : Nat) {back : List Char} {mark : Char}
    (hdigits : ∀ c : Char, c.isDigit = true → p c = false) (hmark : p mark = true) :
    splitAtFirst? p ((Text.padDigits width n).toList ++ mark :: back) =
      some ((Text.padDigits width n).toList, back) :=
  splitAtFirst?_append (fun c hc => hdigits c (Text.isDigit_of_mem_padDigits hc)) hmark

/-- A digit is not the same as another character. -/
theorem beq_of_isDigit {c mark : Char} (hc : c.isDigit = true) (hmark : mark.isDigit = false) :
    (c == mark) = false :=
  beq_false_of_ne fun h => by simp [h, hmark] at hc

/-- The characters of a day. -/
def dayChars (year month day : Nat) : List Char :=
  (Text.padDigits 4 year).toList ++ '-' :: ((Text.padDigits 2 month).toList ++
    '-' :: (Text.padDigits 2 day).toList)

theorem parseDay?_dayChars {year month day : Nat} (hyear : year ≤ maxYear)
    (hmonth : 1 ≤ month ∧ month ≤ 12) (hday : 1 ≤ day ∧ day ≤ 31) :
    parseDay? (dayChars year month day) = some (Date.mk year month day).dayNumber := by
  have hmark (c : Char) (hc : c.isDigit = true) : (c == '-') = false := beq_of_isDigit hc rfl
  have hzero : month ≠ 0 ∧ day ≠ 0 := by omega
  simpa [parseDay?, dayChars, splitAtFirst?_padDigits _ _ hmark,
    Text.naturalBelow?_padDigits (Nat.lt_succ_of_le hyear),
    Text.naturalBelow?_padDigits (Nat.lt_succ_of_le hmonth.2),
    Text.naturalBelow?_padDigits (Nat.lt_succ_of_le hday.2)] using hzero

/-- The characters of a time of day. -/
def clockChars (hours minutes seconds : Nat) : List Char :=
  (Text.padDigits 2 hours).toList ++ ':' :: ((Text.padDigits 2 minutes).toList ++
    ':' :: (Text.padDigits 2 seconds).toList)

/-- The characters of a time of day to the millisecond. -/
def timeChars (hours minutes seconds millis : Nat) : List Char :=
  clockChars hours minutes seconds ++ '.' :: (Text.padDigits 3 millis).toList ++ ['Z']

theorem beq_point_of_mem_clockChars {hours minutes seconds : Nat} {c : Char}
    (h : c ∈ clockChars hours minutes seconds) : (c == '.') = false := by
  simp only [clockChars, List.mem_append, List.mem_cons] at h
  rcases h with h | rfl | h | rfl | h
  · exact beq_of_isDigit (Text.isDigit_of_mem_padDigits h) rfl
  · rfl
  · exact beq_of_isDigit (Text.isDigit_of_mem_padDigits h) rfl
  · rfl
  · exact beq_of_isDigit (Text.isDigit_of_mem_padDigits h) rfl

theorem parseFraction?_padDigits {millis : Nat} (h : millis < 1000) :
    parseFraction? (Text.padDigits 3 millis).toList = some millis := by
  have hlength : (Text.padDigits 3 millis).toList.length = 3 :=
    Text.length_padDigits (by decide) h
  simp [parseFraction?, List.take_of_length_le (Nat.le_of_eq hlength), Text.natural?_padDigits,
    hlength, tenTo]

theorem parseTime?_timeChars {hours minutes seconds millis : Nat} (hhours : hours < 24)
    (hminutes : minutes < 60) (hseconds : seconds < 60) (hmillis : millis < 1000) :
    parseTime? (timeChars hours minutes seconds millis) =
      some (hours * 3600000 + minutes * 60000 + seconds * 1000 + millis) := by
  have hmark (c : Char) (hc : c.isDigit = true) : (c == ':') = false := beq_of_isDigit hc rfl
  have hpoint : splitAtFirst? (· == '.') (clockChars hours minutes seconds ++
      '.' :: (Text.padDigits 3 millis).toList) =
        some (clockChars hours minutes seconds, (Text.padDigits 3 millis).toList) :=
    splitAtFirst?_append (fun _ hc => beq_point_of_mem_clockChars hc) rfl
  have hseconds' : seconds < 61 := by omega
  have hlast : (timeChars hours minutes seconds millis).getLast? = some 'Z' :=
    List.getLast?_concat
  have hfront : (timeChars hours minutes seconds millis).dropLast =
      clockChars hours minutes seconds ++ '.' :: (Text.padDigits 3 millis).toList :=
    List.dropLast_concat
  simp only [parseTime?, hlast, hfront, beq_self_eq_true, if_true, hpoint]
  simp [clockChars, splitAtFirst?_padDigits _ _ hmark, Text.naturalBelow?_padDigits hhours,
    Text.naturalBelow?_padDigits hminutes, Text.naturalBelow?_padDigits hseconds',
    parseFraction?_padDigits hmillis]

/-! ## Whole texts -/

/-- The text of an instant of a year that is not negative. -/
theorem toList_format {millis : Int} {year : Nat}
    (hyear : (Date.ofDayNumber (millis.fdiv millisPerDay)).year = year) :
    let date := Date.ofDayNumber (millis.fdiv millisPerDay)
    let rest := (millis.fmod millisPerDay).toNat
    (format millis).toList = dayChars year date.month date.day ++
      'T' :: timeChars (rest / 3600000) (rest / 60000 % 60) (rest / 1000 % 60) (rest % 1000) := by
  have hpositive : ¬(year : Int) < 0 := by omega
  simp [format, formatYear, hyear, hpositive, dayChars, timeChars, clockChars]

theorem beq_separator_of_mem_dayChars {year month day : Nat} {c : Char}
    (h : c ∈ dayChars year month day) : (c == 'T' || c == ' ') = false := by
  have hdigit {c : Char} (hc : c.isDigit = true) : (c == 'T' || c == ' ') = false := by
    rw [beq_of_isDigit hc rfl, beq_of_isDigit hc rfl]
    rfl
  simp only [dayChars, List.mem_append, List.mem_cons] at h
  rcases h with h | rfl | h | rfl | h
  · exact hdigit (Text.isDigit_of_mem_padDigits h)
  · rfl
  · exact hdigit (Text.isDigit_of_mem_padDigits h)
  · rfl
  · exact hdigit (Text.isDigit_of_mem_padDigits h)

/-- The text of a day and a time of day begins with a digit and ends with a letter. -/
theorem trimChars_dayChars (year month day hours minutes seconds millis : Nat) :
    let cs := dayChars year month day ++ 'T' :: timeChars hours minutes seconds millis
    Text.trimChars cs = cs := by
  intro cs
  obtain ⟨first, rest, hyear⟩ := List.exists_cons_of_ne_nil (Text.padDigits_ne_nil 4 year)
  have hfirst : first.isDigit = true :=
    Text.isDigit_of_mem_padDigits (show first ∈ (Text.padDigits 4 year).toList by simp [hyear])
  obtain ⟨middle, hcs⟩ : ∃ middle, cs = first :: middle ++ ['Z'] := by
    simp only [cs, dayChars, timeChars, hyear, ← List.append_assoc, ← List.cons_append]
    exact ⟨_, rfl⟩
  rw [hcs]
  exact Text.trimChars_of_ends (Text.isBlank_of_isDigit hfirst) rfl

/-- A day and a time of day read back. -/
theorem parse?_of_toList {text : String} {year month day hours minutes seconds millis : Nat}
    (htext : text.toList = dayChars year month day ++ 'T' :: timeChars hours minutes seconds millis)
    (hyear : year ≤ maxYear) (hmonth : 1 ≤ month ∧ month ≤ 12) (hday : 1 ≤ day ∧ day ≤ 31)
    (hhours : hours < 24) (hminutes : minutes < 60) (hseconds : seconds < 60)
    (hmillis : millis < 1000) :
    parse? text = some ((Date.mk year month day).dayNumber * millisPerDay +
      (hours * 3600000 + minutes * 60000 + seconds * 1000 + millis : Nat)) := by
  have hsplit : splitAtFirst? (fun c => c == 'T' || c == ' ') (dayChars year month day ++
      'T' :: timeChars hours minutes seconds millis) =
        some (dayChars year month day, timeChars hours minutes seconds millis) :=
    splitAtFirst?_append (fun _ hc => beq_separator_of_mem_dayChars hc) rfl
  simp [parse?, htext, trimChars_dayChars, hsplit, parseDay?_dayChars hyear hmonth hday,
    parseTime?_timeChars hhours hminutes hseconds hmillis]

/-- The text of an instant reads back, for the years that a text may name. -/
theorem parse?_format {millis : Int}
    (hyear : 0 ≤ (Date.ofDayNumber (millis.fdiv millisPerDay)).year)
    (hyear' : (Date.ofDayNumber (millis.fdiv millisPerDay)).year ≤ maxYear) :
    parse? (format millis) = some millis := by
  have hrest : 0 ≤ millis.fmod millisPerDay ∧ millis.fmod millisPerDay < 86400000 :=
    ⟨Int.fmod_nonneg_of_pos _ (by decide), Int.fmod_lt_of_pos _ (by decide)⟩
  have hwhole : millis.fmod millisPerDay + millisPerDay * millis.fdiv millisPerDay = millis :=
    Int.fmod_add_mul_fdiv ..
  have hday := Date.dayNumber_ofDayNumber (millis.fdiv millisPerDay)
  obtain ⟨hmonth, hdays⟩ := Date.month_day_ofDayNumber (millis.fdiv millisPerDay)
  obtain ⟨year, hdate⟩ := Int.eq_ofNat_of_zero_le hyear
  rw [parse?_of_toList (toList_format hdate) (by omega) hmonth hdays (by omega) (by omega)
    (by omega) (by omega), ← hdate, hday]
  generalize millis.fdiv millisPerDay = days at hwhole ⊢
  generalize millis.fmod millisPerDay = rest at hrest hwhole ⊢
  simp only [millisPerDay, Option.some.injEq] at hwhole ⊢
  omega

end Calendar

end Reactor
