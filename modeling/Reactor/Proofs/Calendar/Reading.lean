import Mathlib.Data.List.TakeWhile
import Reactor.Proofs.Calendar.Stamps

/-!
# The texts that are read as dates

* `splitAtFirst?_eq_some_iff`, `naturalBelow?_eq_some_iff` : cuts and numerals.
* `parseDay?_eq_some_iff`, `parseClock?_eq_some_iff`, `parseTime?_eq_some_iff` : what the parts of a text are
  read as.
* `stamps_are_read` : the texts that are read are those of the accepted stamps.
-/

namespace Reactor.Calendar

/-! ## Cuts -/

variable {p : Char → Bool} {cs front back : List Char}

theorem splitAtFirst?_eq_some_iff :
    splitAtFirst? p cs = some (front, back) ↔
      ∃ mark, cs = front ++ mark :: back ∧ p mark = true ∧ ∀ c ∈ front, p c = false := by
  constructor
  · intro h
    have whole := List.takeWhile_append_dropWhile (p := fun c => !p c) (l := cs)
    rw [splitAtFirst?, List.span_eq_takeWhile_dropWhile] at h
    split at h
    · next _ mark _ heq =>
      obtain ⟨htake, hdrop⟩ := Prod.mk.inj heq
      obtain ⟨rfl, rfl⟩ := Prod.mk.inj (Option.some.inj h)
      have hmark : p mark = true := by
        have := List.head_dropWhile_not (fun c => !p c) (l := cs) (by simp [hdrop])
        simpa [hdrop] using this
      refine ⟨mark, by rw [← htake, ← hdrop, whole], hmark, fun c hc => ?_⟩
      have := List.mem_takeWhile_imp (p := fun c => !p c) (l := cs) (htake.symm ▸ hc)
      simpa using this
    · cases h
  · rintro ⟨mark, rfl, hmark, hfront⟩
    exact splitAtFirst?_append hfront hmark

theorem splitAtFirst?_eq_none_iff : splitAtFirst? p cs = none ↔ ∀ c ∈ cs, p c = false := by
  have hnone : splitAtFirst? p cs = none ↔ cs.dropWhile (fun c => !p c) = [] := by
    rw [splitAtFirst?, List.span_eq_takeWhile_dropWhile]
    split <;> simp_all
  rw [hnone, List.dropWhile_eq_nil_iff]
  simp

/-! ## Numerals -/

theorem natural?_eq_some_iff {n : Nat} :
    Text.natural? cs = some n ↔ ∃ digits : Digits, digits.chars = cs ∧ digits.value = n := by
  constructor
  · intro h
    rw [Text.natural?] at h
    split at h
    · next hdigits => exact ⟨.ofChars cs hdigits, rfl, Option.some.inj h⟩
    · cases h
  · rintro ⟨digits, rfl, rfl⟩
    have hdigits : (!digits.chars.isEmpty && digits.chars.all Char.isDigit) = true := by
      simpa using ⟨digits.ne_nil, digits.isDigit⟩
    exact if_pos hdigits

theorem naturalBelow?_eq_some_iff {bound n : Nat} :
    Text.naturalBelow? bound cs = some n ↔
      ∃ digits : Digits, digits.chars = cs ∧ digits.value = n ∧ n < bound := by
  rw [Text.naturalBelow?_eq, Option.filter_eq_some_iff, natural?_eq_some_iff, decide_eq_true_eq]
  constructor
  · rintro ⟨⟨digits, hchars, hvalue⟩, hbound⟩
    exact ⟨digits, hchars, hvalue, hbound⟩
  · rintro ⟨digits, hchars, hvalue, hbound⟩
    exact ⟨⟨digits, hchars, hvalue⟩, hbound⟩

/-- A mark that is not a digit ends a numeral. -/
theorem Digits.splitAtFirst?_chars (digits : Digits) (mark : Char) (back : List Char)
    (hmark : mark.isDigit = false) :
    Calendar.splitAtFirst? (· == mark) (digits.chars ++ mark :: back) = some (digits.chars, back) :=
  splitAtFirst?_append (digits.beq_mark hmark) (beq_self_eq_true mark)

theorem Digits.naturalBelow?_chars {digits : Digits} {bound : Nat} (h : digits.value < bound) :
    Text.naturalBelow? bound digits.chars = some digits.value :=
  naturalBelow?_eq_some_iff.2 ⟨digits, rfl, rfl, h⟩

/-! ## Days -/

theorem parseDay?_eq_some_iff {n : Int} :
    parseDay? cs = some n ↔
      ∃ stamp : DayStamp, stamp.Accepted ∧ stamp.chars = cs ∧ stamp.date.dayNumber = n := by
  constructor
  · intro h
    simp only [parseDay?, bind, Option.bind_eq_some_iff] at h
    obtain ⟨⟨yearChars, rest⟩, hyear, ⟨monthChars, dayChars⟩, hmonth, year, hyear', month, hmonth', day,
      hday', hnumber⟩ := h
    obtain ⟨_, rfl, hmark, -⟩ := splitAtFirst?_eq_some_iff.1 hyear
    obtain ⟨_, rfl, hmark', -⟩ := splitAtFirst?_eq_some_iff.1 hmonth
    obtain ⟨year, rfl, rfl, hyear⟩ := naturalBelow?_eq_some_iff.1 hyear'
    obtain ⟨month, rfl, rfl, hmonth⟩ := naturalBelow?_eq_some_iff.1 hmonth'
    obtain ⟨day, rfl, rfl, hday⟩ := naturalBelow?_eq_some_iff.1 hday'
    split at hnumber
    · cases hnumber
    · next hzero =>
      simp only [Bool.or_eq_true, beq_iff_eq, not_or] at hzero
      have accepted : (DayStamp.mk year month day).Accepted := by
        constructor
        all_goals simp only
        all_goals omega
      refine ⟨_, accepted, ?_, Option.some.inj hnumber⟩
      simp only [DayStamp.chars, eq_of_beq hmark, eq_of_beq hmark']
  · rintro ⟨⟨year, month, day⟩, ⟨hyear, hmonth, hday⟩, rfl, rfl⟩
    simp only at hyear hmonth hday
    have hzero : month.value ≠ 0 ∧ day.value ≠ 0 := by omega
    simp [parseDay?, DayStamp.chars, DayStamp.date, year.splitAtFirst?_chars '-' _ rfl,
      month.splitAtFirst?_chars '-' _ rfl, Digits.naturalBelow?_chars (Nat.lt_succ_of_le hyear),
      Digits.naturalBelow?_chars (Nat.lt_succ_of_le hmonth.2),
      Digits.naturalBelow?_chars (Nat.lt_succ_of_le hday.2), hzero]

/-! ## Times of day -/

/-- Reads `hours:minutes[:seconds]` as seconds. -/
def parseClock? (cs : List Char) : Option Nat := do
  let (hours, rest) ← splitAtFirst? (· == ':') cs
  let (minutes, seconds) :=
    match splitAtFirst? (· == ':') rest with
    | some (minutes, seconds) => (minutes, some seconds)
    | none => (rest, none)
  let hours ← Text.naturalBelow? 24 hours
  let minutes ← Text.naturalBelow? 60 minutes
  let seconds ← (match seconds with
    | some seconds => Text.naturalBelow? 61 seconds
    | none => some 0)
  return hours * 3600 + minutes * 60 + seconds

/-- Reads a time of day without the `Z` at its end as milliseconds. -/
def parsePlain? (cs : List Char) : Option Nat :=
  match splitAtFirst? (· == '.') cs with
  | some (clock, fraction) => do return (← parseClock? clock) * 1000 + (← parseFraction? fraction)
  | none => do return (← parseClock? cs) * 1000

theorem parseTime?_eq (cs : List Char) :
    parseTime? cs = parsePlain? (if cs.getLast? == some 'Z' then cs.dropLast else cs) := by
  rw [parseTime?, parsePlain?]
  generalize (if cs.getLast? == some 'Z' then cs.dropLast else cs) = body
  have scale (hours minutes seconds millis : Nat) :
      hours * 3600000 + minutes * 60000 + seconds * 1000 + millis =
        (hours * 3600 + minutes * 60 + seconds) * 1000 + millis := by
    omega
  cases splitAtFirst? (· == '.') body with
  | none =>
    simp only [parseClock?, bind, Option.bind_assoc, pure, Option.bind_some]
    refine Option.bind_congr fun _ _ => Option.bind_congr fun hours _ => ?_
    refine Option.bind_congr fun minutes _ => Option.bind_congr fun seconds _ => ?_
    rw [scale hours minutes seconds 0, Nat.add_zero]
  | some parts =>
    simp only [parseClock?, bind, Option.bind_assoc, pure, Option.bind_some]
    refine Option.bind_congr fun _ _ => Option.bind_congr fun hours _ => ?_
    refine Option.bind_congr fun minutes _ => Option.bind_congr fun seconds _ => ?_
    refine Option.bind_congr fun millis _ => ?_
    rw [scale hours minutes seconds millis]

theorem parseClock?_eq_some_iff {n : Nat} :
    parseClock? cs = some n ↔ ∃ stamp : ClockStamp, stamp.Accepted ∧ stamp.chars = cs ∧ stamp.total = n := by
  constructor
  · intro h
    simp only [parseClock?, bind, Option.bind_eq_some_iff] at h
    obtain ⟨⟨hourChars, rest⟩, hcut, hours, hhours', minutes, hminutes', seconds, hseconds', htotal⟩ := h
    obtain ⟨_, rfl, hmark, -⟩ := splitAtFirst?_eq_some_iff.1 hcut
    obtain ⟨hours, rfl, rfl, hhours⟩ := naturalBelow?_eq_some_iff.1 hhours'
    rw [eq_of_beq hmark]
    cases hcut' : splitAtFirst? (· == ':') rest with
    | none =>
      rw [hcut'] at hminutes' hseconds'
      obtain ⟨minutes, rfl, rfl, hminutes⟩ := naturalBelow?_eq_some_iff.1 hminutes'
      cases hseconds'
      refine ⟨⟨hours, minutes, none⟩, ⟨Nat.le_of_lt_succ hhours, Nat.le_of_lt_succ hminutes, ?_⟩, ?_,
        Option.some.inj htotal⟩
      · rintro _ ⟨⟩
      · simp [ClockStamp.chars]
    | some parts =>
      rw [hcut'] at hminutes' hseconds'
      obtain ⟨_, rfl, hmark', -⟩ := splitAtFirst?_eq_some_iff.1 hcut'
      obtain ⟨minutes, hchars, rfl, hminutes⟩ := naturalBelow?_eq_some_iff.1 hminutes'
      obtain ⟨seconds, hchars', rfl, hseconds⟩ := naturalBelow?_eq_some_iff.1 hseconds'
      refine ⟨⟨hours, minutes, some seconds⟩, ⟨Nat.le_of_lt_succ hhours, Nat.le_of_lt_succ hminutes, ?_⟩, ?_,
        Option.some.inj htotal⟩
      · rintro _ ⟨⟩
        exact Nat.le_of_lt_succ hseconds
      · simp [ClockStamp.chars, hchars, hchars', eq_of_beq hmark']
  · rintro ⟨⟨hours, minutes, seconds⟩, ⟨hhours, hminutes, hseconds⟩, rfl, rfl⟩
    simp only at hhours hminutes hseconds
    cases seconds with
    | none =>
      have hcut : splitAtFirst? (· == ':') minutes.chars = none :=
        splitAtFirst?_eq_none_iff.2 fun c hc => beq_of_isDigit (minutes.isDigit c hc) rfl
      simp [parseClock?, ClockStamp.chars, ClockStamp.total, hours.splitAtFirst?_chars ':' _ rfl, hcut,
        Digits.naturalBelow?_chars (Nat.lt_succ_of_le hhours), Digits.naturalBelow?_chars (Nat.lt_succ_of_le hminutes)]
    | some seconds =>
      simp [parseClock?, ClockStamp.chars, ClockStamp.total, hours.splitAtFirst?_chars ':' _ rfl,
        minutes.splitAtFirst?_chars ':' _ rfl,
        Digits.naturalBelow?_chars (Nat.lt_succ_of_le hhours), Digits.naturalBelow?_chars (Nat.lt_succ_of_le hminutes),
        Digits.naturalBelow?_chars (Nat.lt_succ_of_le (hseconds seconds rfl))]

theorem parseFraction?_eq_some_iff {n : Nat} :
    parseFraction? cs = some n ↔
      (cs ≠ [] ∧ ∀ c ∈ cs.take 3, c.isDigit = true) ∧ TimeStamp.fractionMillis cs = n := by
  have hlength : tenTo (3 - (cs.take 3).length) = 10 ^ (3 - cs.length) := by
    rw [List.length_take]
    congr 1
    omega
  simp only [parseFraction?, bind, Option.bind_eq_some_iff, natural?_eq_some_iff, hlength, TimeStamp.fractionMillis]
  constructor
  · rintro ⟨_, ⟨digits, hchars, rfl⟩, h⟩
    refine ⟨⟨?_, fun c hc => digits.isDigit c (hchars ▸ hc)⟩, ?_⟩
    · rintro rfl
      exact digits.ne_nil hchars
    · rw [← hchars]
      exact Option.some.inj h
  · rintro ⟨⟨hne, hdigits⟩, rfl⟩
    exact ⟨_, ⟨⟨cs.take 3, by simpa using hne, hdigits⟩, rfl, rfl⟩, rfl⟩

theorem parsePlain?_eq_some_iff {n : Nat} :
    parsePlain? cs = some n ↔ ∃ (clock : ClockStamp) (fraction : Option (List Char)),
      clock.Accepted ∧ (∀ digits ∈ fraction, digits ≠ [] ∧ ∀ c ∈ digits.take 3, c.isDigit = true) ∧
        clock.chars ++ fraction.elim [] ('.' :: ·) = cs ∧
          clock.total * 1000 + fraction.elim 0 TimeStamp.fractionMillis = n := by
  constructor
  · intro h
    rw [parsePlain?] at h
    split at h
    · next front back hcut =>
      obtain ⟨_, rfl, hmark, -⟩ := splitAtFirst?_eq_some_iff.1 hcut
      simp only [bind, Option.bind_eq_some_iff] at h
      obtain ⟨_, hclock, _, hfraction, h⟩ := h
      obtain ⟨clock, accepted, rfl, rfl⟩ := parseClock?_eq_some_iff.1 hclock
      obtain ⟨hdigits, rfl⟩ := parseFraction?_eq_some_iff.1 hfraction
      refine ⟨clock, some back, accepted, ?_, ?_, Option.some.inj h⟩
      · rintro _ ⟨⟩
        exact hdigits
      · rw [eq_of_beq hmark, Option.elim_some]
    · simp only [bind, Option.bind_eq_some_iff] at h
      obtain ⟨_, hclock, h⟩ := h
      obtain ⟨clock, accepted, rfl, rfl⟩ := parseClock?_eq_some_iff.1 hclock
      refine ⟨clock, none, accepted, ?_, ?_, by simpa using h⟩
      · rintro _ ⟨⟩
      · rw [Option.elim_none, List.append_nil]
  · rintro ⟨clock, fraction, accepted, hdigits, rfl, rfl⟩
    have hclock : parseClock? clock.chars = some clock.total :=
      parseClock?_eq_some_iff.2 ⟨clock, accepted, rfl, rfl⟩
    cases fraction with
    | none =>
      have hcut : splitAtFirst? (· == '.') clock.chars = none := splitAtFirst?_eq_none_iff.2 clock.beq_point
      simp [parsePlain?, hcut, hclock]
    | some digits =>
      have hcut : splitAtFirst? (· == '.') (clock.chars ++ '.' :: digits) = some (clock.chars, digits) :=
        splitAtFirst?_append clock.beq_point rfl
      have hfraction : parseFraction? digits = some (TimeStamp.fractionMillis digits) :=
        parseFraction?_eq_some_iff.2 ⟨hdigits digits rfl, rfl⟩
      simp [parsePlain?, hcut, hclock, hfraction]

/-- A clock and a fraction make a time of day with the `Z` that was taken off, if there is one. -/
theorem TimeStamp.exists_of_plain {clock : ClockStamp} {fraction : Option (List Char)}
    (h : clock.chars ++ fraction.elim [] ('.' :: ·) = if cs.getLast? == some 'Z' then cs.dropLast else cs) :
    ∃ stamp : TimeStamp, stamp.clock = clock ∧ stamp.fraction = fraction ∧ stamp.chars = cs := by
  by_cases hlast : cs.getLast? = some 'Z'
  · refine ⟨⟨clock, fraction, true, fun _ _ _ => rfl⟩, rfl, rfl, ?_⟩
    rw [if_pos (beq_iff_eq.2 hlast)] at h
    rw [TimeStamp.chars, TimeStamp.plainChars, h]
    exact List.dropLast_append_getLast? _ hlast
  · rw [if_neg (by simpa using hlast)] at h
    have hzulu (digits : List Char) (hmem : digits ∈ fraction) (h' : digits.getLast? = some 'Z') :
        false = true :=
      (hlast (h ▸ getLast?_plain.2 ⟨digits, hmem, h'⟩)).elim
    refine ⟨⟨clock, fraction, false, hzulu⟩, rfl, rfl, ?_⟩
    rw [TimeStamp.chars, TimeStamp.plainChars, h]
    exact List.append_nil _

theorem parseTime?_eq_some_iff {n : Nat} :
    parseTime? cs = some n ↔ ∃ stamp : TimeStamp, stamp.Accepted ∧ stamp.chars = cs ∧ stamp.millis = n := by
  rw [parseTime?_eq, parsePlain?_eq_some_iff]
  constructor
  · rintro ⟨clock, fraction, accepted, hdigits, hchars, rfl⟩
    obtain ⟨stamp, rfl, rfl, rfl⟩ := TimeStamp.exists_of_plain hchars
    exact ⟨stamp, ⟨accepted, hdigits⟩, rfl, rfl⟩
  · rintro ⟨stamp, ⟨accepted, hdigits⟩, rfl, rfl⟩
    exact ⟨stamp.clock, stamp.fraction, accepted, hdigits, stamp.dropLast_chars.symm, rfl⟩

/-! ## Whole texts -/

theorem parse?_eq_some_iff {text : String} {t : Int} :
    parse? text = some t ↔
      ∃ stamp : Stamp, stamp.Accepted ∧ stamp.chars = Text.trimChars text.toList ∧ stamp.instant = t := by
  rw [parse?]
  generalize Text.trimChars text.toList = cs
  constructor
  · intro h
    split at h
    · simp only [bind, Option.bind_eq_some_iff] at h
      obtain ⟨_, hday, h⟩ := h
      obtain ⟨day, accepted, rfl, rfl⟩ := parseDay?_eq_some_iff.1 hday
      refine ⟨⟨day, none⟩, ⟨accepted, ?_⟩, ?_, ?_⟩
      · rintro _ _ ⟨⟩
      · simp [Stamp.chars]
      · simpa [Stamp.instant, Stamp.millis] using h
    · next front back hcut =>
      obtain ⟨_, rfl, hmark, -⟩ := splitAtFirst?_eq_some_iff.1 hcut
      obtain ⟨mark, rfl⟩ := Mark.exists_char_iff.2 hmark
      simp only [bind, Option.bind_eq_some_iff] at h
      obtain ⟨_, hday, _, htime, h⟩ := h
      obtain ⟨day, accepted, rfl, rfl⟩ := parseDay?_eq_some_iff.1 hday
      obtain ⟨time, accepted', rfl, rfl⟩ := parseTime?_eq_some_iff.1 htime
      refine ⟨⟨day, some (mark, time)⟩, ⟨accepted, ?_⟩, ?_, Option.some.inj h⟩
      · rintro _ _ ⟨⟩
        exact accepted'
      · simp [Stamp.chars]
  · rintro ⟨⟨day, time⟩, ⟨accepted, accepted'⟩, rfl, rfl⟩
    have hday : parseDay? day.chars = some day.date.dayNumber :=
      parseDay?_eq_some_iff.2 ⟨day, accepted, rfl, rfl⟩
    cases time with
    | none =>
      have hcut : splitAtFirst? (fun c => c == 'T' || c == ' ') day.chars = none :=
        splitAtFirst?_eq_none_iff.2 day.beq_separator
      simp [Stamp.chars, Stamp.instant, Stamp.millis, hcut, hday]
    | some time =>
      obtain ⟨mark, time⟩ := time
      have hcut : splitAtFirst? (fun c => c == 'T' || c == ' ') (day.chars ++ mark.char :: time.chars) =
          some (day.chars, time.chars) :=
        splitAtFirst?_append day.beq_separator (Mark.exists_char_iff.1 ⟨mark, rfl⟩)
      have htime : parseTime? time.chars = some time.millis :=
        parseTime?_eq_some_iff.2 ⟨time, accepted' mark time rfl, rfl, rfl⟩
      simp [Stamp.chars, Stamp.instant, Stamp.millis, hcut, hday, htime]

/-- **Texts of dates.** A text is read as an instant just if it is, without the blanks around it, an accepted
stamp, and then it is the instant of that stamp, an integer of 64 bits. A stamp whose day exists and whose
fraction consists of digits is read only if it is one of the documented grammar, and as the instant of its
fields. -/
theorem stamps_are_read (text : String) (t : Int) :
    (parse? text = some t ↔
      ∃ stamp : Stamp, stamp.Accepted ∧ stamp.chars = Text.trimChars text.toList ∧ stamp.instant = t) ∧
    (parse? text = some t → (Int64.ofInt t).toInt = t ∧
      ∀ stamp : Stamp, stamp.chars = Text.trimChars text.toList → stamp.day.date.IsValid → ¬ stamp.Ragged →
        stamp.Documented ∧ stamp.Denotes t) := by
  refine ⟨parse?_eq_some_iff, fun h => ?_⟩
  obtain ⟨stamp, accepted, hchars, rfl⟩ := parse?_eq_some_iff.1 h
  have bounds := accepted.instant_bounds
  refine ⟨Int64.toInt_ofInt_of_le bounds.1 bounds.2, fun other hother valid even => ?_⟩
  obtain rfl : other = stamp := Stamp.chars_inj (hother.trans hchars.symm)
  have documented : other.Documented := ⟨accepted, valid, even⟩
  exact ⟨documented, documented.denotes⟩

/-- A leap second at the end of a leap day. -/
theorem leap_second_is_read :
    ∃ stamp : Stamp, stamp.chars = Text.trimChars " 2024-02-29 23:59:60.5 ".toList ∧
      stamp.day.date = { year := 2024, month := 2, day := 29 } ∧ stamp.Documented ∧
        stamp.Denotes 1709251200500 := by
  let day : DayStamp :=
    { year := .ofChars "2024".toList (by decide), month := .ofChars "02".toList (by decide)
      day := .ofChars "29".toList (by decide) }
  let clock : ClockStamp :=
    { hours := .ofChars "23".toList (by decide), minutes := .ofChars "59".toList (by decide)
      seconds := some (.ofChars "60".toList (by decide)) }
  let time : TimeStamp := { clock, fraction := some "5".toList, zulu := false, zulu_of_getLast? := by decide }
  let stamp : Stamp := { day, time := some (.blank, time) }
  have hchars : stamp.chars = Text.trimChars " 2024-02-29 23:59:60.5 ".toList := by decide
  have valid : stamp.day.date.IsValid := ⟨by decide, by decide⟩
  have even : ¬ stamp.Ragged := by
    rintro ⟨mark, time, cs, ⟨⟩, ⟨⟩, c, hc, h⟩
    have := List.all_eq_true.1 (by decide : "5".toList.all Char.isDigit = true) c hc
    simp [h] at this
  have hread : parse? " 2024-02-29 23:59:60.5 " = some 1709251200500 := by decide
  obtain ⟨-, h⟩ := stamps_are_read " 2024-02-29 23:59:60.5 " 1709251200500
  exact ⟨stamp, hchars, by decide, (h hread).2 stamp hchars valid even⟩

/-- The last day of February is the 29th or earlier, and a fraction consists of digits, but other texts are read
as well. -/
theorem undocumented_is_read :
    (parse? "2024-02-31" = some 1709337600000 ∧
      ∀ stamp : Stamp, stamp.chars = Text.trimChars "2024-02-31".toList → ¬ stamp.Documented) ∧
    parse? "2024-01-01T00:00:00.123abc" = some 1704067200123 ∧
      ∀ stamp : Stamp, stamp.chars = Text.trimChars "2024-01-01T00:00:00.123abc".toList →
        ¬ stamp.Documented := by
  let year : Digits := .ofChars "2024".toList (by decide)
  let one : Digits := .ofChars "01".toList (by decide)
  let zero : Digits := .ofChars "00".toList (by decide)
  refine ⟨⟨by decide, fun stamp hchars documented => ?_⟩, by decide, fun stamp hchars documented => ?_⟩
  · let february : Stamp :=
      { day := { year, month := .ofChars "02".toList (by decide)
                 day := .ofChars "31".toList (by decide) }
        time := none }
    have same : february.chars = stamp.chars := .trans (by decide) hchars.symm
    rw [← Stamp.chars_inj same] at documented
    have := documented.exists_day.day.2
    revert this
    decide
  · let time : TimeStamp :=
      { clock := { hours := zero, minutes := zero, seconds := some zero }, fraction := some "123abc".toList
        zulu := false, zulu_of_getLast? := by decide }
    let ragged : Stamp := { day := { year, month := one, day := one }, time := some (.letter, time) }
    have same : ragged.chars = stamp.chars := .trans (by decide) hchars.symm
    rw [← Stamp.chars_inj same] at documented
    exact documented.not_ragged ⟨.letter, time, _, rfl, rfl, 'a', by decide, by decide⟩

end Reactor.Calendar
