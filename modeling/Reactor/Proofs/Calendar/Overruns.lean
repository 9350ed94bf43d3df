import Reactor.Proofs.Calendar.Reading
import Reactor.Proofs.Calendar.Words

/-!
# The reading of dates in machine words

A text is read as an instant in integers of 64 bits. Here the reading is done word by word, as the conversions
of dates are: it goes wrong if a number is not a word, and this is something else than to refuse the text. The
scale of a fraction is taken from the number of bytes of its first three characters, as a natural number of 32
bits, and this is the only operation that can go wrong.

* `Careful` : a reading that can go wrong.
* `readInWords` : the reading of a text, operation by operation.
* `Stamp.Overruns` : the fraction of the stamp begins with three characters that take more than three bytes.
* `reading_stays_in_words` : the reading goes wrong for the texts of these stamps only.
-/

namespace Reactor.Calendar

/-! ## Readings that go wrong -/

/-- A reading that gives `none` if a number leaves its type, `some none` if the text is refused, and otherwise
what was read. -/
abbrev Careful (α : Type) := OptionT Option α

namespace Careful

variable {α β : Type}

/-- What is read from a text, or refused. -/
def text (read : Option α) : Careful α :=
  OptionT.mk (some read)

/-- The result of an operation on words. -/
def word (result : Option α) : Careful α :=
  OptionT.lift result

/-- A number has left its type. -/
def wrong : Careful α :=
  OptionT.mk none

@[simp] theorem text_none_bind (f : α → Careful β) : (text none >>= f) = text none :=
  OptionT.ext rfl

@[simp] theorem text_some_bind (a : α) (f : α → Careful β) : (text (some a) >>= f) = f a :=
  OptionT.ext rfl

@[simp] theorem word_some_bind (a : α) (f : α → Careful β) : (word (some a) >>= f) = f a :=
  OptionT.ext rfl

@[simp] theorem word_none_bind (f : α → Careful β) : (word none >>= f) = wrong :=
  OptionT.ext rfl

@[simp] theorem wrong_bind (f : α → Careful β) : (wrong >>= f) = wrong :=
  OptionT.ext rfl

theorem pure_eq_text (a : α) : (pure a : Careful α) = text (some a) :=
  OptionT.ext rfl

theorem word_some (a : α) : word (some a) = text (some a) :=
  OptionT.ext rfl

end Careful

open Careful

/-! ## The reading in words -/

/-- The bytes that characters take in UTF-8. -/
def utf8Bytes (cs : List Char) : Nat :=
  (cs.map Char.utf8Size).sum

/-- The power of ten, as a word. -/
def tenTo? (n : Nat) : Option Int :=
  word? (10 ^ n)

/-- The start of a day that is read as `year-month-day`. -/
def dayInWords (cs : List Char) : Careful Int := do
  let (year, rest) ← text (splitAtFirst? (· == '-') cs)
  let (month, day) ← text (splitAtFirst? (· == '-') rest)
  let year ← text (Text.naturalBelow? (maxYear + 1) year)
  let month ← text (Text.naturalBelow? 13 month)
  let day ← text (Text.naturalBelow? 32 day)
  if month == 0 || day == 0 then text none
  else
    let number ← word (Date.mk year month day).dayNumber?
    word (mul? number millisPerDay)

/-- The hours, minutes and seconds that are read. -/
def parseFields? (cs : List Char) : Option (Nat × Nat × Nat) := do
  let (hours, rest) ← splitAtFirst? (· == ':') cs
  let (minutes, seconds) :=
    match splitAtFirst? (· == ':') rest with
    | some (minutes, seconds) => (minutes, some seconds)
    | none => (rest, none)
  let hours ← Text.naturalBelow? 24 hours
  let minutes ← Text.naturalBelow? 60 minutes
  let seconds ← (match seconds with
    | some seconds => Text.naturalBelow? 61 seconds
    | none => some 0)
  return (hours, minutes, seconds)

/-- The first characters of a fraction as milliseconds. Their scale is worked out before they are read. -/
def fractionInWords (cs : List Char) : Careful Int := do
  let digits := cs.take 3
  let places ← word (natural32? (3 - (utf8Bytes digits : Int)))
  let scale ← word (tenTo? places)
  let n ← text (Text.natural? digits)
  word (mul? n scale)

/-- The milliseconds since a day began. -/
def totalInWords (hours minutes seconds millis : Int) : Option Int := do
  let hours ← mul? hours 3600000
  let total ← add? hours (← mul? minutes 60000)
  let total ← add? total (← mul? seconds 1000)
  add? total millis

/-- A time of day without the `Z` at its end. -/
def timeInWords (cs : List Char) : Careful Int := do
  let (clock, fraction) :=
    match splitAtFirst? (· == '.') cs with
    | some (clock, fraction) => (clock, some fraction)
    | none => (cs, none)
  let (hours, minutes, seconds) ← text (parseFields? clock)
  let millis ← (match fraction with
    | some fraction => fractionInWords fraction
    | none => pure 0)
  word (totalInWords hours minutes seconds millis)

/-- The instant that a text shows. -/
def readInWords (s : String) : Careful Int := do
  let cs := Text.trimChars s.toList
  match splitAtFirst? (fun c => c == 'T' || c == ' ') cs with
  | none => dayInWords cs
  | some (date, time) =>
    let start ← dayInWords date
    let millis ← timeInWords (if time.getLast? == some 'Z' then time.dropLast else time)
    word (add? start millis)

variable {cs : List Char}

/-! ## Days -/

theorem lt_of_naturalBelow? {bound n : Nat} (h : Text.naturalBelow? bound cs = some n) : n < bound := by
  obtain ⟨digits, -, -, hlt⟩ := naturalBelow?_eq_some_iff.1 h
  exact hlt

theorem dayMillis_eq {year month day : Nat} (hyear : year < maxYear + 1) (hmonth : month < 13)
    (hday : day < 32) (hzero : (month == 0 || day == 0) = false) :
    (Date.mk year month day).dayNumber? = some (Date.mk year month day).dayNumber ∧
      mul? (Date.mk year month day).dayNumber millisPerDay =
        some ((Date.mk year month day).dayNumber * millisPerDay) := by
  simp only [Bool.or_eq_false_iff, beq_eq_false_iff_ne] at hzero
  have hmonth' : 1 ≤ month ∧ month ≤ 12 := by omega
  have hday' : 1 ≤ day ∧ day ≤ 31 := by omega
  have hbounds := Date.dayNumber_bounds (Nat.le_of_lt_succ hyear) hmonth' hday'
  simp only [maxYear] at hyear
  refine ⟨Date.dayNumber?_eq_of_bounds ⟨?_, ?_⟩ hmonth' hday', mul?_eq ?_⟩
  · show (-300000000 : Int) < year
    omega
  · show (year : Int) ≤ 300000000
    omega
  · simp only [millisPerDay]
    omega

/-- The start of a day is worked out without a number that is not a word. -/
theorem dayInWords_eq (cs : List Char) :
    dayInWords cs = text ((parseDay? cs).map (· * millisPerDay)) := by
  unfold dayInWords parseDay?
  cases splitAtFirst? (· == '-') cs with
  | none => rfl
  | some parts =>
    obtain ⟨yearChars, rest⟩ := parts
    simp only [text_some_bind, Option.bind_eq_bind, Option.bind_some]
    cases splitAtFirst? (· == '-') rest with
    | none => rfl
    | some parts =>
      obtain ⟨monthChars, dayChars⟩ := parts
      simp only [text_some_bind, Option.bind_some]
      cases hyear : Text.naturalBelow? (maxYear + 1) yearChars with
      | none => rfl
      | some year =>
        cases hmonth : Text.naturalBelow? 13 monthChars with
        | none => rfl
        | some month =>
          cases hday : Text.naturalBelow? 32 dayChars with
          | none => rfl
          | some day =>
            simp only [text_some_bind, Option.bind_some]
            split
            · rfl
            · rename_i hzero
              obtain ⟨hnumber, hmillis⟩ := dayMillis_eq (lt_of_naturalBelow? hyear)
                (lt_of_naturalBelow? hmonth) (lt_of_naturalBelow? hday) (Bool.eq_false_iff.2 hzero)
              rw [hnumber, word_some_bind, hmillis]
              rfl

/-! ## Times of day -/

theorem parseClock?_eq (cs : List Char) :
    parseClock? cs = (parseFields? cs).map fun (hours, minutes, seconds) =>
      hours * 3600 + minutes * 60 + seconds := by
  simp only [parseClock?, parseFields?, Option.bind_eq_bind, Option.map_bind, Function.comp_def]
  refine Option.bind_congr fun _ _ => Option.bind_congr fun hours _ => ?_
  exact Option.bind_congr fun minutes _ => Option.bind_congr fun seconds _ => rfl

/-- What a minute may have, and what a day may have. -/
theorem bounds_of_parseFields? {hours minutes seconds : Nat}
    (h : parseFields? cs = some (hours, minutes, seconds)) : hours ≤ 23 ∧ minutes ≤ 59 ∧ seconds ≤ 60 := by
  simp only [parseFields?, bind, Option.bind_eq_some_iff] at h
  obtain ⟨⟨hourChars, rest⟩, -, hours, hhours, minutes, hminutes, seconds, hseconds, h⟩ := h
  cases h
  refine ⟨Nat.le_of_lt_succ (lt_of_naturalBelow? hhours), Nat.le_of_lt_succ (lt_of_naturalBelow? hminutes), ?_⟩
  cases hcut : splitAtFirst? (· == ':') rest with
  | none =>
    rw [hcut] at hseconds
    cases hseconds
    exact Nat.zero_le _
  | some parts =>
    rw [hcut] at hseconds
    exact Nat.le_of_lt_succ (lt_of_naturalBelow? hseconds)

theorem totalInWords_eq {hours minutes seconds millis : Nat} (hhours : hours ≤ 23) (hminutes : minutes ≤ 59)
    (hseconds : seconds ≤ 60) (hmillis : millis < 1000) :
    totalInWords hours minutes seconds millis =
      some (((hours * 3600 + minutes * 60 + seconds) * 1000 + millis : Nat) : Int) := by
  simp only [totalInWords, Option.bind_eq_bind]
  rw [mul?_eq (by omega), Option.bind_some, mul?_eq (by omega), Option.bind_some, add?_eq (by omega),
    Option.bind_some, mul?_eq (by omega), Option.bind_some, add?_eq (by omega), Option.bind_some,
    add?_eq (by omega)]
  exact congrArg some (by omega)

/-! ## Fractions -/

theorem utf8Bytes_of_isDigit (h : ∀ c ∈ cs, c.isDigit = true) : utf8Bytes cs = cs.length := by
  induction cs with
  | nil => rfl
  | cons c cs ih =>
    have hone : c.utf8Size = 1 := by
      have hc := h c List.mem_cons_self
      simp only [Char.isDigit, Bool.and_eq_true, decide_eq_true_eq] at hc
      exact Char.utf8Size_eq_one_iff.2 (UInt32.le_trans hc.2 (by decide))
    have hrest := ih fun d hd => h d (List.mem_cons_of_mem c hd)
    rw [utf8Bytes] at hrest ⊢
    rw [List.map_cons, List.sum_cons, hone, hrest, List.length_cons, Nat.add_comm]

/-- The scale of digits is a word. -/
theorem tenTo?_eq {n : Nat} (h : n ≤ 3) : tenTo? n = some ((10 ^ n : Nat) : Int) := by
  interval_cases n <;> rfl

theorem parseFraction?_lt {n : Nat} (h : parseFraction? cs = some n) : n < 1000 := by
  obtain ⟨⟨-, hdigits⟩, rfl⟩ := parseFraction?_eq_some_iff.1 h
  exact fractionMillis_lt hdigits

/-- The scale of a fraction is not a natural number if its first characters take more than three bytes. Otherwise
nothing goes wrong, since digits take one byte each. -/
theorem fractionInWords_eq (cs : List Char) :
    fractionInWords cs =
      if 3 < utf8Bytes (cs.take 3) then wrong else text ((parseFraction? cs).map Nat.cast) := by
  unfold fractionInWords
  dsimp only
  by_cases h : 3 < utf8Bytes (cs.take 3)
  · have hneg : natural32? (3 - (utf8Bytes (cs.take 3) : Int)) = none := if_neg (by omega)
    rw [if_pos h, hneg]
    rfl
  · have hplaces : natural32? (3 - (utf8Bytes (cs.take 3) : Int)) = some (3 - utf8Bytes (cs.take 3)) := by
      rw [natural32?_eq (by omega)]
      exact congrArg some (by omega)
    rw [if_neg h, hplaces, word_some_bind, tenTo?_eq (Nat.sub_le _ _), word_some_bind]
    cases hn : Text.natural? (cs.take 3) with
    | none =>
      rw [parseFraction?, hn]
      rfl
    | some n =>
      obtain ⟨digits, hchars, -⟩ := natural?_eq_some_iff.1 hn
      have hbytes : utf8Bytes (cs.take 3) = (cs.take 3).length :=
        utf8Bytes_of_isDigit fun c hc => digits.isDigit c (hchars ▸ hc)
      have hmillis : parseFraction? cs = some (n * 10 ^ (3 - (cs.take 3).length)) := by
        rw [parseFraction?, hn]
        rfl
      have hlt := parseFraction?_lt hmillis
      have hproduct : mul? n ((10 ^ (3 - (cs.take 3).length) : Nat) : Int) =
          some ((n * 10 ^ (3 - (cs.take 3).length) : Nat) : Int) := by
        rw [mul?, ← Int.natCast_mul]
        exact word?_eq (by omega)
      rw [hbytes, hmillis, text_some_bind, hproduct]
      rfl

/-! ## Whole times and texts -/

/-- A time of day that has a clock, and a fraction whose first characters take more than three bytes. -/
def Overrunning (cs : List Char) : Prop :=
  ∃ clock fraction total, splitAtFirst? (· == '.') cs = some (clock, fraction) ∧
    parseClock? clock = some total ∧ 3 < utf8Bytes (fraction.take 3)

/-- What is read before the fraction: the fields of a clock. -/
theorem fields_cases (cs : List Char) :
    (parseFields? cs = none ∧ parseClock? cs = none) ∨
      ∃ hours minutes seconds, parseFields? cs = some (hours, minutes, seconds) ∧
        parseClock? cs = some (hours * 3600 + minutes * 60 + seconds) ∧
        ∀ millis : Nat, millis < 1000 → totalInWords hours minutes seconds millis =
          some (((hours * 3600 + minutes * 60 + seconds) * 1000 + millis : Nat) : Int) := by
  rw [parseClock?_eq]
  cases h : parseFields? cs with
  | none => exact .inl ⟨rfl, rfl⟩
  | some fields =>
    obtain ⟨hours, minutes, seconds⟩ := fields
    obtain ⟨hhours, hminutes, hseconds⟩ := bounds_of_parseFields? h
    exact .inr ⟨hours, minutes, seconds, rfl, rfl, fun _ => totalInWords_eq hhours hminutes hseconds⟩

theorem timeInWords_of_overrunning (h : Overrunning cs) : timeInWords cs = wrong := by
  obtain ⟨clock, fraction, total, hcut, hclock, hbytes⟩ := h
  unfold timeInWords
  rw [hcut]
  rcases fields_cases clock with ⟨-, hnone⟩ | ⟨hours, minutes, seconds, hfields, -⟩
  · rw [hnone] at hclock
    cases hclock
  · simp only [hfields, text_some_bind, fractionInWords_eq, if_pos hbytes, wrong_bind]

theorem timeInWords_eq (h : ¬Overrunning cs) : timeInWords cs = text ((parsePlain? cs).map Nat.cast) := by
  unfold timeInWords parsePlain?
  cases hcut : splitAtFirst? (· == '.') cs with
  | none =>
    rcases fields_cases cs with ⟨hfields, hclock⟩ | ⟨hours, minutes, seconds, hfields, hclock, htotal⟩
    · simp only [hfields, hclock]
      rfl
    · have htotal := htotal 0 (by decide)
      rw [Nat.add_zero, Nat.cast_zero] at htotal
      simp only [hfields, hclock, text_some_bind, pure_eq_text, htotal, word_some, Option.bind_eq_bind,
        Option.bind_some, Option.pure_def, Option.map_some]
  | some parts =>
    obtain ⟨clock, fraction⟩ := parts
    rcases fields_cases clock with ⟨hfields, hclock⟩ | ⟨hours, minutes, seconds, hfields, hclock, htotal⟩
    · simp only [hfields, hclock]
      rfl
    · have hbytes : ¬3 < utf8Bytes (fraction.take 3) :=
        fun hbytes => h ⟨clock, fraction, _, hcut, hclock, hbytes⟩
      simp only [hfields, hclock, text_some_bind, fractionInWords_eq, if_neg hbytes]
      cases hmillis : parseFraction? fraction with
      | none => rfl
      | some millis =>
        simp only [text_some_bind, htotal millis (parseFraction?_lt hmillis), word_some,
          Option.bind_eq_bind, Option.bind_some, Option.pure_def, Option.map_some]

/-- A stamp whose day and clock are accepted, with a fraction that begins with three characters of more than
three bytes together. -/
structure Stamp.Overruns (stamp : Stamp) : Prop where
  day : stamp.day.Accepted
  fraction : ∃ mark time cs, stamp.time = some (mark, time) ∧ time.clock.Accepted ∧ time.fraction = some cs ∧
    3 < utf8Bytes (cs.take 3)

/-- The time of day without the `Z` at its end. -/
def withoutZulu (cs : List Char) : List Char :=
  if cs.getLast? == some 'Z' then cs.dropLast else cs

theorem overrunning_iff {cs : List Char} :
    Overrunning (withoutZulu cs) ↔ ∃ (stamp : TimeStamp) (fraction : List Char), stamp.chars = cs ∧
      stamp.clock.Accepted ∧ stamp.fraction = some fraction ∧ 3 < utf8Bytes (fraction.take 3) := by
  constructor
  · rintro ⟨clock, fraction, total, hcut, hclock, hbytes⟩
    obtain ⟨clock, accepted, rfl, -⟩ := parseClock?_eq_some_iff.1 hclock
    obtain ⟨_, hchars, hmark, -⟩ := splitAtFirst?_eq_some_iff.1 hcut
    have hplain : clock.chars ++ (some fraction).elim [] ('.' :: ·) = withoutZulu cs := by
      rw [hchars, eq_of_beq hmark, Option.elim_some]
    obtain ⟨stamp, rfl, hfraction, rfl⟩ := TimeStamp.exists_of_plain hplain
    exact ⟨stamp, fraction, rfl, accepted, hfraction, hbytes⟩
  · rintro ⟨stamp, fraction, rfl, accepted, hfraction, hbytes⟩
    refine ⟨stamp.clock.chars, fraction, _, ?_, parseClock?_eq_some_iff.2 ⟨_, accepted, rfl, rfl⟩, hbytes⟩
    rw [withoutZulu, stamp.dropLast_chars, TimeStamp.plainChars, hfraction]
    exact splitAtFirst?_append stamp.clock.beq_point rfl

/-- The texts of stamps that overrun, after the text has been cut at the mark. -/
theorem overruns_iff {cs date time : List Char}
    (hcut : splitAtFirst? (fun c => c == 'T' || c == ' ') cs = some (date, time)) :
    (∃ stamp : Stamp, stamp.chars = cs ∧ stamp.Overruns) ↔
      (∃ n, parseDay? date = some n) ∧ Overrunning (withoutZulu time) := by
  rw [overrunning_iff]
  constructor
  · rintro ⟨⟨day, _⟩, rfl, hday, mark, stamp, fraction, rfl, hrest⟩
    have hcut' : splitAtFirst? (fun c => c == 'T' || c == ' ') (day.chars ++ mark.char :: stamp.chars) =
        some (day.chars, stamp.chars) :=
      splitAtFirst?_append day.beq_separator (Mark.exists_char_iff.1 ⟨mark, rfl⟩)
    obtain ⟨rfl, rfl⟩ := Prod.mk.inj (Option.some.inj (hcut'.symm.trans hcut))
    exact ⟨⟨_, parseDay?_eq_some_iff.2 ⟨day, hday, rfl, rfl⟩⟩, stamp, fraction, rfl, hrest⟩
  · rintro ⟨⟨n, hdate⟩, stamp, fraction, rfl, hrest⟩
    obtain ⟨day, accepted, rfl, -⟩ := parseDay?_eq_some_iff.1 hdate
    obtain ⟨_, rfl, hmark, -⟩ := splitAtFirst?_eq_some_iff.1 hcut
    obtain ⟨mark, rfl⟩ := Mark.exists_char_iff.2 hmark
    exact ⟨⟨day, some (mark, stamp)⟩, rfl, accepted, mark, stamp, fraction, rfl, hrest⟩

/-- Without a mark there is no fraction. -/
theorem not_overruns {cs : List Char} (hcut : splitAtFirst? (fun c => c == 'T' || c == ' ') cs = none) :
    ¬∃ stamp : Stamp, stamp.chars = cs ∧ stamp.Overruns := by
  rintro ⟨⟨day, _⟩, rfl, hday, mark, stamp, fraction, rfl, hrest⟩
  have hmark := splitAtFirst?_eq_none_iff.1 hcut mark.char (by simp [Stamp.chars])
  rw [Mark.exists_char_iff.1 ⟨mark, rfl⟩] at hmark
  cases hmark

theorem word?_of_parse? {s : String} {t : Int} (h : parse? s = some t) : word? t = some t := by
  obtain ⟨stamp, accepted, -, rfl⟩ := parse?_eq_some_iff.1 h
  exact word?_eq accepted.instant_bounds

/-- A fraction of digits does not overrun. -/
theorem parse?_of_overruns {s : String} {stamp : Stamp} (hchars : stamp.chars = Text.trimChars s.toList)
    (h : stamp.Overruns) : parse? s = none := by
  rw [Option.eq_none_iff_forall_not_mem]
  intro t ht
  obtain ⟨stamp', accepted, hchars', -⟩ := parse?_eq_some_iff.1 ht
  obtain rfl : stamp = stamp' := Stamp.chars_inj (hchars.trans hchars'.symm)
  obtain ⟨mark, time, cs, htime, -, hfraction, hbytes⟩ := h.fraction
  have hdigits := ((accepted.time mark time htime).fraction cs hfraction).2
  rw [utf8Bytes_of_isDigit hdigits, List.length_take] at hbytes
  omega

theorem readInWords_eq (s : String) :
    readInWords s = wrong ∧ (∃ stamp : Stamp, stamp.chars = Text.trimChars s.toList ∧ stamp.Overruns) ∨
      readInWords s = text (parse? s) ∧
        ¬∃ stamp : Stamp, stamp.chars = Text.trimChars s.toList ∧ stamp.Overruns := by
  have hword (t : Int) (h : parse? s = some t) : word? t = some t := word?_of_parse? h
  unfold readInWords
  rw [parse?] at hword ⊢
  dsimp only at hword ⊢
  generalize Text.trimChars s.toList = cs at hword ⊢
  cases hcut : splitAtFirst? (fun c => c == 'T' || c == ' ') cs with
  | none =>
    refine .inr ⟨?_, not_overruns hcut⟩
    simp only [dayInWords_eq]
    cases parseDay? cs <;> rfl
  | some parts =>
    obtain ⟨date, time⟩ := parts
    simp only [hcut] at hword
    simp only [dayInWords_eq, overruns_iff hcut]
    cases hday : parseDay? date with
    | none =>
      refine .inr ⟨rfl, ?_⟩
      rintro ⟨⟨n, hn⟩, -⟩
      cases hn
    | some n =>
      simp only [Option.map_some, text_some_bind]
      by_cases hover : Overrunning (withoutZulu time)
      · exact .inl ⟨by rw [← withoutZulu, timeInWords_of_overrunning hover, wrong_bind], ⟨n, rfl⟩, hover⟩
      · refine .inr ⟨?_, fun h => hover h.2⟩
        have htime : parseTime? time = parsePlain? (withoutZulu time) := parseTime?_eq time
        rw [← withoutZulu, timeInWords_eq hover, htime]
        simp only [hday, htime] at hword
        cases hmillis : parsePlain? (withoutZulu time) with
        | none => rfl
        | some millis =>
          rw [hmillis] at hword
          simp only [Option.map_some, text_some_bind, Option.bind_eq_bind, Option.bind_some, Option.pure_def]
          rw [add?, hword _ rfl, word_some]

/-- **The reading of dates in machine words.** Whether a text is read as an instant or refused, no number leaves
its type, unless a day and a clock are followed by a fraction whose first three characters take more than three
bytes. Such a text has no reading. -/
theorem reading_stays_in_words (s : String) :
    (readInWords s = wrong ↔ ∃ stamp : Stamp, stamp.chars = Text.trimChars s.toList ∧ stamp.Overruns) ∧
      (readInWords s ≠ wrong → readInWords s = text (parse? s)) ∧
      (readInWords s = wrong → parse? s = none) := by
  have differ (read : Option Int) : text read ≠ wrong := fun h => by cases h
  rcases readInWords_eq s with ⟨hrun, hstamp⟩ | ⟨hrun, hstamp⟩
  · refine ⟨⟨fun _ => hstamp, fun _ => hrun⟩, fun h => (h hrun).elim, fun _ => ?_⟩
    obtain ⟨stamp, hchars, hover⟩ := hstamp
    exact parse?_of_overruns hchars hover
  · rw [hrun]
    exact ⟨⟨fun h => (differ _ h).elim, fun h => (hstamp h).elim⟩, fun _ => rfl, fun h => (differ _ h).elim⟩

/-- The two characters of the fraction take four bytes, which is more than three. -/
theorem accents_go_wrong : readInWords "2024-01-01T00:00:00.éé" = wrong := by
  have hrun : (readInWords "2024-01-01T00:00:00.éé").run = none := by decide +kernel
  exact OptionT.ext hrun

end Reactor.Calendar
