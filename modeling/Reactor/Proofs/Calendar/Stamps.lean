import Mathlib.Data.List.Basic
import Reactor.Proofs.Calendar.Gregorian
import Reactor.Proofs.Calendar.Texts

/-!
# Stamps

A stamp (`Stamp`) is the text of an instant part by part: the numerals of a day and, behind a mark, those of a
time of day. It is accepted (`Stamp.Accepted`) if its numerals are in their ranges, and documented
(`Stamp.Documented`) if moreover its day exists and its fraction consists of digits only.

* `Stamp.chars_inj` : a text is that of at most one stamp.
* `Stamp.Documented.denotes` : the instant of a documented stamp is that of its fields.
* `Stamp.Accepted.instant_bounds` : the instant of an accepted stamp is an integer of 64 bits.
-/

namespace Reactor.Calendar

/-! ## Stamps -/

/-- A numeral: at least one digit and nothing else. -/
structure Digits where
  chars : List Char
  ne_nil : chars ≠ []
  isDigit : ∀ c ∈ chars, c.isDigit = true

/-- A numeral, by the check that the reader makes. -/
def Digits.ofChars (cs : List Char) (h : (!cs.isEmpty && cs.all Char.isDigit) = true) : Digits where
  chars := cs
  ne_nil := by
    rintro rfl
    cases h
  isDigit := List.all_eq_true.1 (Bool.and_eq_true_iff.1 h).2

def Digits.value (digits : Digits) : Nat :=
  Nat.ofDigitChars 10 digits.chars 0

/-- The numerals of a day, between hyphens. -/
structure DayStamp where
  year : Digits
  month : Digits
  day : Digits

namespace DayStamp

def chars (stamp : DayStamp) : List Char :=
  stamp.year.chars ++ '-' :: (stamp.month.chars ++ '-' :: stamp.day.chars)

def date (stamp : DayStamp) : Date :=
  { year := stamp.year.value, month := stamp.month.value, day := stamp.day.value }

structure Accepted (stamp : DayStamp) : Prop where
  year : stamp.year.value ≤ maxYear
  month : 1 ≤ stamp.month.value ∧ stamp.month.value ≤ 12
  day : 1 ≤ stamp.day.value ∧ stamp.day.value ≤ 31

end DayStamp

/-- The numerals of a time of day, between colons. Seconds may be left out. -/
structure ClockStamp where
  hours : Digits
  minutes : Digits
  seconds : Option Digits

namespace ClockStamp

def chars (stamp : ClockStamp) : List Char :=
  stamp.hours.chars ++ ':' :: (stamp.minutes.chars ++
    stamp.seconds.elim [] fun seconds => ':' :: seconds.chars)

/-- The seconds since the day began. -/
def total (stamp : ClockStamp) : Nat :=
  stamp.hours.value * 3600 + stamp.minutes.value * 60 + stamp.seconds.elim 0 Digits.value

/-- A minute may have a second 60, which is the first one of the next minute. -/
structure Accepted (stamp : ClockStamp) : Prop where
  hours : stamp.hours.value ≤ 23
  minutes : stamp.minutes.value ≤ 59
  seconds : ∀ seconds ∈ stamp.seconds, seconds.value ≤ 60

end ClockStamp

/-- What may stand between a day and a time. -/
inductive Mark where
  | letter
  | blank
  deriving DecidableEq, Repr

def Mark.char : Mark → Char
  | .letter => 'T'
  | .blank => ' '

/-- A time of day, with whatever stands behind a point as its fraction. A `Z` at the end does not belong to
the fraction. -/
structure TimeStamp where
  clock : ClockStamp
  fraction : Option (List Char)
  zulu : Bool
  zulu_of_getLast? : ∀ cs ∈ fraction, cs.getLast? = some 'Z' → zulu = true

namespace TimeStamp

/-- The characters before the `Z`. -/
def plainChars (stamp : TimeStamp) : List Char :=
  stamp.clock.chars ++ stamp.fraction.elim [] ('.' :: ·)

def chars (stamp : TimeStamp) : List Char :=
  stamp.plainChars ++ if stamp.zulu then ['Z'] else []

/-- A fraction of a second in milliseconds; what is less than one is cut off. -/
def fractionMillis (cs : List Char) : Nat :=
  Nat.ofDigitChars 10 (cs.take 3) 0 * 10 ^ (3 - cs.length)

/-- The milliseconds since the day began. -/
def millis (stamp : TimeStamp) : Nat :=
  stamp.clock.total * 1000 + stamp.fraction.elim 0 fractionMillis

/-- Of a fraction no more than three characters are looked at. -/
structure Accepted (stamp : TimeStamp) : Prop where
  clock : stamp.clock.Accepted
  fraction : ∀ cs ∈ stamp.fraction, cs ≠ [] ∧ ∀ c ∈ cs.take 3, c.isDigit = true

end TimeStamp

/-- A day, and a time of day with the mark before it. -/
structure Stamp where
  day : DayStamp
  time : Option (Mark × TimeStamp)

namespace Stamp

def chars (stamp : Stamp) : List Char :=
  stamp.day.chars ++ stamp.time.elim [] fun (mark, time) => mark.char :: time.chars

/-- The milliseconds since the day began. -/
def millis (stamp : Stamp) : Nat :=
  stamp.time.elim 0 fun (_, time) => time.millis

/-- The instant of the fields, in UTC. Days beyond the end of a month are counted on. -/
def instant (stamp : Stamp) : Int :=
  stamp.day.date.dayNumber * millisPerDay + stamp.millis

/-- The instant is that of the fields, as the calendar counts the days. -/
def Denotes (stamp : Stamp) (t : Int) : Prop :=
  ∃ days : Int, stamp.day.date.IsDay days ∧ t = days * millisPerDay + stamp.millis

structure Accepted (stamp : Stamp) : Prop where
  day : stamp.day.Accepted
  time : ∀ mark time, stamp.time = some (mark, time) → time.Accepted

/-- The fraction has a character that is not a digit. -/
def Ragged (stamp : Stamp) : Prop :=
  ∃ mark time cs, stamp.time = some (mark, time) ∧ time.fraction = some cs ∧ ∃ c ∈ cs, c.isDigit = false

/-- The stamp is one of the documented grammar. -/
structure Documented (stamp : Stamp) : Prop extends stamp.Accepted where
  exists_day : stamp.day.date.IsValid
  not_ragged : ¬ stamp.Ragged

end Stamp

/-! ## Characters -/

theorem Digits.ext {digits digits' : Digits} (h : digits.chars = digits'.chars) : digits = digits' := by
  cases digits
  cases digits'
  subst h
  rfl

theorem Digits.beq_mark (digits : Digits) {mark : Char} (hmark : mark.isDigit = false) (c : Char)
    (hc : c ∈ digits.chars) : (c == mark) = false :=
  beq_of_isDigit (digits.isDigit c hc) hmark

theorem ClockStamp.isDigit_or_colon {stamp : ClockStamp} {c : Char} (hc : c ∈ stamp.chars) :
    c.isDigit = true ∨ c = ':' := by
  obtain ⟨hours, minutes, seconds⟩ := stamp
  cases seconds with
  | none =>
    simp only [ClockStamp.chars, Option.elim_none, List.append_nil, List.mem_append, List.mem_cons] at hc
    rcases hc with hc | rfl | hc
    · exact .inl (hours.isDigit c hc)
    · exact .inr rfl
    · exact .inl (minutes.isDigit c hc)
  | some seconds =>
    simp only [ClockStamp.chars, Option.elim_some, List.mem_append, List.mem_cons] at hc
    rcases hc with hc | rfl | hc | rfl | hc
    · exact .inl (hours.isDigit c hc)
    · exact .inr rfl
    · exact .inl (minutes.isDigit c hc)
    · exact .inr rfl
    · exact .inl (seconds.isDigit c hc)

theorem ClockStamp.beq_point (stamp : ClockStamp) (c : Char) (hc : c ∈ stamp.chars) : (c == '.') = false := by
  rcases stamp.isDigit_or_colon hc with hc | rfl
  · exact beq_of_isDigit hc rfl
  · rfl

/-- A time of day without a `Z` at its end ends with that letter only if its fraction does. -/
theorem getLast?_plain {clock : ClockStamp} {fraction : Option (List Char)} :
    (clock.chars ++ fraction.elim [] ('.' :: ·)).getLast? = some 'Z' ↔
      ∃ digits ∈ fraction, digits.getLast? = some 'Z' := by
  have hclock : clock.chars.getLast? ≠ some 'Z' := by
    intro h
    rcases clock.isDigit_or_colon (List.mem_of_getLast? h) with hc | hc
    · cases hc
    · cases hc
  cases fraction with
  | none => simpa using hclock
  | some digits =>
    cases digits with
    | nil => simp
    | cons c digits => simp [List.getLast?_append, List.getLast?_cons_cons]

namespace TimeStamp

/-- Whether there is a `Z` at the end can be seen. -/
theorem getLast?_chars (stamp : TimeStamp) : stamp.chars.getLast? = some 'Z' ↔ stamp.zulu = true := by
  have hlast : stamp.plainChars.getLast? = some 'Z' → stamp.zulu = true := by
    rw [plainChars, getLast?_plain]
    rintro ⟨digits, hmem, h⟩
    exact stamp.zulu_of_getLast? digits hmem h
  cases hzulu : stamp.zulu with
  | true => simp [chars, hzulu]
  | false => simpa [chars, hzulu] using hlast

/-- What is left when the `Z` is taken off. -/
theorem dropLast_chars (stamp : TimeStamp) :
    (if stamp.chars.getLast? == some 'Z' then stamp.chars.dropLast else stamp.chars) = stamp.plainChars := by
  cases hzulu : stamp.zulu with
  | true =>
    rw [if_pos (beq_iff_eq.2 (stamp.getLast?_chars.2 hzulu))]
    simp [chars, hzulu]
  | false =>
    rw [if_neg (by rw [beq_iff_eq, getLast?_chars, hzulu]; exact Bool.false_ne_true)]
    simp [chars, hzulu]

end TimeStamp

theorem DayStamp.isDigit_or_hyphen {stamp : DayStamp} {c : Char} (hc : c ∈ stamp.chars) :
    c.isDigit = true ∨ c = '-' := by
  simp only [DayStamp.chars, List.mem_append, List.mem_cons] at hc
  rcases hc with hc | rfl | hc | rfl | hc
  · exact .inl (stamp.year.isDigit c hc)
  · exact .inr rfl
  · exact .inl (stamp.month.isDigit c hc)
  · exact .inr rfl
  · exact .inl (stamp.day.isDigit c hc)

theorem DayStamp.beq_separator (stamp : DayStamp) (c : Char) (hc : c ∈ stamp.chars) :
    (c == 'T' || c == ' ') = false := by
  rcases stamp.isDigit_or_hyphen hc with hc | rfl
  · rw [beq_of_isDigit hc rfl, beq_of_isDigit hc rfl]
    rfl
  · rfl

theorem Mark.exists_char_iff {c : Char} : (∃ mark : Mark, mark.char = c) ↔ (c == 'T' || c == ' ') = true := by
  rw [Bool.or_eq_true, beq_iff_eq, beq_iff_eq]
  constructor
  · rintro ⟨_ | _, rfl⟩
    · exact .inl rfl
    · exact .inr rfl
  · rintro (rfl | rfl)
    · exact ⟨.letter, rfl⟩
    · exact ⟨.blank, rfl⟩

/-! ## One stamp for a text -/

/-- The first mark cuts a text in one way only. -/
theorem append_elim_inj {α : Type} (p : Char → Bool) (mark : α → Char) (chars : α → List Char)
    {front front' : List Char} {tail tail' : Option α} (hmark : ∀ a, p (mark a) = true)
    (hinj : ∀ a a', mark a = mark a' → chars a = chars a' → a = a') (hfront : ∀ c ∈ front, p c = false)
    (hfront' : ∀ c ∈ front', p c = false)
    (h : front ++ (tail.elim [] fun a => mark a :: chars a) =
      front' ++ (tail'.elim [] fun a => mark a :: chars a)) :
    front = front' ∧ tail = tail' := by
  have take {front : List Char} {tail : Option α} (hfront : ∀ c ∈ front, p c = false) :
      (front ++ (tail.elim [] fun a => mark a :: chars a)).takeWhile (fun c => !p c) = front := by
    rw [List.takeWhile_append_of_pos fun c hc => by simp [hfront c hc]]
    cases tail <;> simp [hmark]
  have same : front = front' := by rw [← take hfront, h, take hfront']
  subst same
  have htails := List.append_cancel_left h
  refine ⟨rfl, ?_⟩
  cases tail with
  | none =>
    cases tail' with
    | none => rfl
    | some a' => cases htails
  | some a =>
    cases tail' with
    | none => cases htails
    | some a' =>
      obtain ⟨hmarks, hchars⟩ := List.cons.inj htails
      rw [hinj a a' hmarks hchars]

theorem Digits.append_inj {digits digits' : Digits} {mark : Char} {back back' : List Char}
    (hmark : mark.isDigit = false) (h : digits.chars ++ mark :: back = digits'.chars ++ mark :: back') :
    digits = digits' ∧ back = back' := by
  obtain ⟨hchars, hback⟩ := @append_elim_inj _ (· == mark) (fun _ => mark) id _ _ (some back) (some back')
    (fun _ => beq_self_eq_true mark) (fun _ _ _ h => h) (digits.beq_mark hmark) (digits'.beq_mark hmark) h
  exact ⟨Digits.ext hchars, Option.some.inj hback⟩

theorem DayStamp.chars_inj {stamp stamp' : DayStamp} (h : stamp.chars = stamp'.chars) : stamp = stamp' := by
  obtain ⟨year, month, day⟩ := stamp
  obtain ⟨year', month', day'⟩ := stamp'
  obtain ⟨hyear, hrest⟩ := Digits.append_inj rfl h
  obtain ⟨hmonth, hday⟩ := Digits.append_inj rfl hrest
  exact DayStamp.mk.injEq .. ▸ ⟨hyear, hmonth, Digits.ext hday⟩

theorem ClockStamp.chars_inj {stamp stamp' : ClockStamp} (h : stamp.chars = stamp'.chars) : stamp = stamp' := by
  obtain ⟨hours, minutes, seconds⟩ := stamp
  obtain ⟨hours', minutes', seconds'⟩ := stamp'
  obtain ⟨hhours, hrest⟩ := Digits.append_inj rfl h
  obtain ⟨hminutes, hseconds⟩ := append_elim_inj (· == ':') (fun _ => ':') Digits.chars (fun _ => rfl)
    (fun _ _ _ h => Digits.ext h)
    (minutes.beq_mark rfl) (minutes'.beq_mark rfl) hrest
  exact ClockStamp.mk.injEq .. ▸ ⟨hhours, Digits.ext hminutes, hseconds⟩

theorem TimeStamp.chars_inj {stamp stamp' : TimeStamp} (h : stamp.chars = stamp'.chars) : stamp = stamp' := by
  have hzulu : stamp.zulu = stamp'.zulu := by
    rw [Bool.eq_iff_iff, ← getLast?_chars, ← getLast?_chars, h]
  obtain ⟨clock, fraction, zulu, _⟩ := stamp
  obtain ⟨clock', fraction', zulu', _⟩ := stamp'
  obtain rfl : zulu = zulu' := hzulu
  obtain ⟨hclock, hfraction⟩ := append_elim_inj (· == '.') (fun _ => '.') id (fun _ => rfl) (fun _ _ _ h => h)
    clock.beq_point clock'.beq_point (List.append_cancel_right h)
  exact TimeStamp.mk.injEq .. ▸ ⟨ClockStamp.chars_inj hclock, hfraction, rfl⟩

theorem Mark.char_inj {mark mark' : Mark} (h : mark.char = mark'.char) : mark = mark' := by
  cases mark <;> cases mark' <;> first | rfl | cases h

theorem Stamp.chars_inj {stamp stamp' : Stamp} (h : stamp.chars = stamp'.chars) : stamp = stamp' := by
  obtain ⟨day, time⟩ := stamp
  obtain ⟨day', time'⟩ := stamp'
  obtain ⟨hday, htime⟩ := append_elim_inj (fun c => c == 'T' || c == ' ')
    (fun marked : Mark × TimeStamp => marked.1.char)
    (fun marked => marked.2.chars) (fun marked => Mark.exists_char_iff.1 ⟨marked.1, rfl⟩)
    (fun _ _ hmark htime => Prod.ext (Mark.char_inj hmark) (TimeStamp.chars_inj htime))
    day.beq_separator day'.beq_separator h
  exact Stamp.mk.injEq .. ▸ ⟨DayStamp.chars_inj hday, htime⟩
/-! ## Instants -/

theorem Stamp.Documented.denotes {stamp : Stamp} (h : stamp.Documented) : stamp.Denotes stamp.instant :=
  ⟨stamp.day.date.dayNumber, h.exists_day.isDay_iff.2 rfl, rfl⟩

variable {cs : List Char}

theorem ofDigitChars_lt {n : Nat} (h : ∀ c ∈ cs, c.isDigit = true) :
    Nat.ofDigitChars 10 cs n < (n + 1) * 10 ^ cs.length := by
  induction cs generalizing n with
  | nil => simp
  | cons c cs ih =>
    have hc : c.toNat ≤ 57 := by
      have := h c List.mem_cons_self
      simp only [Char.isDigit, Bool.and_eq_true, decide_eq_true_eq, UInt32.le_iff_toNat_le] at this
      exact this.2
    calc Nat.ofDigitChars 10 (c :: cs) n
        < (10 * n + (c.toNat - 48) + 1) * 10 ^ cs.length :=
          ih fun d hd => h d (List.mem_cons_of_mem c hd)
      _ ≤ ((n + 1) * 10) * 10 ^ cs.length := Nat.mul_le_mul_right _ (by omega)
      _ = (n + 1) * 10 ^ (c :: cs).length := by
        rw [List.length_cons, Nat.pow_succ', Nat.mul_assoc]

theorem fractionMillis_lt (h : ∀ c ∈ cs.take 3, c.isDigit = true) : TimeStamp.fractionMillis cs < 1000 := by
  have hlength : (cs.take 3).length + (3 - cs.length) = 3 := by
    rw [List.length_take]
    omega
  calc Nat.ofDigitChars 10 (cs.take 3) 0 * 10 ^ (3 - cs.length)
      < (0 + 1) * 10 ^ (cs.take 3).length * 10 ^ (3 - cs.length) :=
        Nat.mul_lt_mul_of_pos_right (ofDigitChars_lt h) (Nat.pow_pos (by decide))
    _ = 10 ^ 3 := by rw [Nat.zero_add, Nat.one_mul, ← Nat.pow_add, hlength]

theorem TimeStamp.Accepted.millis_lt {stamp : TimeStamp} (h : stamp.Accepted) : stamp.millis < 86461000 := by
  obtain ⟨⟨hours, minutes, seconds⟩, fraction⟩ := h
  have hseconds : stamp.clock.seconds.elim 0 Digits.value ≤ 60 := by
    cases hs : stamp.clock.seconds with
    | none => exact Nat.zero_le _
    | some digits => exact seconds digits hs
  have hfraction : stamp.fraction.elim 0 fractionMillis < 1000 := by
    cases hf : stamp.fraction with
    | none => exact Nat.succ_pos _
    | some cs => exact fractionMillis_lt (fraction cs hf).2
  simp only [TimeStamp.millis, ClockStamp.total]
  omega

/-- The days that texts may name. -/
theorem Date.dayNumber_bounds {year month day : Nat} (hyear : year ≤ maxYear) (hmonth : 1 ≤ month ∧ month ≤ 12)
    (hday : 1 ≤ day ∧ day ≤ 31) :
    -719529 ≤ (Date.mk year month day).dayNumber ∧ (Date.mk year month day).dayNumber < 36600000000 := by
  rw [Date.dayNumber_eq_first, Date.dayNumber_first]
  simp only [maxYear] at hyear ⊢
  split <;> omega

/-- The instants of stamps are integers of 64 bits. -/
theorem Stamp.Accepted.instant_bounds {stamp : Stamp} (h : stamp.Accepted) :
    -9223372036854775808 ≤ stamp.instant ∧ stamp.instant < 9223372036854775808 := by
  obtain ⟨⟨year, month, day⟩, time⟩ := h
  have htime : stamp.millis < 86461000 := by
    unfold Stamp.millis
    cases ht : stamp.time with
    | none => exact Nat.succ_pos _
    | some marked => exact (time marked.1 marked.2 ht).millis_lt
  have hdays : -719529 ≤ stamp.day.date.dayNumber ∧ stamp.day.date.dayNumber < 36600000000 :=
    Date.dayNumber_bounds year month day
  simp only [Stamp.instant, millisPerDay]
  omega

end Reactor.Calendar
