import Reactor.Proofs.Calendar.Reading
import Reactor.Proofs.Trees.RoundTrip
import Reactor.Value.Cast

/-!
# Dates in their other forms

The text of an instant names its year, and a year may have a minus sign or more digits than a text may have
that is read. `Calendar.Readable` says which years have neither.

* `Calendar.parse?_format_eq` : the text of an instant is read just if its year is readable.
* `date_forms_read_back` : so it is with the tree of a date, and with the text that a cast gives.
-/

namespace Reactor

namespace Calendar

/-- The year of the instant is one that a text may name. -/
def Readable (millis : Int) : Prop :=
  0 ≤ yearAt millis ∧ yearAt millis ≤ maxYear

instance (millis : Int) : Decidable (Readable millis) :=
  inferInstanceAs (Decidable (_ ∧ _))

/-- The text of an instant of a year before year 0 begins with a hyphen and ends with a letter. -/
theorem exists_toList_format {millis : Int} (h : yearAt millis < 0) :
    ∃ cs, (format millis).toList = '-' :: cs ++ ['Z'] := by
  have hyear : formatYear (Date.ofDayNumber (millis.fdiv millisPerDay)).year =
      "-" ++ Text.padDigits 3 (yearAt millis).natAbs :=
    if_pos h
  have hlast : (format millis).toList.getLast? = some 'Z' := by
    rw [format, String.toList_append]
    exact List.getLast?_concat
  obtain ⟨back, hback⟩ : ∃ back, (format millis).toList = '-' :: back := by
    rw [format, hyear]
    simp only [String.toList_append, List.append_assoc]
    exact ⟨_, rfl⟩
  rw [hback] at hlast ⊢
  cases back with
  | nil => cases hlast
  | cons c back =>
    rw [List.getLast?_cons_cons] at hlast
    exact ⟨_, congrArg ('-' :: ·) (List.dropLast_append_getLast? _ hlast).symm⟩

theorem parse?_format_of_neg {millis : Int} (h : yearAt millis < 0) : parse? (format millis) = none := by
  obtain ⟨cs, hcs⟩ := exists_toList_format h
  have htrim : Text.trimChars (format millis).toList = (format millis).toList := by
    rw [hcs]
    exact Text.trimChars_of_ends rfl rfl
  refine Option.eq_none_iff_forall_not_mem.2 fun t ht => ?_
  obtain ⟨stamp, -, hchars, -⟩ := parse?_eq_some_iff.1 ht
  obtain ⟨c, front, hyear⟩ := List.exists_cons_of_ne_nil stamp.day.year.ne_nil
  have hdigit := stamp.day.year.isDigit c (by simp [hyear])
  rw [htrim, hcs, Stamp.chars, DayStamp.chars, hyear] at hchars
  obtain rfl : c = '-' := (List.cons.inj hchars).1
  cases hdigit

/-- A padded number as a numeral. -/
def Digits.padded (width n : Nat) : Digits :=
  { chars := (Text.padDigits width n).toList
    ne_nil := Text.padDigits_ne_nil width n
    isDigit := fun _ h => Text.isDigit_of_mem_padDigits h }

theorem Digits.chars_padded (width n : Nat) : (padded width n).chars = (Text.padDigits width n).toList := by
  rw [padded]

theorem Digits.value_padded (width n : Nat) : (padded width n).value = n := by
  obtain ⟨digits, hchars, hvalue⟩ := natural?_eq_some_iff.1 (Text.natural?_padDigits width n)
  rw [← chars_padded] at hchars
  rw [← Digits.ext hchars, hvalue]

theorem parse?_format_of_late {millis : Int} (h : maxYear < yearAt millis) : parse? (format millis) = none := by
  have hpositive : 0 ≤ yearAt millis := Int.le_of_lt (Int.lt_of_le_of_lt (Int.natCast_nonneg maxYear) h)
  obtain ⟨year, hyear⟩ := Int.eq_ofNat_of_zero_le hpositive
  have htext := toList_format hyear
  refine Option.eq_none_iff_forall_not_mem.2 fun t ht => ?_
  obtain ⟨stamp, accepted, hchars, -⟩ := parse?_eq_some_iff.1 ht
  rw [htext, trimChars_dayChars] at hchars
  simp only [Stamp.chars, DayStamp.chars, dayChars, ← Digits.chars_padded, List.append_assoc, List.cons_append]
    at hchars
  have same : stamp.day.year = Digits.padded 4 year := (Digits.append_inj rfl hchars).1
  have := accepted.day.year
  rw [same, Digits.value_padded] at this
  rw [hyear] at h
  exact absurd (Int.ofNat_lt.1 h) (Nat.not_lt.2 this)

/-- The text of an instant is read just if its year is one that a text may name. -/
theorem parse?_format_eq (millis : Int) :
    parse? (format millis) = if Readable millis then some millis else none := by
  split
  · next h => exact parse?_format h.1 h.2
  · next h =>
    rw [Readable, not_and_or, Int.not_le, Int.not_le] at h
    rcases h with h | h
    · exact parse?_format_of_neg h
    · exact parse?_format_of_late h

end Calendar

namespace Value
open Calendar (Readable format parse? parse?_format_eq)

variable {t : Int64} {ctx : Context} {w : World}

/-- What the forms of a date are read as. -/
def readDate (t : Int64) : Except Error Value :=
  if Readable t.toInt then .ok (.date t) else .error (.invalidCast .string .date)

theorem ofTree_date (t : Int64) :
    ofTree (tagged "Date" [("value", .string (format t.toInt))]) = Eval.ofExcept (readDate t) := by
  have hnodup : (typeKey :: Entries.keys [("value", Json.string (format t.toInt))]).Nodup :=
    (by decide : [typeKey, "value"].Nodup)
  obtain ⟨all, htagged, htype, hget⟩ := exists_tagged "Date" hnodup
  have hvalue := textMember_eq "Date" (hget "value" (by decide))
  by_cases h : Readable t.toInt
  · simp [htagged, ofTree, htype, ofTaggedLeaf?, hvalue, parse?_format_eq, readDate, h, bind, Except.bind,
      pure, Except.pure]
    rfl
  · simp [htagged, ofTree, htype, ofTaggedLeaf?, hvalue, parse?_format_eq, readDate, h, bind, Except.bind]

theorem castScalar_date (t : Int64) : castScalar (.string (format t.toInt)) .date = readDate t := by
  by_cases h : Readable t.toInt
  · simp [castScalar, parse?_format_eq, readDate, h]
  · simp [castScalar, parse?_format_eq, readDate, h, Data.type]

theorem toTree_date (h : 0 < ctx.budget) :
    (date t).toTree ctx w = .value (tagged "Date" [("value", .string (format t.toInt))]) w := by
  obtain ⟨depth, hdepth⟩ : ∃ n, ctx.budget = n + 1 := ⟨ctx.budget - 1, by omega⟩
  simp only [toTree, Eval.bind_apply, Eval.budget, Outcome.bind_value, hdepth]
  rfl

theorem human_date (h : 0 < ctx.budget) : (date t).human ctx w = .value (format t.toInt) w := by
  obtain ⟨depth, hdepth⟩ : ∃ n, ctx.budget = n + 1 := ⟨ctx.budget - 1, by omega⟩
  simp only [human, Eval.bind_apply, Eval.budget, Outcome.bind_value, hdepth]
  rfl

theorem script_date (h : 0 < ctx.budget) :
    (date t).script ctx w = .value ("(" ++ Json.quote (format t.toInt) ++ " as Date)") w := by
  obtain ⟨depth, hdepth⟩ : ∃ n, ctx.budget = n + 1 := ⟨ctx.budget - 1, by omega⟩
  simp only [script, Eval.bind_apply, Eval.budget, Outcome.bind_value, hdepth]
  rfl

theorem cast_string_date (h : 0 < ctx.budget) :
    (date t).cast .string ctx w = .value (.string (format t.toInt)) w := by
  have hcast : (date t).cast .string = (do return .string (← (date t).human) : Eval Value) := rfl
  rw [hcast, Eval.bind_apply, human_date h]
  rfl

theorem cast_date_string (s : String) : (string s).cast .date = Eval.ofExcept (castScalar (.string s) .date) :=
  rfl

/-- **Forms of dates.** The text of an instant of 64 bits is read as that instant if its year is one that a text
may name, and is not read otherwise. So it is with the tree of the date, with its cast to a string and with the
cast in the script that gives it. -/
theorem date_forms_read_back (t : Int64) :
    parse? (format t.toInt) = (if Readable t.toInt then some t.toInt else none) ∧
    ∀ (ctx : Context) (w : World), 0 < ctx.budget →
      ((date t).toTree >>= ofTree) ctx w = Eval.ofExcept (readDate t) ctx w ∧
      ((date t).cast .string >>= fun text => text.cast .date) ctx w = Eval.ofExcept (readDate t) ctx w ∧
      ∃ text, (date t).script ctx w = .value ("(" ++ Json.quote text ++ " as Date)") w ∧
        (string text).cast .date = Eval.ofExcept (readDate t) := by
  refine ⟨parse?_format_eq t.toInt, fun ctx w h => ⟨?_, ?_, format t.toInt, script_date h, ?_⟩⟩
  · rw [Eval.bind_apply, toTree_date h, Outcome.bind_value, ofTree_date]
  · rw [Eval.bind_apply, cast_string_date h, Outcome.bind_value, cast_date_string, castScalar_date]
  · rw [cast_date_string, castScalar_date]

/-- The last millisecond of a leap day. -/
theorem leap_day_reads_back :
    let t : Int64 := 951868799999
    let ctx : Context :=
      { thread := default, budget := 1, evaluate := fun _ _ _ _ _ => .exhausted
        force := fun _ _ _ => .exhausted }
    Calendar.format t.toInt = "2000-02-29T23:59:59.999Z" ∧
      ((date t).cast .string >>= fun text => text.cast .date) ctx {} = .value (date t) {} := by
  intro t ctx
  obtain ⟨-, forms⟩ := date_forms_read_back t
  obtain ⟨-, hcast, -⟩ := forms ctx {} Nat.one_pos
  exact ⟨by decide, hcast⟩

/-- A year before year 0 and one after the last that a text may name. -/
theorem far_dates_not_read_back :
    let early : Int64 := -62167219200001
    let late : Int64 := 3155633064403200000
    (format early.toInt = "-001-12-31T23:59:59.999Z" ∧ parse? (format early.toInt) = none) ∧
      format late.toInt = "100000001-01-01T00:00:00.000Z" ∧ parse? (format late.toInt) = none := by
  decide +kernel

end Value

end Reactor
