import Reactor.Number
import Reactor.Proofs.Calendar.Texts
import Reactor.Proofs.Decimals.Rounding

/-!
# Figures

Figures are digits with or without a point, and a sign may stand before them. They are read as an integer if
they have no point and fit, else as the decimal that they are rounded to; either way the number is rounded to
the same decimal (`Text.Figures.toDecimal_of_parse?`), but for a zero without a point, which loses its sign.
-/

namespace Reactor

namespace Text

variable {cs : List Char} {negative : Bool}

/-! ## Digits -/

theorem digitsValue_dropWhile (cs : List Char) : digitsValue (cs.dropWhile (· == '0')) = digitsValue cs := by
  induction cs with
  | nil => rfl
  | cons c cs ih =>
    by_cases h : c = '0'
    · subst h
      exact ih
    · rw [List.dropWhile_cons_of_neg (by simpa using h)]

theorem digitsValue_append_zeros (cs : List Char) (k : ℕ) :
    digitsValue (cs ++ List.replicate k '0') = digitsValue cs * 10 ^ k := by
  induction k with
  | zero => simp
  | succ k ih =>
    rw [List.replicate_succ', ← List.append_assoc]
    unfold digitsValue at ih ⊢
    rw [List.foldl_append, ih, Nat.pow_succ]
    show 10 * _ + ('0'.toNat - 48) = _
    rw [show '0'.toNat - 48 = 0 from rfl]
    ring

/-- The digits that count are not so many that some would be left out. -/
theorem significand_eq (h : cs.length ≤ maxSignificant) : significand cs = (digitsValue cs, 0) := by
  have hlength : (cs.dropWhile (· == '0')).length ≤ maxSignificant :=
    ((List.dropWhile_sublist _).length_le).trans h
  unfold significand
  dsimp only
  rw [List.take_of_length_le hlength, List.drop_eq_nil_of_le hlength, digitsValue_dropWhile]

/-! ## Figures -/

/-- The figures of a number: digits, and behind a point the digits of its fraction. -/
structure Figures where
  whole : List Char
  places : Option (List Char)
  isDigit_whole : ∀ c ∈ whole, c.isDigit = true
  isDigit_places : ∀ cs ∈ places, ∀ c ∈ cs, c.isDigit = true
  ne_nil : whole ≠ []

namespace Figures

variable (figures : Figures)

def chars : List Char :=
  figures.whole ++ figures.places.elim [] ('.' :: ·)

/-- All digits, without the point. -/
def digits : List Char :=
  figures.whole ++ figures.places.getD []

/-- The number of digits behind the point. -/
def scale : ℕ :=
  (figures.places.getD []).length

/-- The figures with a sign. -/
def text (negative : Bool) : String :=
  Decimal.signed negative (String.ofList figures.chars)

theorem exists_cons : ∃ c cs, figures.chars = c :: cs ∧ c.isDigit = true := by
  obtain ⟨c, cs, hwhole⟩ := List.exists_cons_of_ne_nil figures.ne_nil
  refine ⟨c, cs ++ figures.places.elim [] ('.' :: ·), ?_, figures.isDigit_whole c (by simp [hwhole])⟩
  rw [chars, hwhole]
  rfl

theorem toList_text (negative : Bool) :
    (figures.text negative).toList = if negative then '-' :: figures.chars else figures.chars := by
  unfold text Decimal.signed
  cases negative <;> simp

theorem splitSign_text (negative : Bool) :
    splitSign (figures.text negative).toList = (negative, figures.chars) := by
  rw [toList_text]
  cases negative with
  | true => rfl
  | false =>
    obtain ⟨c, cs, hchars, hc⟩ := figures.exists_cons
    have hplus : c ≠ '+' := by
      rintro rfl
      cases hc
    have hminus : c ≠ '-' := by
      rintro rfl
      cases hc
    rw [hchars]
    simp [splitSign, hplus, hminus]

theorem isBlank_text (negative : Bool) (c : Char) (hc : c ∈ (figures.text negative).toList) :
    isBlank c = false := by
  have hchars (c : Char) (hc : c ∈ figures.chars) : isBlank c = false := by
    rw [chars, List.mem_append] at hc
    rcases hc with hc | hc
    · exact isBlank_of_isDigit (figures.isDigit_whole c hc)
    · cases hplaces : figures.places with
      | none =>
        rw [hplaces] at hc
        exact (List.not_mem_nil hc).elim
      | some places =>
        rw [hplaces, Option.elim_some, List.mem_cons] at hc
        rcases hc with rfl | hc
        · rfl
        · exact isBlank_of_isDigit (figures.isDigit_places places hplaces c hc)
  rw [toList_text] at hc
  cases negative with
  | false => exact hchars c hc
  | true =>
    rcases List.mem_cons.1 hc with rfl | hc
    · rfl
    · exact hchars c hc

/-- Nothing that stands in figures is blank. -/
theorem trimBlank_text (negative : Bool) : trimBlank (figures.text negative) = figures.text negative := by
  have hkeep (cs : List Char) (h : ∀ c ∈ cs, isBlank c = false) : cs.dropWhile isBlank = cs := by
    cases cs with
    | nil => rfl
    | cons c cs => rw [List.dropWhile_cons_of_neg (by simp [h c List.mem_cons_self])]
  have hblank := figures.isBlank_text negative
  rw [trimBlank, trimChars, hkeep _ hblank, hkeep _ (fun c hc => hblank c (List.mem_reverse.1 hc)),
    List.reverse_reverse, String.ofList_toList]

/-! ## What figures are read as -/

theorem takeWhile_chars :
    figures.chars.takeWhile Char.isDigit = figures.whole ∧
      figures.chars.dropWhile Char.isDigit = figures.places.elim [] ('.' :: ·) := by
  have hwhole := figures.isDigit_whole
  rw [chars, List.takeWhile_append_of_pos hwhole, List.dropWhile_append_of_pos hwhole]
  cases figures.places <;> simp

theorem toLower_of_isDigit {c : Char} (h : c.isDigit = true) : c.toLower = c := by
  have hc : 48 ≤ c.toNat ∧ c.toNat ≤ 57 := by
    simpa [Char.isDigit, Char.le_def, UInt32.le_iff_toNat_le] using h
  unfold Char.toLower
  rw [dif_neg]
  simp only [ge_iff_le, UInt32.le_iff_toNat_le, not_and, not_le]
  intro hlow
  have hlow' : 65 ≤ c.toNat := hlow
  omega

/-- Figures are not one of the words that stand for a number. -/
theorem word_ne (word : String) (h : word.toList.all (!·.isDigit) = true) :
    (String.ofList (figures.chars.map Char.toLower) == word) = false := by
  obtain ⟨c, cs, hchars, hc⟩ := figures.exists_cons
  rw [beq_eq_false_iff_ne]
  rintro rfl
  rw [hchars, String.toList_ofList, List.map_cons, toLower_of_isDigit hc, List.all_cons, hc] at h
  cases h

theorem decimal?_text (negative : Bool) (hlength : figures.digits.length ≤ maxSignificant) :
    decimal? (figures.text negative) =
      some (.finite negative (digitsValue figures.digits) (-figures.scale)) := by
  have hnan := figures.word_ne "nan" rfl
  have hinf := figures.word_ne "inf" rfl
  have hinfinity := figures.word_ne "infinity" rfl
  have hwhole : figures.whole.isEmpty = false := List.isEmpty_eq_false_iff.2 figures.ne_nil
  have hvalue := significand_eq hlength
  obtain ⟨htake, hdrop⟩ := figures.takeWhile_chars
  unfold digits at hvalue
  unfold decimal? digits scale
  simp only [splitSign_text, hnan, hinf, hinfinity, Bool.or_self, Bool.false_eq_true, if_false, htake, hdrop]
  cases hplaces : figures.places with
  | none =>
    rw [hplaces, Option.getD_none, List.append_nil] at hvalue
    simp [hwhole, exponent?, hvalue]
  | some places =>
    have hdigits := figures.isDigit_places places hplaces
    rw [hplaces, Option.getD_some] at hvalue
    have hall : places.takeWhile Char.isDigit = places := by
      simpa using @List.takeWhile_append_of_pos _ Char.isDigit places [] hdigits
    have hrest : places.dropWhile Char.isDigit = [] := by
      simpa using @List.dropWhile_append_of_pos _ Char.isDigit places [] hdigits
    simp [hwhole, exponent?, hvalue, hall, hrest]

/-- With a point, figures are not an integer. -/
theorem integerBelow?_of_isSome (h : figures.places.isSome) (negative : Bool) (bound : ℕ) :
    integerBelow? bound (figures.text negative) = none := by
  obtain ⟨places, hplaces⟩ := Option.isSome_iff_exists.1 h
  have hall : figures.chars.all Char.isDigit = false := by
    rw [List.all_eq_false]
    refine ⟨'.', ?_, by decide⟩
    rw [chars, hplaces]
    exact List.mem_append_right _ List.mem_cons_self
  unfold integerBelow? naturalBelow?
  rw [splitSign_text]
  simp [hall]

/-- Without a point, figures are the integer that their digits stand for. -/
theorem integerBelow?_of_eq_none (h : figures.places = none) (negative : Bool) (bound : ℕ) :
    integerBelow? bound (figures.text negative) =
      if digitsValue figures.digits < bound then
        some (if negative then -(digitsValue figures.digits : ℤ) else digitsValue figures.digits)
      else none := by
  have hchars : figures.chars = figures.whole ∧ figures.digits = figures.whole := by
    unfold chars digits
    rw [h]
    simp
  have hall : figures.whole.all Char.isDigit = true := List.all_eq_true.2 figures.isDigit_whole
  have hwhole : figures.whole.isEmpty = false := List.isEmpty_eq_false_iff.2 figures.ne_nil
  have hnatural : natural? figures.whole = some (digitsValue figures.whole) := by
    unfold natural?
    rw [hall, hwhole]
    rfl
  unfold integerBelow?
  rw [splitSign_text, hchars.1, hchars.2]
  simp only [naturalBelow?_eq, hnatural]
  by_cases hlt : digitsValue figures.whole < bound
  · simp [Option.filter, hlt]
  · simp [Option.filter, hlt]

/-- The decimal that figures are rounded to. -/
def decimal (negative : Bool) : Decimal :=
  let size := Decimal.ofScientific (digitsValue figures.digits) (-figures.scale)
  if negative then size.neg else size

/-- The number that figures stand for. -/
def value : ℚ :=
  digitsValue figures.digits * 10 ^ (-figures.scale : ℤ)

/-- The text is figures of a number. Zero has a point, since a zero without one would lose its sign. -/
structure Writes (text : String) (v : ℚ) : Prop where
  eq : text = String.ofList figures.chars
  length_le : figures.digits.length ≤ maxSignificant
  nonzero : figures.places.isSome ∨ digitsValue figures.digits ≠ 0
  value_eq : figures.value = v

variable {figures} {n : Number}

/-- The integer that figures are read as is rounded as they are, unless it has lost the sign of zero. -/
theorem ofInt64_of_readInt64? {k : Int64} (hzero : figures.places.isSome ∨ digitsValue figures.digits ≠ 0)
    (h : readInt64? (figures.text negative) = some k) : Decimal.ofInt64 k = figures.decimal negative := by
  unfold readInt64? at h
  obtain ⟨i, hi, hk⟩ := Option.bind_eq_some_iff.1 h
  have hint : k.toInt = i := Number.toInt_of_int64? hk
  have hplaces : figures.places = none := by
    by_contra hsome
    rw [figures.integerBelow?_of_isSome (Option.isSome_iff_ne_none.2 hsome)] at hi
    cases hi
  have hvalue : digitsValue figures.digits ≠ 0 := hzero.resolve_left (by simp [hplaces])
  have hscale : figures.scale = 0 := by simp [scale, hplaces]
  rw [figures.integerBelow?_of_eq_none hplaces] at hi
  split at hi
  · obtain rfl := Option.some.inj hi
    have hsize : Decimal.ofScientific (digitsValue figures.digits) (-(0 : ℕ)) =
        Decimal.ofNat (digitsValue figures.digits) := by
      show Decimal.nearest (digitsValue figures.digits * 1) 1 = Decimal.nearest (digitsValue figures.digits) 1
      rw [Nat.mul_one]
    have hsign : k.toInt < 0 ↔ negative = true := by
      rw [hint]
      cases negative with
      | true =>
        simp only [if_true, iff_true]
        omega
      | false =>
        simp only [Bool.false_eq_true, if_false, iff_false]
        omega
    have habs : k.toInt.natAbs = digitsValue figures.digits := by
      rw [hint]
      cases negative <;> simp
    unfold Decimal.ofInt64 decimal
    simp only [hscale, hsize, hsign, habs]
  · cases hi

/-- A number that figures are read as is rounded as they are. -/
theorem toDecimal_of_parse? (hlength : figures.digits.length ≤ maxSignificant)
    (hzero : figures.places.isSome ∨ digitsValue figures.digits ≠ 0)
    (h : Number.parse? (figures.text negative) = some n) : n.toDecimal = figures.decimal negative := by
  have hparse : Decimal.parse? (figures.text negative) = some (figures.decimal negative) := by
    unfold Decimal.parse?
    rw [figures.decimal?_text negative hlength]
    rfl
  unfold Number.parse? at h
  simp only [trimBlank_text, hparse] at h
  cases hread : readInt64? (figures.text negative) with
  | some k =>
    rw [hread] at h
    cases h
    exact ofInt64_of_readInt64? hzero hread
  | none =>
    rw [hread] at h
    dsimp only at h
    split at h
    · cases h
      rfl
    · cases h

end Figures

end Text

end Reactor
