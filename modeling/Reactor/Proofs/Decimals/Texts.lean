import Reactor.Proofs.Decimals.Digits
import Reactor.Proofs.Decimals.Figures

/-!
# The texts of numbers

The text of a decimal for people is figures of a number in its interval, with few enough digits that all of
them count. So it reads back as that decimal, or as an integer that is rounded to it.

* `Decimal.exists_figures_human` : the text of a decimal as figures.
* `Decimal.toDecimal_of_parse?_human` : the text of a decimal, read as a number.
* `Number.parse?_toString` : the text of an integer, read as a number.
-/

namespace Reactor

namespace Decimal

variable {x : Decimal} {m : ℕ} {q : ℤ} {negative : Bool}

/-! ## The figures of a decimal -/

/-- Digits and an exponent of ten are rounded to the decimal in whose interval they lie. -/
theorem ofScientific_eq {d : ℕ} {k : ℤ} (hd : d ≠ 0) (h : IsPlaces m q) (hv : RoundsTo (d * 10 ^ k) m q) :
    ofScientific d k = ofPlaces m q := by
  obtain ⟨hnum, hden⟩ := powerOfTen_pos k
  rw [← digits_div] at hv
  exact nearest_eq (Nat.mul_ne_zero hd (Nat.ne_of_gt hnum)) (Nat.ne_of_gt hden) h hv

theorem ofScientific_zero (k : ℤ) : ofScientific 0 k = zero := by
  unfold ofScientific
  rw [Nat.zero_mul]
  rfl

/-- There are not many figures before the point. -/
theorem length_digits_add_le {d : ℕ} {k : ℤ} (h : IsPlaces m q) (hd : d ≠ 0) (hv : RoundsTo (d * 10 ^ k) m q) :
    ((Nat.toDigits 10 d).length : ℤ) + k ≤ 312 := by
  obtain ⟨length, hlength⟩ : ∃ n, (Nat.toDigits 10 d).length = n + 1 :=
    Nat.exists_eq_succ_of_ne_zero (by simp [Nat.toDigits_ne_nil])
  have hlow : 10 ^ length ≤ d := by
    by_contra hlt
    rcases Nat.eq_zero_or_pos length with rfl | hpos
    · omega
    · have := (Nat.length_toDigits_le_iff (b := 10) (by decide) hpos).2 (not_le.1 hlt)
      omega
  have hbound : (10 : ℚ) ^ ((length : ℤ) + k) < 10 ^ (312 : ℤ) := by
    calc (10 : ℚ) ^ ((length : ℤ) + k) = 10 ^ length * 10 ^ k := by
          rw [zpow_add₀ (by norm_num), zpow_natCast]
      _ ≤ d * 10 ^ k := by
          have : (10 : ℚ) ^ length ≤ d := by exact_mod_cast hlow
          gcongr
      _ ≤ (m + 1 / 2) * 2 ^ q := hv.upper
      _ ≤ 2 ^ 53 * 2 ^ (971 : ℤ) := by
          have hm : (m : ℚ) + 1 ≤ 2 ^ 53 := by exact_mod_cast h.lt
          have hq : (2 : ℚ) ^ q ≤ 2 ^ (971 : ℤ) := zpow_le_zpow_right₀ one_le_two h.le
          gcongr
          linarith
      _ = (2 ^ 256) ^ 4 := by
          rw [← pow_mul, ← zpow_natCast, ← zpow_natCast, ← zpow_add₀ two_ne_zero]
          rfl
      _ < (10 ^ 78) ^ 4 := pow_lt_pow_left₀ (by norm_num) (by positivity) (by decide)
      _ = 10 ^ (312 : ℤ) := by
          rw [← pow_mul, ← zpow_natCast]
          rfl
  rw [zpow_lt_zpow_iff_right₀ (by norm_num)] at hbound
  omega

theorem digitsValue_toDigits (d : ℕ) : Text.digitsValue (Nat.toDigits 10 d) = d :=
  Nat.ofDigitChars_toDigits (by decide) (by decide)

theorem isDigit_of_mem_toDigits {d : ℕ} {c : Char} (h : c ∈ Nat.toDigits 10 d) : c.isDigit = true :=
  Nat.isDigit_of_mem_toDigits (by decide) (by decide) h

section Forms

variable {d : ℕ} {k : ℤ}

theorem toList_toString (d : ℕ) : (toString d).toList = Nat.toDigits 10 d := by
  rw [Nat.toString_eq_ofList_toDigits, String.toList_ofList]

theorem isDigit_of_mem_zeros {n : ℕ} {c : Char} (h : c ∈ List.replicate n '0') : c.isDigit = true := by
  rw [List.eq_of_mem_replicate h]
  rfl

/-- With a power of ten that is not negative, zeros stand behind the digits. -/
theorem exists_figures_of_nonneg (hd : d ≠ 0) (hk : 0 ≤ k)
    (hlength : ((Nat.toDigits 10 d).length : ℤ) + k ≤ 800) :
    ∃ figures : Text.Figures, figures.Writes (positional d k false) (d * 10 ^ k) := by
  let figures : Text.Figures :=
    { whole := Nat.toDigits 10 d ++ List.replicate k.toNat '0'
      places := none
      isDigit_whole := fun c hc => (List.mem_append.1 hc).elim isDigit_of_mem_toDigits isDigit_of_mem_zeros
      isDigit_places := nofun
      ne_nil := by simp [Nat.toDigits_ne_nil] }
  have hdigits : figures.digits = Nat.toDigits 10 d ++ List.replicate k.toNat '0' := List.append_nil _
  have hvalue : Text.digitsValue figures.digits = d * 10 ^ k.toNat := by
    rw [hdigits, Text.digitsValue_append_zeros, digitsValue_toDigits]
  refine ⟨figures, ?_, ?_, .inr ?_, ?_⟩
  · unfold positional
    simp [figures, Text.Figures.chars, if_pos hk]
  · rw [hdigits, List.length_append, List.length_replicate]
    show _ ≤ 800
    omega
  · rw [hvalue]
    exact Nat.mul_ne_zero hd (Nat.ne_of_gt (Nat.pow_pos (by decide)))
  · show (Text.digitsValue figures.digits : ℚ) * 10 ^ (-(0 : ℤ)) = d * 10 ^ k
    rw [hvalue, neg_zero, zpow_zero, mul_one, Nat.cast_mul, Nat.cast_pow, Nat.cast_ofNat, ← zpow_natCast,
      Int.toNat_of_nonneg hk]

/-- With a power of ten that does not use up the digits, the point stands between them. -/
theorem exists_figures_of_pos (hk : k < 0) (hplace : 0 < ((Nat.toDigits 10 d).length : ℤ) + k)
    (hlength : (Nat.toDigits 10 d).length ≤ 800) :
    ∃ figures : Text.Figures, figures.Writes (positional d k false) (d * 10 ^ k) := by
  obtain ⟨place, hp⟩ : ∃ p : ℤ, p = ((Nat.toDigits 10 d).length : ℤ) + k := ⟨_, rfl⟩
  let figures : Text.Figures :=
    { whole := (Nat.toDigits 10 d).take place.toNat
      places := some ((Nat.toDigits 10 d).drop place.toNat)
      isDigit_whole := fun c hc => isDigit_of_mem_toDigits (List.mem_of_mem_take hc)
      isDigit_places := fun cs hcs c hc =>
        isDigit_of_mem_toDigits (List.mem_of_mem_drop (Option.some.inj hcs ▸ hc))
      ne_nil := by
        rw [ne_eq, ← List.length_eq_zero_iff, List.length_take]
        omega }
  have hdigits : figures.digits = Nat.toDigits 10 d := List.take_append_drop _ _
  have hscale : (figures.scale : ℤ) = -k := by
    show (((Nat.toDigits 10 d).drop place.toNat).length : ℤ) = -k
    rw [List.length_drop]
    omega
  refine ⟨figures, ?_, ?_, .inl rfl, ?_⟩
  · unfold positional
    rw [toList_toString, if_neg (not_le.2 hk), ← hp, if_pos (by omega), ← String.toList_inj]
    simp [figures, Text.Figures.chars]
  · rw [hdigits]
    exact hlength
  · unfold Text.Figures.value
    rw [hdigits, digitsValue_toDigits, hscale, neg_neg]

/-- With any smaller power of ten, zeros stand before the digits. -/
theorem exists_figures_of_nonpos (hplace : ((Nat.toDigits 10 d).length : ℤ) + k ≤ 0)
    (hlow : -400 ≤ k) : ∃ figures : Text.Figures, figures.Writes (positional d k false) (d * 10 ^ k) := by
  obtain ⟨place, hp⟩ : ∃ p : ℤ, p = ((Nat.toDigits 10 d).length : ℤ) + k := ⟨_, rfl⟩
  have hsome : (Nat.toDigits 10 d).length ≠ 0 := by simp [Nat.toDigits_ne_nil]
  let figures : Text.Figures :=
    { whole := ['0']
      places := some (List.replicate (-place).toNat '0' ++ Nat.toDigits 10 d)
      isDigit_whole := fun c hc => isDigit_of_mem_zeros (n := 1) hc
      isDigit_places := fun cs hcs c hc =>
        (List.mem_append.1 (Option.some.inj hcs ▸ hc)).elim isDigit_of_mem_zeros isDigit_of_mem_toDigits
      ne_nil := List.cons_ne_nil _ _ }
  have hdigits : figures.digits = List.replicate ((-place).toNat + 1) '0' ++ Nat.toDigits 10 d := rfl
  have hscale : (figures.scale : ℤ) = -k := by
    show ((List.replicate (-place).toNat '0' ++ Nat.toDigits 10 d).length : ℤ) = -k
    rw [List.length_append, List.length_replicate]
    omega
  refine ⟨figures, ?_, ?_, .inl rfl, ?_⟩
  · unfold positional
    rw [toList_toString, if_neg (by omega), ← hp, if_neg (by omega), ← String.toList_inj]
    simp [figures, Text.Figures.chars]
  · rw [hdigits, List.length_append, List.length_replicate]
    show _ ≤ 800
    omega
  · unfold Text.Figures.value
    rw [hdigits, Text.digitsValue_zeros, digitsValue_toDigits, hscale, neg_neg]

/-- Positional digits are figures. -/
theorem exists_figures_positional (hd : d ≠ 0) (hlow : -400 ≤ k)
    (hhigh : ((Nat.toDigits 10 d).length : ℤ) + k ≤ 312) :
    ∃ figures : Text.Figures, figures.Writes (positional d k false) (d * 10 ^ k) := by
  by_cases hk : 0 ≤ k
  · exact exists_figures_of_nonneg hd hk (by omega)
  · by_cases hplace : 0 < ((Nat.toDigits 10 d).length : ℤ) + k
    · exact exists_figures_of_pos (by omega) hplace (by omega)
    · exact exists_figures_of_nonpos (by omega) hlow

/-- Whole numbers with one place behind the point are figures. -/
theorem exists_figures_whole (hd : d < 10 ^ 15) :
    ∃ figures : Text.Figures, figures.Writes (toString d ++ ".0") d := by
  have hlength : (Nat.toDigits 10 d).length ≤ 15 :=
    (Nat.length_toDigits_le_iff (by decide) (by decide)).2 hd
  let figures : Text.Figures :=
    { whole := Nat.toDigits 10 d
      places := some ['0']
      isDigit_whole := fun c hc => isDigit_of_mem_toDigits hc
      isDigit_places := by
        rintro cs hcs c hc
        obtain rfl := Option.some.inj hcs
        exact isDigit_of_mem_zeros (n := 1) hc
      ne_nil := Nat.toDigits_ne_nil }
  have hdigits : figures.digits = Nat.toDigits 10 d ++ List.replicate 1 '0' := rfl
  refine ⟨figures, ?_, ?_, .inl rfl, ?_⟩
  · rw [← String.toList_inj]
    simp [figures, Text.Figures.chars]
  · rw [hdigits, List.length_append, List.length_replicate]
    show _ ≤ 800
    omega
  · show (Text.digitsValue figures.digits : ℚ) * 10 ^ (-(1 : ℤ)) = d
    rw [hdigits, Text.digitsValue_append_zeros, digitsValue_toDigits]
    push_cast
    rw [zpow_neg_one, mul_assoc, mul_inv_cancel₀ (by norm_num), mul_one]

end Forms

/-- The whole part of a whole number is the number. -/
theorem cast_wholePart (h : isWhole m q = true) : (wholePart m q : ℚ) = m * 2 ^ q := by
  cases q with
  | ofNat n =>
    show ((m * twoTo n : ℕ) : ℚ) = m * 2 ^ (n : ℤ)
    rw [Nat.cast_mul, cast_twoTo, zpow_natCast]
  | negSucc n =>
    have hzero : m % twoTo (n + 1) = 0 := beq_iff_eq.1 h
    have hmul : m / twoTo (n + 1) * twoTo (n + 1) = m := Nat.div_mul_cancel (Nat.dvd_of_mod_eq_zero hzero)
    show ((m / twoTo (n + 1) : ℕ) : ℚ) = m * 2 ^ Int.negSucc n
    rw [zpow_negSucc, ← div_eq_mul_inv, eq_div_iff (by positivity), ← cast_twoTo, ← Nat.cast_mul, hmul]

theorem isWhole_zero (q : ℤ) : isWhole 0 q = true ∧ wholePart 0 q = 0 := by
  cases q with
  | ofNat n => exact ⟨rfl, Nat.zero_mul _⟩
  | negSucc n => exact ⟨beq_iff_eq.2 (Nat.zero_mod _), Nat.zero_div _⟩

theorem digits_ne_zero {d : ℕ} {k : ℤ} (hv : RoundsTo (d * 10 ^ k) m q) (hm : m ≠ 0) : d ≠ 0 := by
  rintro rfl
  have hpos := hv.pos hm
  rw [Nat.cast_zero, zero_mul] at hpos
  exact lt_irrefl 0 hpos

/-- Positional digits of a decimal that is not zero are figures of a number in its interval. -/
theorem exists_figures_shortest (h : IsPlaces m q) (hm : m ≠ 0) :
    ∃ (v : ℚ) (figures : Text.Figures),
      figures.Writes (positional (shortest .up m q).1 (shortest .up m q).2 false) v ∧ RoundsTo v m q := by
  have hround := roundsTo_shortest h (Nat.pos_of_ne_zero hm) .up
  have hlow := (shortest_holds h (Nat.pos_of_ne_zero hm) .up).2
  have hd := digits_ne_zero hround hm
  obtain ⟨figures, hfigures⟩ := exists_figures_positional hd hlow (length_digits_add_le h hd hround)
  exact ⟨_, figures, hfigures, hround⟩

/-- The text of a finite decimal is figures of a number in its interval. -/
theorem exists_figures_human (h : x.shape = .finite negative m q) :
    ∃ (v : ℚ) (text : String) (figures : Text.Figures),
      x.human = signed negative text ∧ figures.Writes text v ∧ RoundsTo v m q ∧ (m = 0 → v = 0) := by
  unfold human bare
  simp only [h]
  split
  · rename_i hwhole
    obtain ⟨hwhole, hsmall⟩ := Bool.and_eq_true_iff.1 hwhole
    obtain ⟨figures, hfigures⟩ := exists_figures_whole (of_decide_eq_true hsmall)
    refine ⟨_, _, figures, rfl, hfigures, ?_, ?_⟩
    · rw [cast_wholePart hwhole]
      exact RoundsTo.self m q
    · rintro rfl
      rw [cast_wholePart hwhole, Nat.cast_zero, zero_mul]
  · rename_i hwhole
    have hm : m ≠ 0 := by
      rintro rfl
      rw [(isWhole_zero q).1, (isWhole_zero q).2] at hwhole
      exact hwhole rfl
    obtain ⟨v, figures, hfigures, hround⟩ := exists_figures_shortest (shape_eq h).1 hm
    rw [if_neg (by simpa using hm)]
    exact ⟨v, _, figures, rfl, hfigures, hround, fun hzero => absurd hzero hm⟩

/-- Figures of a number in the interval of a decimal are rounded to it. -/
theorem ofScientific_figures {figures : Text.Figures} (h : IsPlaces m q) (hv : RoundsTo figures.value m q)
    (hzero : m = 0 → figures.value = 0) :
    ofScientific (Text.digitsValue figures.digits) (-figures.scale) = ofPlaces m q := by
  by_cases hm : m = 0
  · subst hm
    obtain rfl : q = -1074 := h.normal.resolve_right (by decide)
    have hdigits : (Text.digitsValue figures.digits : ℚ) = 0 :=
      (mul_eq_zero.1 (hzero rfl)).resolve_right (zpow_ne_zero _ (by norm_num))
    rw [Nat.cast_eq_zero.1 hdigits, ofScientific_zero]
    rfl
  · exact ofScientific_eq (digits_ne_zero hv hm) h hv

/-- The text of a decimal is read as a number that is rounded to it. -/
theorem toDecimal_of_parse?_human {n : Number} (h : Number.parse? x.human = some n) : n.toDecimal = x := by
  cases hshape : x.shape with
  | notANumber =>
    have hnone : Number.parse? "NaN" = none := by decide
    unfold human at h
    rw [hshape] at h
    rw [hnone] at h
    cases h
  | infinite negative =>
    have hnone : Number.parse? (signed negative "infinity") = none := by cases negative <;> decide
    unfold human at h
    rw [hshape] at h
    rw [hnone] at h
    cases h
  | finite negative m q =>
    obtain ⟨v, text, figures, hhuman, hwrites, hround, hzero⟩ := exists_figures_human hshape
    obtain ⟨hplaces, hx⟩ := shape_eq hshape
    obtain rfl := hwrites.value_eq
    rw [hhuman, hwrites.eq] at h
    rw [Text.Figures.toDecimal_of_parse? hwrites.length_le hwrites.nonzero h, hx]
    unfold Text.Figures.decimal
    rw [ofScientific_figures hplaces hround hzero]

end Decimal

/-- The text of an integer is read as this integer. -/
theorem Number.parse?_toString (n : Int64) : parse? (toString n.toInt) = some (int n) := by
  let figures : Text.Figures :=
    { whole := Nat.toDigits 10 n.toInt.natAbs
      places := none
      isDigit_whole := fun c hc => Decimal.isDigit_of_mem_toDigits hc
      isDigit_places := nofun
      ne_nil := Nat.toDigits_ne_nil }
  have htext : toString n.toInt = figures.text (decide (n.toInt < 0)) := by
    have hchars : figures.chars = Nat.toDigits 10 n.toInt.natAbs := List.append_nil _
    unfold Text.Figures.text
    rw [hchars, ← Nat.toString_eq_ofList_toDigits]
    cases n.toInt with
    | ofNat k =>
      rw [decide_eq_false (by simp)]
      rfl
    | negSucc k =>
      rw [decide_eq_true (Int.negSucc_lt_zero k), Int.toString_eq_repr]
      rfl
  have hvalue : Text.digitsValue figures.digits = n.toInt.natAbs := by
    show Text.digitsValue (Nat.toDigits 10 n.toInt.natAbs ++ []) = _
    rw [List.append_nil, Decimal.digitsValue_toDigits]
  have hbounds : -(int64Bound : ℤ) ≤ n.toInt ∧ n.toInt < int64Bound := ⟨n.le_toInt, n.toInt_lt⟩
  have hbelow : Text.integerBelow? (int64Bound + 1) (figures.text (decide (n.toInt < 0))) = some n.toInt := by
    rw [figures.integerBelow?_of_eq_none rfl, hvalue, if_pos (by omega)]
    congr 1
    simp only [decide_eq_true_eq]
    split <;> omega
  have hread : readInt64? (toString n.toInt) = some n := by
    unfold readInt64? int64?
    rw [htext, hbelow, Option.bind_some, if_pos hbounds, Int64.ofInt_toInt]
  unfold parse?
  rw [htext, figures.trimBlank_text, ← htext]
  simp only [hread]

end Reactor
