import Mathlib.Algebra.Order.Ring.Pow
import Mathlib.Tactic.NormNum
import Reactor.Proofs.Decimals.Rounding

/-!
# The search for the shortest digits

The search goes down the powers of ten. It ends with a hit, since twenty powers below the top one the grid is
finer than the interval.

* `Decimal.ten_zpow_le` : how many decimal places a number of bits has.
* `Interval.search_holds` : what is found lies in the interval, if the last grid has a hit.
* `Decimal.roundsTo_shortest` : the last grid has one, so that the digits are rounded to the decimal.
-/

namespace Reactor.Decimal

/-! ## Bits and places -/

/-- A power of ten with no more places than a number of bits. The logarithm of two is a little smaller than
30103 / 100000. -/
theorem ten_zpow_le {e : ℤ} (hlow : -6000 ≤ e) (hhigh : e ≤ 30000) :
    (10 : ℚ) ^ (e * 30103 / 100000) ≤ 2 ^ (e + 1) := by
  obtain ⟨t, ht⟩ : ∃ t, t = e * 30103 / 100000 := ⟨_, rfl⟩
  rw [← ht]
  rcases Int.le_total 0 t with hpos | hneg
  · -- ten to the 59 is less than two to the 196
    have hpow : ((10 : ℚ) ^ t) ^ 59 ≤ (2 ^ (e + 1)) ^ 59 := by
      calc ((10 : ℚ) ^ t) ^ 59 = (10 ^ 59) ^ t := by
            rw [← zpow_natCast, ← zpow_mul, ← zpow_natCast (10 : ℚ) 59, ← zpow_mul, mul_comm]
        _ ≤ (2 ^ 196) ^ t := zpow_le_zpow_left₀ hpos (by norm_num) (by norm_num)
        _ = 2 ^ (196 * t) := by rw [← zpow_natCast (2 : ℚ) 196, ← zpow_mul]; rfl
        _ ≤ 2 ^ ((e + 1) * 59) := zpow_le_zpow_right₀ one_le_two (by omega)
        _ = (2 ^ (e + 1)) ^ 59 := by rw [zpow_mul]; rfl
    exact (pow_le_pow_iff_left₀ (by positivity) (by positivity) (by decide)).1 hpow
  · -- ten to the 28 is more than two to the 93
    have hpow : ((10 : ℚ) ^ t) ^ 28 ≤ (2 ^ (e + 1)) ^ 28 := by
      calc ((10 : ℚ) ^ t) ^ 28 = ((10 ^ 28) ^ (-t))⁻¹ := by
            rw [zpow_neg, inv_inv, ← zpow_natCast, ← zpow_mul, ← zpow_natCast (10 : ℚ) 28, ← zpow_mul, mul_comm]
        _ ≤ ((2 ^ 93) ^ (-t))⁻¹ :=
            inv_anti₀ (by positivity) (zpow_le_zpow_left₀ (by omega) (by norm_num) (by norm_num))
        _ = 2 ^ (93 * t) := by rw [zpow_neg, inv_inv, ← zpow_natCast (2 : ℚ) 93, ← zpow_mul]; rfl
        _ ≤ 2 ^ ((e + 1) * 28) := zpow_le_zpow_right₀ one_le_two (by omega)
        _ = (2 ^ (e + 1)) ^ 28 := by rw [zpow_mul]; rfl
    exact (pow_le_pow_iff_left₀ (by positivity) (by positivity) (by decide)).1 hpow

/-! ## The search -/

theorem powerOfTen_pos (k : ℤ) : 0 < (powerOfTen k).1 ∧ 0 < (powerOfTen k).2 :=
  ⟨tenTo_pos _, tenTo_pos _⟩

/-- Digits and an exponent of ten as a rational number. -/
theorem digits_div (d : ℕ) (k : ℤ) :
    ((d * (powerOfTen k).1 : ℕ) : ℚ) / (powerOfTen k).2 = d * 10 ^ k := by
  show ((d * tenTo k.toNat : ℕ) : ℚ) / tenTo (-k).toNat = _
  rw [← pow_div_pow 10 k]
  push_cast [cast_tenTo]
  rw [mul_div_assoc]

namespace Interval

variable {i : Interval} {tie : Tie} {k : ℤ} {d : ℕ}

/-- The digits lie in the interval. -/
def Holds (i : Interval) (d : ℕ) (k : ℤ) : Prop :=
  i.contains (d * (powerOfTen k).1) (powerOfTen k).2 = true

theorem holds_of_nearest? (h : i.nearest? tie k = some d) : i.Holds d k := by
  unfold nearest? at h
  dsimp only at h
  unfold Holds
  split at h
  · rename_i hboth
    obtain ⟨hbelow, habove⟩ := Bool.and_eq_true_iff.1 hboth
    split at h
    · cases h
      exact hbelow
    · split at h
      · cases h
        exact habove
      · cases tie with
        | up =>
          cases h
          exact habove
        | even =>
          dsimp only at h
          split at h
          · cases h
            exact hbelow
          · cases h
            exact habove
  · split at h
    · rename_i hbelow
      cases h
      exact hbelow
    · split at h
      · rename_i habove
        cases h
        exact habove
      · cases h

/-- The search finds digits in the interval if there is a hit at its last grid. -/
theorem search_holds {fuel : ℕ} (h : (i.nearest? tie (k - fuel)).isSome = true) :
    i.Holds (i.search tie fuel k).1 (i.search tie fuel k).2 ∧ k - fuel ≤ (i.search tie fuel k).2 := by
  induction fuel generalizing k with
  | zero =>
    rw [Nat.cast_zero, sub_zero] at h
    obtain ⟨d, hd⟩ := Option.isSome_iff_exists.1 h
    simp only [search, hd, Option.getD_some, Nat.cast_zero, sub_zero]
    exact ⟨holds_of_nearest? hd, le_refl k⟩
  | succ fuel ih =>
    cases hd : i.nearest? tie k with
    | some d =>
      simp only [search, hd]
      exact ⟨holds_of_nearest? hd, by omega⟩
    | none =>
      simp only [search, hd]
      have hlast : k - 1 - fuel = k - (fuel + 1 : ℕ) := by omega
      rw [← hlast] at h ⊢
      exact ih h

/-- The grid point below the value lies in the interval if the grid is finer than its lower half. -/
theorem nearest?_isSome (hscale : 0 < i.scale) (hhigh : i.value < i.high)
    (hstep : (powerOfTen k).1 * i.scale ≤ (i.value - i.low) * (powerOfTen k).2) (hlow : i.low ≤ i.value) :
    (i.nearest? tie k).isSome = true := by
  obtain ⟨hnum, hden⟩ := powerOfTen_pos k
  unfold nearest?
  dsimp only
  generalize (powerOfTen k).1 = num at *
  generalize (powerOfTen k).2 = den at *
  obtain ⟨below, hbelow⟩ : ∃ b, b = i.value * den / (i.scale * num) := ⟨_, rfl⟩
  have hpos : 0 < i.scale * num := Nat.mul_pos hscale hnum
  have hfloor : below * num * i.scale ≤ i.value * den := by
    have := Nat.div_mul_le_self (i.value * den) (i.scale * num)
    rw [← hbelow] at this
    calc below * num * i.scale = below * (i.scale * num) := by rw [Nat.mul_assoc, Nat.mul_comm num]
      _ ≤ i.value * den := this
  have hceil : i.value * den < below * num * i.scale + num * i.scale := by
    have := Nat.lt_div_mul_add hpos (a := i.value * den)
    rw [← hbelow] at this
    calc i.value * den < below * (i.scale * num) + i.scale * num := this
      _ = below * num * i.scale + num * i.scale := by rw [Nat.mul_assoc, Nat.mul_comm num]
  have hupper : i.value * den < i.high * den := Nat.mul_lt_mul_of_pos_right hhigh hden
  have hlower : i.low * den < below * num * i.scale := by
    rw [Nat.sub_mul] at hstep
    have := Nat.mul_le_mul_right den hlow
    omega
  have hhit : i.contains (below * num) den = true := by
    unfold contains
    dsimp only
    split
    · simp only [Bool.and_eq_true, decide_eq_true_eq]
      omega
    · simp only [Bool.and_eq_true, decide_eq_true_eq]
      omega
  rw [← hbelow, hhit]
  cases i.contains ((below + 1) * num) den with
  | false => rfl
  | true =>
    simp only [Bool.and_self, if_true]
    split
    · rfl
    · split
      · rfl
      · cases tie <;> rfl

end Interval

/-! ## The shortest digits -/

variable {m : ℕ} {q : ℤ}

/-- The last grid that is searched is finer than a quarter of the last place. -/
theorem last_grid_le (h : IsPlaces m q) (hm : 0 < m) :
    (10 : ℚ) ^ (((Nat.log2 m : ℤ) + 1 + q) * 30103 / 100000 + 1 - 20) * 4 ≤ 2 ^ q := by
  have hlog : Nat.log2 m < 53 := (Nat.log2_lt (Nat.ne_of_gt hm)).2 h.lt
  have hge := h.ge
  have hle := h.le
  obtain ⟨e, he⟩ : ∃ e : ℤ, e = (Nat.log2 m : ℤ) + 1 + q := ⟨_, rfl⟩
  rw [← he]
  have hbound : -6000 ≤ e ∧ e ≤ q + 53 ∧ e ≤ 30000 := by omega
  calc (10 : ℚ) ^ (e * 30103 / 100000 + 1 - 20) * 4
      = 10 ^ (e * 30103 / 100000) * ((10 : ℚ) ^ 19)⁻¹ * 4 := by
        rw [show e * 30103 / 100000 + 1 - 20 = e * 30103 / 100000 + -19 by omega, zpow_add₀ (by norm_num),
          zpow_neg]
        rfl
    _ ≤ 2 ^ (e + 1) * ((10 : ℚ) ^ 19)⁻¹ * 4 := by
        have hten := ten_zpow_le hbound.1 hbound.2.2
        gcongr
    _ ≤ 2 ^ (q + 54) * ((10 : ℚ) ^ 19)⁻¹ * 4 := by
        have htwo : (2 : ℚ) ^ (e + 1) ≤ 2 ^ (q + 54) := zpow_le_zpow_right₀ one_le_two (by omega)
        gcongr
    _ = 2 ^ q * (2 ^ 54 * ((10 : ℚ) ^ 19)⁻¹ * 4) := by
        rw [zpow_add₀ two_ne_zero]
        norm_cast
        ring
    _ ≤ 2 ^ q := mul_le_of_le_one_right (two_zpow_pos q).le (by norm_num)

/-- A grid that is finer than a quarter of the last place has a point in the interval. -/
theorem nearest?_isSome_of_le {k : ℤ} (hm : 0 < m) (tie : Tie) (h : (10 : ℚ) ^ k * 4 ≤ 2 ^ q) :
    ((Interval.of m q).nearest? tie k).isSome = true := by
  have hup := twoTo_pos q.toNat
  have hgap : (if (m == twoTo 52 && q != -1074) = true then 1 else 2) ≤ 2 ∧
      1 ≤ (if (m == twoTo 52 && q != -1074) = true then 1 else 2) := by
    split <;> decide
  have hstep : (powerOfTen k).1 * (4 * twoTo (-q).toNat) ≤ twoTo q.toNat * (powerOfTen k).2 := by
    have hden : (0 : ℚ) < 10 ^ (-k).toNat := by positivity
    have hscale : (0 : ℚ) < 2 ^ (-q).toNat := by positivity
    rw [← pow_div_pow 10 k, ← pow_div_pow 2 q, div_mul_eq_mul_div, div_le_div_iff₀ hden hscale,
      mul_assoc] at h
    rw [← Nat.cast_le (α := ℚ)]
    show ((tenTo k.toNat * (4 * twoTo (-q).toNat) : ℕ) : ℚ) ≤ (twoTo q.toNat * tenTo (-k).toNat : ℕ)
    push_cast [cast_twoTo, cast_tenTo]
    exact h
  refine Interval.nearest?_isSome (Interval.scale_of_pos m q) ?_ ?_ ?_
  · exact Nat.mul_lt_mul_of_pos_right (by omega) hup
  · refine hstep.trans (Nat.mul_le_mul_right _ ?_)
    show twoTo q.toNat ≤ 4 * m * twoTo q.toNat - (4 * m - _) * twoTo q.toNat
    rw [← Nat.sub_mul]
    refine Nat.le_mul_of_pos_left _ ?_
    omega
  · exact Nat.mul_le_mul_right _ (by omega)

/-- The digits of a decimal lie in its interval. -/
theorem shortest_holds (h : IsPlaces m q) (hm : 0 < m) (tie : Tie) :
    (Interval.of m q).Holds (shortest tie m q).1 (shortest tie m q).2 ∧ -400 ≤ (shortest tie m q).2 := by
  have hge := h.ge
  have hhit : ((Interval.of m q).nearest? tie
      (((Nat.log2 m : ℤ) + 1 + q) * 30103 / 100000 + 1 - (20 : ℕ))).isSome = true :=
    nearest?_isSome_of_le hm tie (last_grid_le h hm)
  obtain ⟨hholds, hlast⟩ := Interval.search_holds hhit
  refine ⟨hholds, le_trans ?_ hlast⟩
  push_cast
  omega

/-- The digits of a decimal are rounded to it. -/
theorem roundsTo_shortest (h : IsPlaces m q) (hm : 0 < m) (tie : Tie) :
    RoundsTo ((shortest tie m q).1 * 10 ^ (shortest tie m q).2) m q := by
  rw [← digits_div]
  exact Interval.roundsTo hm (powerOfTen_pos _).2 (shortest_holds h hm tie).1

end Reactor.Decimal
