import Mathlib.Algebra.Order.Field.Power
import Mathlib.Data.Rat.Cast.Order
import Mathlib.Tactic.FieldSimp
import Mathlib.Tactic.Linarith
import Mathlib.Tactic.Positivity
import Mathlib.Tactic.Ring
import Reactor.Decimal.Shortest

/-!
# Rounding to decimals

A fraction is rounded to the decimal whose interval it lies in. Fractions are rational numbers here, so that
powers with negative exponents need no cases.

* `Decimal.roundEven_eq` : the whole number that a fraction is rounded to.
* `Decimal.IsLastPlace` : the exponent of the last place at a number, which is unique.
* `Decimal.RoundsTo` : the number lies in the interval of `m * 2 ^ q`.
* `Decimal.nearest_eq` : then it is rounded to the decimal with this `m` and `q`.
* `Decimal.shape_eq` : a decimal from its sign, its places and its exponent.
-/

namespace Reactor.Decimal

/-! ## Powers -/

theorem cast_twoTo (n : ℕ) : ((twoTo n : ℕ) : ℚ) = 2 ^ n := by
  show ((2 ^ n : ℕ) : ℚ) = 2 ^ n
  push_cast
  rfl

theorem cast_tenTo (n : ℕ) : ((tenTo n : ℕ) : ℚ) = 10 ^ n := by
  show ((10 ^ n : ℕ) : ℚ) = 10 ^ n
  push_cast
  rfl

/-- A power as a fraction of powers whose exponents are natural numbers. -/
theorem pow_div_pow (b : ℚ) (q : ℤ) : b ^ q.toNat / b ^ (-q).toNat = b ^ q := by
  rcases Int.le_total 0 q with h | h
  · rw [Int.toNat_eq_zero.2 (show -q ≤ 0 by omega), pow_zero, div_one, ← zpow_natCast, Int.toNat_of_nonneg h]
  · rw [Int.toNat_eq_zero.2 h, pow_zero, one_div, ← zpow_natCast, Int.toNat_of_nonneg (by omega), ← zpow_neg,
      neg_neg]

theorem two_zpow_pos (q : ℤ) : (0 : ℚ) < 2 ^ q :=
  zpow_pos two_pos q

/-- A fraction in which numerator and denominator are shifted, so that whole numbers count its last place. -/
theorem shifted_div (num den : ℕ) (q : ℤ) :
    ((num * twoTo (-q).toNat : ℕ) : ℚ) / (den * twoTo q.toNat : ℕ) = num / den / 2 ^ q := by
  have hpow := pow_div_pow 2 q
  have hpos : (0 : ℚ) < 2 ^ (-q).toNat := by positivity
  have hpos' : (0 : ℚ) < 2 ^ q.toNat := by positivity
  push_cast [cast_twoTo]
  rw [← hpow]
  field_simp

/-! ## Whole numbers -/

theorem roundEven_eq {num den m : ℕ} (hden : 0 < den) (hlow : 2 * (m * den) ≤ 2 * num + den)
    (hhigh : 2 * num ≤ 2 * (m * den) + den)
    (hodd : m % 2 = 1 → 2 * (m * den) < 2 * num + den ∧ 2 * num < 2 * (m * den) + den) :
    roundEven num den = m := by
  have hsplit := Nat.div_add_mod num den
  have hrest := Nat.mod_lt num hden
  obtain ⟨below, hbelow⟩ : ∃ b, b = num / den := ⟨_, rfl⟩
  obtain ⟨rest, hr⟩ : ∃ r, r = num % den := ⟨_, rfl⟩
  unfold roundEven
  simp only [← hbelow, ← hr] at hsplit hrest ⊢
  have hcases : m = below ∨ m = below + 1 := by
    have hge : below ≤ m := by
      by_contra h
      have := Nat.mul_le_mul_left den (show m + 1 ≤ below by omega)
      rw [Nat.mul_add, Nat.mul_one, Nat.mul_comm den m] at this
      omega
    have hle : m ≤ below + 1 := by
      by_contra h
      have := Nat.mul_le_mul_left den (show below + 2 ≤ m by omega)
      rw [Nat.mul_add, Nat.mul_comm den m] at this
      omega
    omega
  rcases hcases with rfl | rfl
  · rw [Nat.mul_comm den] at hsplit
    rw [if_pos]
    simp only [Bool.or_eq_true, decide_eq_true_eq, Bool.and_eq_true, beq_iff_eq]
    omega
  · rw [Nat.mul_comm den] at hsplit
    rw [Nat.add_mul, Nat.one_mul] at hlow hhigh hodd
    rw [if_neg]
    simp only [Bool.or_eq_true, decide_eq_true_eq, Bool.and_eq_true, beq_iff_eq]
    omega

/-- A fraction is rounded to the whole number that is at most a half away, or less than a half if it is odd. -/
theorem roundEven_eq_of_near {num den m : ℕ} (hden : 0 < den) (hlow : (m : ℚ) - 1 / 2 ≤ num / den)
    (hhigh : (num : ℚ) / den ≤ m + 1 / 2)
    (hodd : m % 2 = 1 → (m : ℚ) - 1 / 2 < num / den ∧ (num : ℚ) / den < m + 1 / 2) : roundEven num den = m := by
  have hpos : (0 : ℚ) < den := Nat.cast_pos.2 hden
  rw [le_div_iff₀ hpos] at hlow
  rw [div_le_iff₀ hpos] at hhigh
  refine roundEven_eq hden ?_ ?_ fun h => ?_
  · have : (2 * (m * den) : ℚ) ≤ 2 * num + den := by linarith
    exact_mod_cast this
  · have : (2 * num : ℚ) ≤ 2 * (m * den) + den := by linarith
    exact_mod_cast this
  · obtain ⟨hlow, hhigh⟩ := hodd h
    rw [lt_div_iff₀ hpos] at hlow
    rw [div_lt_iff₀ hpos] at hhigh
    have h₁ : (2 * (m * den) : ℚ) < 2 * num + den := by linarith
    have h₂ : (2 * num : ℚ) < 2 * (m * den) + den := by linarith
    exact ⟨by exact_mod_cast h₁, by exact_mod_cast h₂⟩

/-! ## The last place -/

/-- The exponent of the last place at a number: the number has at most 53 places, and fewer only at the end of
the range. -/
structure IsLastPlace (v : ℚ) (q : ℤ) : Prop where
  ge : -1074 ≤ q
  lt : v < 2 ^ (q + 53)
  le : q = -1074 ∨ 2 ^ (q + 52) ≤ v

variable {v : ℚ} {p q : ℤ}

theorem IsLastPlace.le_of (h : IsLastPlace v p) (h' : IsLastPlace v q) : q ≤ p := by
  rcases h'.le with rfl | hle
  · exact h.ge
  · have hlt : (2 : ℚ) ^ (q + 52) < 2 ^ (p + 53) := lt_of_le_of_lt hle h.lt
    rw [zpow_lt_zpow_iff_right₀ one_lt_two] at hlt
    omega

theorem IsLastPlace.unique (h : IsLastPlace v p) (h' : IsLastPlace v q) : p = q :=
  Int.le_antisymm (h'.le_of h) (h.le_of h')

/-- The number of bits of a number. -/
theorem log2_bounds {n : ℕ} (hn : n ≠ 0) :
    (2 : ℚ) ^ (Nat.log2 n : ℤ) ≤ n ∧ (n : ℚ) < 2 ^ ((Nat.log2 n : ℤ) + 1) := by
  have hlow : 2 ^ Nat.log2 n ≤ n := Nat.log2_self_le hn
  have hhigh : n < 2 ^ (Nat.log2 n + 1) := Nat.lt_log2_self
  constructor
  · rw [zpow_natCast]
    exact_mod_cast hlow
  · rw [← Nat.cast_one, ← Nat.cast_add, zpow_natCast]
    exact_mod_cast hhigh

/-- The numbers of bits tell a fraction up to a factor of two. -/
theorem log2_div_bounds {num den : ℕ} (hnum : num ≠ 0) (hden : den ≠ 0) :
    (2 : ℚ) ^ ((Nat.log2 num : ℤ) - Nat.log2 den - 1) ≤ num / den ∧
      (num : ℚ) / den < 2 ^ ((Nat.log2 num : ℤ) - Nat.log2 den + 1) := by
  obtain ⟨hn, hn'⟩ := log2_bounds hnum
  obtain ⟨hd, hd'⟩ := log2_bounds hden
  have hpos : (0 : ℚ) < den := Nat.cast_pos.2 (Nat.pos_of_ne_zero hden)
  constructor
  · rw [le_div_iff₀ hpos]
    calc (2 : ℚ) ^ ((Nat.log2 num : ℤ) - Nat.log2 den - 1) * den
        ≤ 2 ^ ((Nat.log2 num : ℤ) - Nat.log2 den - 1) * 2 ^ ((Nat.log2 den : ℤ) + 1) :=
          mul_le_mul_of_nonneg_left hd'.le (two_zpow_pos _).le
      _ = 2 ^ (Nat.log2 num : ℤ) := by
          rw [← zpow_add₀ two_ne_zero]
          congr 1
          omega
      _ ≤ num := hn
  · rw [div_lt_iff₀ hpos]
    calc (num : ℚ) < 2 ^ ((Nat.log2 num : ℤ) + 1) := hn'
      _ = 2 ^ ((Nat.log2 num : ℤ) - Nat.log2 den + 1) * 2 ^ (Nat.log2 den : ℤ) := by
          rw [← zpow_add₀ two_ne_zero]
          congr 1
          omega
      _ ≤ 2 ^ ((Nat.log2 num : ℤ) - Nat.log2 den + 1) * den :=
          mul_le_mul_of_nonneg_left hd (two_zpow_pos _).le

/-- Whole numbers tell whether a fraction has more than 53 places. -/
theorem twoTo_mul_le_iff {num den : ℕ} (hden : den ≠ 0) (q : ℤ) :
    twoTo 53 * (den * twoTo q.toNat) ≤ num * twoTo (-q).toNat ↔ (2 : ℚ) ^ (q + 53) ≤ num / den := by
  have hpos : (0 : ℚ) < (den * twoTo q.toNat : ℕ) :=
    Nat.cast_pos.2 (Nat.mul_pos (Nat.pos_of_ne_zero hden) (twoTo_pos _))
  rw [← Nat.cast_le (α := ℚ), Nat.cast_mul (twoTo 53), ← le_div_iff₀ hpos, shifted_div,
    le_div_iff₀ (two_zpow_pos q), cast_twoTo, ← zpow_natCast, ← zpow_add₀ two_ne_zero, add_comm]
  rfl

theorem lastPlace_spec {num den : ℕ} (hnum : num ≠ 0) (hden : den ≠ 0) :
    IsLastPlace ((num : ℚ) / den) (lastPlace num den) := by
  obtain ⟨hlow, hhigh⟩ := log2_div_bounds hnum hden
  obtain ⟨e, he⟩ : ∃ e : ℤ, e = (Nat.log2 num : ℤ) - Nat.log2 den := ⟨_, rfl⟩
  rw [← he] at hlow hhigh
  unfold lastPlace
  simp only [← he, twoTo_mul_le_iff hden]
  obtain ⟨q, hq⟩ : ∃ q : ℤ, q = max (-1074) (e - 53) := ⟨_, rfl⟩
  rw [← hq]
  split
  · rename_i hle
    refine ⟨by omega, lt_of_lt_of_le hhigh (zpow_le_zpow_right₀ one_le_two (by omega)), .inr ?_⟩
    rwa [show q + 1 + 52 = q + 53 by omega]
  · rename_i hle
    refine ⟨by omega, not_le.1 hle, ?_⟩
    by_cases hmin : q = -1074
    · exact .inl hmin
    · exact .inr ((zpow_le_zpow_right₀ one_le_two (by omega)).trans hlow)

/-! ## Intervals -/

/-- Half the gap below `m * 2 ^ q`, in last places. It is half as wide below a power of two, except at the end
of the range. -/
def halfGap (m : ℕ) (q : ℤ) : ℚ :=
  if m = 2 ^ 52 ∧ q ≠ -1074 then 1 / 4 else 1 / 2

/-- The number lies in the interval of `m * 2 ^ q`, to which the ends belong if `m` is even. -/
structure RoundsTo (v : ℚ) (m : ℕ) (q : ℤ) : Prop where
  lower : (m - halfGap m q) * 2 ^ q ≤ v
  upper : v ≤ (m + 1 / 2) * 2 ^ q
  inside : m % 2 = 1 → (m - halfGap m q) * 2 ^ q < v ∧ v < (m + 1 / 2) * 2 ^ q

/-- The places and the exponent of a decimal. -/
structure IsPlaces (m : ℕ) (q : ℤ) : Prop where
  lt : m < 2 ^ 53
  normal : q = -1074 ∨ 2 ^ 52 ≤ m
  ge : -1074 ≤ q
  le : q ≤ 971

theorem halfGap_le (m : ℕ) (q : ℤ) : halfGap m q ≤ 1 / 2 := by
  unfold halfGap
  split <;> norm_num

variable {m : ℕ}

/-- A number above the power of two that the places begin with has the same last place. -/
theorem isLastPlace_of_le (h : IsPlaces m q) (hv : RoundsTo v m q) (hle : q = -1074 ∨ 2 ^ (q + 52) ≤ v) :
    IsLastPlace v q := by
  refine ⟨h.ge, hv.upper.trans_lt ?_, hle⟩
  have hm : (m : ℚ) + 1 / 2 < 2 ^ 53 := by
    have : (m : ℚ) + 1 ≤ 2 ^ 53 := by exact_mod_cast h.lt
    linarith
  calc ((m : ℚ) + 1 / 2) * 2 ^ q < 2 ^ 53 * 2 ^ q := mul_lt_mul_of_pos_right hm (two_zpow_pos q)
    _ = 2 ^ (q + 53) := by
      rw [add_comm, zpow_add₀ two_ne_zero]
      norm_cast

/-- Only a number that is rounded up to a power of two lies below it. -/
theorem halfGap_of_lt (h : IsPlaces m q) (hv : RoundsTo v m q) (hq : q ≠ -1074) (hlt : v < 2 ^ (q + 52)) :
    m = 2 ^ 52 ∧ halfGap m q = 1 / 4 := by
  have hm : m = 2 ^ 52 := by
    by_contra hne
    have hge : 2 ^ 52 + 1 ≤ m := by
      have := h.normal.resolve_left hq
      omega
    have hge' : (2 : ℚ) ^ 52 ≤ m - halfGap m q := by
      have hcast : (2 : ℚ) ^ 52 + 1 ≤ m := by exact_mod_cast hge
      have := halfGap_le m q
      linarith
    have : (2 : ℚ) ^ (q + 52) ≤ v := by
      calc (2 : ℚ) ^ (q + 52) = 2 ^ 52 * 2 ^ q := by
            rw [add_comm, zpow_add₀ two_ne_zero]
            norm_cast
        _ ≤ (m - halfGap m q) * 2 ^ q := mul_le_mul_of_nonneg_right hge' (two_zpow_pos q).le
        _ ≤ v := hv.lower
    exact absurd hlt (not_lt.2 this)
  exact ⟨hm, if_pos ⟨hm, hq⟩⟩

/-- The bits of `m * 2 ^ q`. -/
def ofPlaces (m : ℕ) (q : ℤ) : Decimal :=
  ⟨UInt64.ofNat (m + (q + 1074).toNat * twoTo 52)⟩

/-- The last places of a number are rounded to the whole number that they are near to. -/
theorem roundEven_shifted {num den : ℕ} (hden : 0 < den) (hlow : (m - 1 / 2) * 2 ^ q ≤ (num : ℚ) / den)
    (hhigh : (num : ℚ) / den ≤ (m + 1 / 2) * 2 ^ q)
    (hodd : m % 2 = 1 → (m - 1 / 2) * 2 ^ q < (num : ℚ) / den ∧ (num : ℚ) / den < (m + 1 / 2) * 2 ^ q) :
    roundEven (num * twoTo (-q).toNat) (den * twoTo q.toNat) = m := by
  have hpos := two_zpow_pos q
  have hfraction := shifted_div num den q
  refine roundEven_eq_of_near (Nat.mul_pos hden (twoTo_pos _)) ?_ ?_ fun h => ?_
  · rwa [hfraction, le_div_iff₀ hpos]
  · rwa [hfraction, div_le_iff₀ hpos]
  · rw [hfraction, lt_div_iff₀ hpos, div_lt_iff₀ hpos]
    exact hodd h

theorem RoundsTo.near (hv : RoundsTo v m q) :
    (m - 1 / 2) * 2 ^ q ≤ v ∧ (m % 2 = 1 → (m - 1 / 2) * 2 ^ q < v) := by
  have hle : (m - 1 / 2 : ℚ) * 2 ^ q ≤ (m - halfGap m q) * 2 ^ q := by
    have := halfGap_le m q
    exact mul_le_mul_of_nonneg_right (by linarith) (two_zpow_pos q).le
  exact ⟨hle.trans hv.lower, fun h => hle.trans_lt (hv.inside h).1⟩

/-- The rounding of a number whose last place and whose places are known. The places may have overflowed. -/
theorem nearest_eq_of_lastPlace {num den n : ℕ} {p : ℤ} (hnum : num ≠ 0) (h : IsPlaces m q)
    (hlast : lastPlace num den = p) (hround : roundEven (num * twoTo (-p).toNat) (den * twoTo p.toNat) = n)
    (hsame : n + (p + 1074).toNat * twoTo 52 = m + (q + 1074).toNat * twoTo 52) :
    nearest num den = ofPlaces m q := by
  have hnonzero : (num == 0) = false := beq_eq_false_iff_ne.2 hnum
  have htwo : twoTo 52 = 4503599627370496 := rfl
  have hbits : m + (q + 1074).toNat * twoTo 52 < 2047 * twoTo 52 := by
    have hlt := h.lt
    have hge := h.ge
    have hle := h.le
    rw [htwo]
    omega
  simp only [nearest, hnonzero, hlast, hround, hsame, if_pos hbits]
  rfl

/-- Below the power of two that it is rounded to, a number has places half as wide, and they are rounded up
until they overflow. -/
theorem nearest_eq_of_lt {num den : ℕ} (hnum : num ≠ 0) (hden : den ≠ 0) (h : IsPlaces m q)
    (hv : RoundsTo ((num : ℚ) / den) m q) (hq : q ≠ -1074) (hbelow : (num : ℚ) / den < 2 ^ (q + 52)) :
    nearest num den = ofPlaces m q := by
  obtain ⟨rfl, hgap⟩ := halfGap_of_lt h hv hq hbelow
  have hge := h.ge
  have hunit := two_zpow_pos (q - 1)
  have hpower (n : ℕ) : (2 : ℚ) ^ (q - 1 + n) = 2 ^ n * 2 ^ (q - 1) := by
    rw [add_comm, zpow_add₀ two_ne_zero]
    norm_cast
  have habove : ((2 ^ 53 : ℕ) - 1 / 2 : ℚ) * 2 ^ (q - 1) ≤ num / den := by
    have hlower := hv.lower
    have hhalf : (2 : ℚ) ^ q = 2 * 2 ^ (q - 1) := by
      rw [← zpow_one_add₀ two_ne_zero]
      congr 1
      omega
    rw [hgap, hhalf] at hlower
    push_cast at hlower ⊢
    linarith
  have hbelow' : (num : ℚ) / den < 2 ^ 53 * 2 ^ (q - 1) := by
    rw [← hpower]
    rwa [show q - 1 + (53 : ℕ) = q + 52 by omega]
  have hlast : lastPlace num den = q - 1 := by
    refine (lastPlace_spec hnum hden).unique ⟨by omega, ?_, .inr ?_⟩
    · rw [← hpower] at hbelow'
      exact hbelow'
    · refine le_trans ?_ habove
      have h52 := hpower 52
      push_cast at h52 ⊢
      rw [h52]
      exact mul_le_mul_of_nonneg_right (by norm_num) hunit.le
  have hround : roundEven (num * twoTo (-(q - 1)).toNat) (den * twoTo (q - 1).toNat) = 2 ^ 53 := by
    refine roundEven_shifted (Nat.pos_of_ne_zero hden) habove ?_ fun hodd => absurd hodd (by decide)
    push_cast
    linarith
  refine nearest_eq_of_lastPlace hnum h hlast hround ?_
  rw [show twoTo 52 = 4503599627370496 from rfl]
  omega

/-- A number is rounded to the decimal whose interval it lies in. -/
theorem nearest_eq {num den : ℕ} (hnum : num ≠ 0) (hden : den ≠ 0) (h : IsPlaces m q)
    (hv : RoundsTo ((num : ℚ) / den) m q) : nearest num den = ofPlaces m q := by
  by_cases hle : q = -1074 ∨ (2 : ℚ) ^ (q + 52) ≤ num / den
  · have hlast : lastPlace num den = q := (lastPlace_spec hnum hden).unique (isLastPlace_of_le h hv hle)
    have hround : roundEven (num * twoTo (-q).toNat) (den * twoTo q.toNat) = m :=
      roundEven_shifted (Nat.pos_of_ne_zero hden) hv.near.1 hv.upper fun hodd =>
        ⟨hv.near.2 hodd, (hv.inside hodd).2⟩
    exact nearest_eq_of_lastPlace hnum h hlast hround rfl
  · obtain ⟨hq, hbelow⟩ := not_or.1 hle
    exact nearest_eq_of_lt hnum hden h hv hq (not_le.1 hbelow)

/-! ## The interval in whole numbers -/

namespace Interval

variable {i : Interval} {num den : ℕ}

/-- The lower end as a rational number. -/
def bottom (i : Interval) : ℚ :=
  i.low / i.scale

/-- The upper end as a rational number. -/
def top (i : Interval) : ℚ :=
  i.high / i.scale

theorem le_of_contains (hden : 0 < den) (hscale : 0 < i.scale) (h : i.contains num den = true) :
    (i.bottom ≤ num / den ∧ (num : ℚ) / den ≤ i.top) ∧
      (i.closed = false → i.bottom < num / den ∧ (num : ℚ) / den < i.top) := by
  have hden' : (0 : ℚ) < den := Nat.cast_pos.2 hden
  have hscale' : (0 : ℚ) < i.scale := Nat.cast_pos.2 hscale
  unfold bottom top
  rw [div_le_div_iff₀ hscale' hden', div_le_div_iff₀ hden' hscale', div_lt_div_iff₀ hscale' hden',
    div_lt_div_iff₀ hden' hscale']
  norm_cast
  unfold contains at h
  cases hclosed : i.closed with
  | true =>
    simp only [hclosed, if_true, Bool.and_eq_true, decide_eq_true_eq] at h
    exact ⟨h, nofun⟩
  | false =>
    simp only [hclosed, Bool.false_eq_true, if_false, Bool.and_eq_true, decide_eq_true_eq] at h
    exact ⟨⟨h.1.le, h.2.le⟩, fun _ => h⟩

theorem end_div_scale (n : ℕ) (q : ℤ) :
    ((n * twoTo q.toNat : ℕ) : ℚ) / (4 * twoTo (-q).toNat : ℕ) = n / 4 * 2 ^ q := by
  rw [← pow_div_pow 2 q]
  push_cast [cast_twoTo]
  rw [mul_div_mul_comm]

theorem scale_of_pos (m : ℕ) (q : ℤ) : 0 < (of m q).scale :=
  Nat.mul_pos (by decide) (twoTo_pos _)

theorem top_of (m : ℕ) (q : ℤ) : (of m q).top = (m + 1 / 2) * 2 ^ q := by
  show ((((4 * m + 2) * twoTo q.toNat : ℕ) : ℚ) / (4 * twoTo (-q).toNat : ℕ)) = _
  rw [end_div_scale]
  push_cast
  ring

theorem bottom_of (hm : 0 < m) (q : ℤ) : (of m q).bottom = (m - halfGap m q) * 2 ^ q := by
  have hiff : (m == twoTo 52 && q != -1074) = true ↔ m = 2 ^ 52 ∧ q ≠ -1074 := by
    rw [Bool.and_eq_true, beq_iff_eq, bne_iff_ne]
    rfl
  have hbottom : (of m q).bottom =
      (4 * m - (if (m == twoTo 52 && q != -1074) = true then 1 else 2) : ℕ) / 4 * 2 ^ q :=
    end_div_scale _ q
  rw [hbottom]
  unfold halfGap
  by_cases h : m = 2 ^ 52 ∧ q ≠ -1074
  · rw [if_pos h, if_pos (hiff.2 h), Nat.cast_sub (by omega)]
    push_cast
    ring
  · rw [if_neg h, if_neg (fun h' => h (hiff.1 h')), Nat.cast_sub (by omega)]
    push_cast
    ring

/-- Numbers in the interval of a decimal are rounded to it. -/
theorem roundsTo (hm : 0 < m) (hden : 0 < den) (h : (of m q).contains num den = true) :
    RoundsTo ((num : ℚ) / den) m q := by
  obtain ⟨⟨hlow, hhigh⟩, hinside⟩ := le_of_contains hden (scale_of_pos m q) h
  rw [bottom_of hm, top_of] at hinside
  rw [bottom_of hm] at hlow
  rw [top_of] at hhigh
  refine ⟨hlow, hhigh, fun hodd => hinside ?_⟩
  show (m % 2 == 0) = false
  rw [hodd]
  rfl

end Interval

/-- A decimal itself lies in its interval. -/
theorem RoundsTo.self (m : ℕ) (q : ℤ) : RoundsTo (m * 2 ^ q) m q := by
  have hunit := two_zpow_pos q
  have hgap : 0 < halfGap m q := by
    unfold halfGap
    split <;> norm_num
  have hlow : (m - halfGap m q : ℚ) * 2 ^ q < m * 2 ^ q := mul_lt_mul_of_pos_right (by linarith) hunit
  have hhigh : (m : ℚ) * 2 ^ q < (m + 1 / 2) * 2 ^ q := mul_lt_mul_of_pos_right (by linarith) hunit
  exact ⟨hlow.le, hhigh.le, fun _ => ⟨hlow, hhigh⟩⟩

/-- What is rounded to a decimal that is not zero is not zero. -/
theorem RoundsTo.pos (hv : RoundsTo v m q) (hm : m ≠ 0) : 0 < v := by
  have hgap := halfGap_le m q
  have hone : (1 : ℚ) ≤ m := by exact_mod_cast Nat.pos_of_ne_zero hm
  exact (mul_pos (by linarith) (two_zpow_pos q)).trans_le hv.lower

/-! ## Bits -/

variable {x : Decimal} {negative : Bool}

theorem xor_two_pow {n k : ℕ} (h : n < 2 ^ k) : n ^^^ 2 ^ k = n + 2 ^ k := by
  have hor : 2 ^ k ||| n = 2 ^ k + n := by
    simpa using (Nat.two_pow_add_eq_or_of_lt h 1).symm
  rw [Nat.add_comm, ← hor]
  refine Nat.eq_of_testBit_eq fun i => ?_
  rw [Nat.testBit_xor, Nat.testBit_or, Nat.testBit_two_pow]
  by_cases hi : k = i
  · subst hi
    simp [Nat.testBit_lt_two_pow h]
  · simp [hi]

/-- The sign sets the highest bit. -/
theorem toNat_neg (h : x.bits.toNat < 2 ^ 63) : (neg x).bits.toNat = x.bits.toNat + 2 ^ 63 := by
  show (x.bits ^^^ 0x8000000000000000).toNat = _
  rw [UInt64.toNat_xor]
  exact xor_two_pow h

theorem toNat_ofPlaces (h : IsPlaces m q) :
    (ofPlaces m q).bits.toNat = m + (q + 1074).toNat * 2 ^ 52 ∧ (ofPlaces m q).bits.toNat < 2 ^ 63 := by
  have hlt := h.lt
  have hge := h.ge
  have hle := h.le
  have hbits : (ofPlaces m q).bits.toNat = m + (q + 1074).toNat * 2 ^ 52 := by
    show (UInt64.ofNat (m + (q + 1074).toNat * twoTo 52)).toNat = _
    rw [UInt64.toNat_ofNat']
    show (m + (q + 1074).toNat * 2 ^ 52) % 2 ^ 64 = _
    omega
  exact ⟨hbits, by omega⟩

theorem ext_toNat {x y : Decimal} (h : x.bits.toNat = y.bits.toNat) : x = y := by
  obtain ⟨bits⟩ := x
  obtain ⟨bits'⟩ := y
  exact congrArg Decimal.mk (UInt64.toNat_inj.1 h)

/-- A finite decimal is made of its sign, its places and its exponent. -/
theorem shape_eq (h : x.shape = .finite negative m q) :
    IsPlaces m q ∧ x = if negative then neg (ofPlaces m q) else ofPlaces m q := by
  have hbits := x.bits.toNat_lt
  have htwo : twoTo 52 = 2 ^ 52 ∧ twoTo 11 = 2 ^ 11 := ⟨rfl, rfl⟩
  have hsigned : x.isSigned = decide (2 ^ 63 ≤ x.bits.toNat) := rfl
  unfold shape at h
  simp only [htwo.1, htwo.2] at h
  obtain ⟨exponent, hexp⟩ : ∃ e, e = x.bits.toNat / 2 ^ 52 % 2 ^ 11 := ⟨_, rfl⟩
  obtain ⟨fraction, hfrac⟩ : ∃ f, f = x.bits.toNat % 2 ^ 52 := ⟨_, rfl⟩
  rw [← hexp, ← hfrac] at h
  have hplaces : IsPlaces m q ∧ negative = x.isSigned ∧
      m + (q + 1074).toNat * 2 ^ 52 = exponent * 2 ^ 52 + fraction := by
    split at h
    · split at h <;> cases h
    · rename_i hmax
      rw [beq_iff_eq] at hmax
      split at h
      · rename_i hzero
        rw [beq_iff_eq] at hzero
        cases h
        refine ⟨⟨by omega, .inl rfl, by omega, by omega⟩, rfl, ?_⟩
        rw [hzero, Nat.zero_mul, Nat.zero_add]
        exact Nat.add_zero _
      · rename_i hzero
        rw [beq_iff_eq] at hzero
        cases h
        have hexponent : ((exponent : ℤ) - 1075 + 1074).toNat = exponent - 1 := by omega
        refine ⟨⟨by omega, .inr (by omega), by omega, by omega⟩, rfl, ?_⟩
        rw [hexponent]
        omega
  obtain ⟨hplaces, rfl, hsum⟩ := hplaces
  obtain ⟨hnat, hlt⟩ := toNat_ofPlaces hplaces
  refine ⟨hplaces, ext_toNat ?_⟩
  rw [hsigned]
  by_cases hs : 2 ^ 63 ≤ x.bits.toNat
  · rw [if_pos (decide_eq_true hs), toNat_neg hlt, hnat]
    omega
  · rw [if_neg (by simpa using hs), hnat]
    omega

end Reactor.Decimal
