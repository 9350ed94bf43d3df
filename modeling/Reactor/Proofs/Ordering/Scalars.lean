import Reactor.Proofs.Decimals.Texts
import Reactor.Value.Order

/-!
# Equality and order of payloads

Equality and order of payloads that are not compared by their parts. Both are the same from either side, up
to the reversal of the order. Payloads that are equal and can be compared are equal in the order as well,
but for one pair of numbers: the zeros with different signs are equal, and the negative one comes first
(`Number.OppositeZeros`).

* `Value.equalLeaves_comm`, `Value.compareLeaves_swap` : the other side.
* `Value.compareLeaves_eq_iff` : when equal payloads are equal in the order.
-/

namespace Reactor

namespace Decimal

variable {x y : Decimal}

/-- Zero is one of two decimals. -/
theorem eq_of_isZero (h : x.isZero = true) : x = if x.isSigned then neg zero else zero := by
  unfold isZero at h
  split at h
  · rename_i negative q hshape
    obtain ⟨hplaces, hx⟩ := shape_eq hshape
    obtain rfl : q = -1074 := hplaces.normal.resolve_right (by decide)
    have hzero : ofPlaces 0 (-1074) = zero := rfl
    rw [hzero] at hx
    subst hx
    cases negative <;> rfl
  · cases h

/-- Equal decimals have one place in the total order, unless they are zeros with different signs. -/
theorem totalKey_eq_iff_of_equals (h : x.equals y = true) :
    x.totalKey = y.totalKey ↔ ¬(x.isZero = true ∧ y.isZero = true ∧ x.isSigned ≠ y.isSigned) := by
  unfold equals at h
  simp only [Bool.and_eq_true, Bool.or_eq_true, beq_iff_eq] at h
  rcases h.2 with rfl | ⟨hx, hy⟩
  · simp
  · have hkeys : (neg zero).totalKey ≠ zero.totalKey := by decide
    constructor
    · rintro hkey ⟨-, -, hsign⟩
      rw [eq_of_isZero hx, eq_of_isZero hy] at hkey
      cases hsx : x.isSigned with
      | true =>
        cases hsy : y.isSigned with
        | true => exact hsign (hsx.trans hsy.symm)
        | false =>
          rw [hsx, hsy] at hkey
          exact hkeys hkey
      | false =>
        cases hsy : y.isSigned with
        | true =>
          rw [hsx, hsy] at hkey
          exact hkeys hkey.symm
        | false => exact hsign (hsx.trans hsy.symm)
    · intro hsame
      have hsign : x.isSigned = y.isSigned := by
        by_contra hne
        exact hsame ⟨hx, hy, hne⟩
      rw [eq_of_isZero hx, eq_of_isZero hy, hsign]

end Decimal

namespace Number

variable {m n : Number}

/-- The numbers are the zeros with different signs. An integer has the sign of the decimal that it is rounded
to. -/
def OppositeZeros (m n : Number) : Prop :=
  m.toDecimal.isZero = true ∧ n.toDecimal.isZero = true ∧ m.toDecimal.isSigned ≠ n.toDecimal.isSigned

theorem not_oppositeZeros_self (n : Number) : ¬n.OppositeZeros n :=
  fun h => h.2.2 rfl

theorem compare_self (n : Number) : n.compare n = .eq := by
  cases n with
  | int n => exact Int.compare_eq_eq.2 rfl
  | dec x => exact Int.compare_eq_eq.2 rfl
  | inf p => exact Nat.compare_eq_eq.2 rfl

theorem equals_comm (m n : Number) : m.equals n = n.equals m := by
  have hdecimals (x y : Decimal) : x.equals y = y.equals x := by
    unfold Decimal.equals
    rw [Bool.and_comm (!x.isNotANumber), Bool.and_comm x.isZero, Bool.beq_comm (a := x)]
  cases m with
  | int m =>
    cases n with
    | int n => exact Bool.beq_comm
    | dec y => exact hdecimals _ _
    | inf q => rfl
  | dec x =>
    cases n with
    | int n => exact hdecimals _ _
    | dec y => exact hdecimals _ _
    | inf q => rfl
  | inf p =>
    cases n with
    | int n => rfl
    | dec y => rfl
    | inf q => exact Bool.beq_comm

theorem compare_swap (m n : Number) : (m.compare n).swap = n.compare m := by
  have hinf (p : Bool) : (if p then Ordering.gt else .lt).swap = if p then .lt else .gt := by
    cases p <;> rfl
  have hinf' (p : Bool) : (if p then Ordering.lt else .gt).swap = if p then .gt else .lt := by
    cases p <;> rfl
  cases m with
  | int m =>
    cases n with
    | int n => exact Int.compare_swap _ _
    | dec y => exact Int.compare_swap _ _
    | inf q => exact hinf' q
  | dec x =>
    cases n with
    | int n => exact Int.compare_swap _ _
    | dec y => exact Int.compare_swap _ _
    | inf q => exact hinf' q
  | inf p =>
    cases n with
    | int n => exact hinf p
    | dec y => exact hinf p
    | inf q => exact Nat.compare_swap _ _

/-- Equal numbers are equal in the order, unless they are zeros with different signs. -/
theorem compare_eq_iff_of_equals (h : m.equals n = true) : m.compare n = .eq ↔ ¬m.OppositeZeros n := by
  have hdecimals (h : m.toDecimal.equals n.toDecimal = true) :
      Ord.compare m.toDecimal.totalKey n.toDecimal.totalKey = .eq ↔ ¬m.OppositeZeros n := by
    rw [Int.compare_eq_eq]
    exact Decimal.totalKey_eq_iff_of_equals h
  have hself (h : m = n) : m.compare n = .eq ↔ ¬m.OppositeZeros n := by
    subst h
    exact iff_of_true (compare_self m) (not_oppositeZeros_self m)
  cases m with
  | int m =>
    cases n with
    | int n => exact hself (congrArg int (eq_of_beq h))
    | dec y => exact hdecimals h
    | inf q => cases h
  | dec x =>
    cases n with
    | int n => exact hdecimals h
    | dec y => exact hdecimals h
    | inf q => cases h
  | inf p =>
    cases n with
    | int n => cases h
    | dec y => cases h
    | inf q => exact hself (congrArg inf (eq_of_beq h))

/-- No text is read as an infinity. -/
theorem parse?_ne_inf (s : String) (p : Bool) : parse? s ≠ some (inf p) := by
  unfold parse?
  dsimp only
  split
  · exact nofun
  · split
    · split <;> exact nofun
    · exact nofun

/-- The text of a number is read as a number that is equal in the order. -/
theorem compare_of_parse?_plainText {data : Data} (hm : of? data = some m)
    (hn : parse? data.plainText = some n) : m.compare n = .eq := by
  cases data with
  | integer k =>
    cases hm
    rw [show (Data.integer k).plainText = toString k.toInt from rfl, parse?_toString] at hn
    cases hn
    exact compare_self _
  | decimal x =>
    cases hm
    have hx : n.toDecimal = x := Decimal.toDecimal_of_parse?_human hn
    subst hx
    cases n with
    | int k => exact Int.compare_eq_eq.2 rfl
    | dec y => exact Int.compare_eq_eq.2 rfl
    | inf p => exact absurd hn (parse?_ne_inf _ p)
  | infinity p =>
    have hnone : parse? (Data.infinityText p) = none := by cases p <;> decide
    cases hnone.symm.trans hn
  | _ => cases hm

end Number

namespace Value

variable {a b : Data} {o : Ordering}

/-! ## Scalars -/

/-- Equality of numbers and of texts. -/
def equalScalars (a b : Data) : Bool :=
  match Number.of? a, Number.of? b with
  | some m, some n => m.equals n
  | _, _ => a.isScalar && b.isScalar && a.plainText == b.plainText

/-- The order of numbers, also in texts, and of texts. -/
def compareScalars (a b : Data) : Except Error Ordering :=
  match Number.coerce? a, Number.coerce? b with
  | some m, some n => .ok (m.compare n)
  | _, _ =>
    if a.isScalar && b.isScalar then .ok (compareText a.plainText b.plainText)
    else .error (.invalidOperands "compare" a.type b.type)

theorem equalScalars_comm (a b : Data) : equalScalars a b = equalScalars b a := by
  have htexts : (a.isScalar && b.isScalar && a.plainText == b.plainText) =
      (b.isScalar && a.isScalar && b.plainText == a.plainText) := by
    rw [Bool.and_comm a.isScalar, Bool.beq_comm]
  unfold equalScalars
  cases Number.of? a with
  | none => cases Number.of? b <;> exact htexts
  | some m =>
    cases Number.of? b with
    | none => exact htexts
    | some n => exact Number.equals_comm m n

theorem compareText_self (s : String) : compareText s s = .eq := by
  unfold compareText
  rw [if_neg (String.lt_irrefl s), if_pos rfl]

theorem compareText_swap (s t : String) : (compareText s t).swap = compareText t s := by
  by_cases heq : s = t
  · subst heq
    rw [compareText_self]
    rfl
  unfold compareText
  rw [if_neg heq, if_neg (Ne.symm heq)]
  by_cases hst : s < t
  · rw [if_pos hst, if_neg (String.lt_asymm hst)]
    rfl
  · have hts : t < s := by
      rw [← String.not_le]
      exact fun hle => heq (String.le_antisymm hle (String.not_lt.1 hst))
    rw [if_neg hst, if_pos hts]
    rfl

/-- Scalars are compared as numbers if both show one, else as texts. -/
theorem compareScalars_eq_ok_iff : compareScalars a b = .ok o ↔
    (∃ m n, Number.coerce? a = some m ∧ Number.coerce? b = some n ∧ m.compare n = o) ∨
      ((Number.coerce? a = none ∨ Number.coerce? b = none) ∧ (a.isScalar = true ∧ b.isScalar = true) ∧
        compareText a.plainText b.plainText = o) := by
  have htexts : (if a.isScalar && b.isScalar then .ok (compareText a.plainText b.plainText)
      else .error (.invalidOperands "compare" a.type b.type) : Except Error Ordering) = .ok o ↔
      (a.isScalar = true ∧ b.isScalar = true) ∧ compareText a.plainText b.plainText = o := by
    rw [← Bool.and_eq_true]
    split
    · rename_i hscalar
      rw [Except.ok.injEq, and_iff_right hscalar]
    · rename_i hscalar
      exact iff_of_false nofun fun h => hscalar h.1
  unfold compareScalars
  cases Number.coerce? a with
  | none => simpa using htexts
  | some m =>
    cases Number.coerce? b with
    | none => simpa using htexts
    | some n => simp

theorem compareScalars_swap (h : compareScalars a b = .ok o) : compareScalars b a = .ok o.swap := by
  rw [compareScalars_eq_ok_iff] at h ⊢
  rcases h with ⟨m, n, hm, hn, rfl⟩ | ⟨hnone, hscalar, rfl⟩
  · exact .inl ⟨n, m, hn, hm, (Number.compare_swap m n).symm⟩
  · exact .inr ⟨hnone.symm, hscalar.symm, (compareText_swap _ _).symm⟩

/-- Equal scalars that are not both numbers have one text. -/
theorem plainText_eq_of_equalScalars (h : equalScalars a b = true)
    (hnumber : Number.of? a = none ∨ Number.of? b = none) :
    (a.isScalar = true ∧ b.isScalar = true) ∧ a.plainText = b.plainText := by
  have htexts : (a.isScalar && b.isScalar && a.plainText == b.plainText) = true := by
    unfold equalScalars at h
    rcases hnumber with hn | hn
    · rw [hn] at h
      exact h
    · rw [hn] at h
      cases hm : Number.of? a with
      | none =>
        rw [hm] at h
        exact h
      | some m =>
        rw [hm] at h
        exact h
  simpa only [Bool.and_eq_true, beq_iff_eq] using htexts

/-- A number that a payload shows is one that it is or that its text is read as. -/
theorem of?_or_parse?_of_coerce? {n : Number} (h : Number.coerce? a = some n) :
    Number.of? a = some n ∨ ∃ s, a = .string s ∧ Number.parse? s = some n := by
  cases a with
  | string s => exact .inr ⟨s, rfl, h⟩
  | _ => exact .inl h

/-- Payloads with one text are equal in the order, unless both are numbers. -/
theorem compareScalars_of_plainText_eq (htext : a.plainText = b.plainText)
    (hnumber : Number.of? a = none ∨ Number.of? b = none) (h : compareScalars a b = .ok o) : o = .eq := by
  rcases compareScalars_eq_ok_iff.1 h with ⟨m, n, hm, hn, rfl⟩ | ⟨-, -, rfl⟩
  · rcases of?_or_parse?_of_coerce? hm with hm | ⟨s, rfl, hm⟩
    · rcases of?_or_parse?_of_coerce? hn with hn | ⟨t, rfl, hn⟩
      · rw [hm, hn] at hnumber
        rcases hnumber with h | h <;> cases h
      · have hparse : Number.parse? a.plainText = some n := by
          rw [htext]
          exact hn
        exact Number.compare_of_parse?_plainText hm hparse
    · have hparse : Number.parse? b.plainText = some m := by
        rw [← htext]
        exact hm
      rcases of?_or_parse?_of_coerce? hn with hn | ⟨t, rfl, hn⟩
      · rw [← Number.compare_swap, Number.compare_of_parse?_plainText hn hparse]
        rfl
      · obtain rfl := Option.some.inj (hn.symm.trans hparse)
        exact Number.compare_self n
  · rw [htext]
    exact compareText_self _

/-! ## Payloads -/

/-- The types with a rule of their own for equality. -/
def hasOwnEquality : ValueType → Bool
  | .void | .null | .error | .boolean | .date | .uri => true
  | _ => false

/-- All other pairs are equal as scalars are. -/
theorem equalLeaves_eq_equalScalars (h : a.type = b.type → hasOwnEquality a.type = false) :
    equalLeaves a b = equalScalars a b := by
  have hleft (ha : a.isScalar = false) (hnumber : Number.of? a = none) : equalScalars a b = false := by
    unfold equalScalars
    rw [hnumber, ha]
    rfl
  have hright (hb : b.isScalar = false) (hnumber : Number.of? b = none) : equalScalars a b = false := by
    rw [equalScalars_comm]
    unfold equalScalars
    rw [hnumber, hb]
    rfl
  unfold equalLeaves
  split
  case h_1 => cases h rfl
  case h_2 => rw [hleft rfl rfl]
  case h_3 => rw [hright rfl rfl]
  case h_4 => cases h rfl
  case h_5 => rw [hleft rfl rfl]
  case h_6 => rw [hright rfl rfl]
  case h_7 => cases h rfl
  case h_8 => rw [hleft rfl rfl]
  case h_9 => rw [hright rfl rfl]
  case h_10 => cases h rfl
  case h_11 => cases h rfl
  case h_12 => cases h rfl
  case h_13 => rfl

theorem equalLeaves_comm (a b : Data) : equalLeaves a b = equalLeaves b a := by
  by_cases hown : a.type = b.type → hasOwnEquality a.type = false
  · have hown' : b.type = a.type → hasOwnEquality b.type = false := fun h => by
      rw [h]
      exact hown h.symm
    rw [equalLeaves_eq_equalScalars hown, equalLeaves_eq_equalScalars hown', equalScalars_comm]
  · rw [Classical.not_imp] at hown
    obtain ⟨htype, hown⟩ := hown
    cases a with
    | void =>
      cases b with
      | void => rfl
      | _ => cases htype
    | null x =>
      cases b with
      | null y => exact decide_eq_decide.2 eq_comm
      | _ => cases htype
    | boolean x =>
      cases b with
      | boolean y => exact Bool.beq_comm
      | _ => cases htype
    | date x =>
      cases b with
      | date y => exact Bool.beq_comm
      | _ => cases htype
    | uri x =>
      cases b with
      | uri y => exact Bool.beq_comm
      | _ => cases htype
    | error x =>
      cases b with
      | error y => exact decide_eq_decide.2 (and_congr eq_comm eq_comm)
      | _ => cases htype
    | _ => exact absurd rfl hown

/-- The payloads that are not void and not null, and not both dates, are ordered as scalars are. -/
theorem compareLeaves_eq_compareScalars (hva : a = .void → False) (hna : ∀ of, a = .null of → False)
    (hvb : b = .void → False) (hnb : ∀ of, b = .null of → False)
    (hdates : ∀ x y, a = .date x → b = .date y → False) : compareLeaves a b = compareScalars a b := by
  unfold compareLeaves
  split
  case h_1 => exact (hva rfl).elim
  case h_2 => exact (hna _ rfl).elim
  case h_3 => exact (hva rfl).elim
  case h_4 => exact (hvb rfl).elim
  case h_5 => exact (hna _ rfl).elim
  case h_6 => exact (hnb _ rfl).elim
  case h_7 x y => cases x <;> cases y <;> rfl
  case h_8 => exact (hdates _ _ rfl rfl).elim
  case h_9 x y =>
    have hread (s : String) : Number.coerce? (.string s) = Number.parse? s := rfl
    unfold compareScalars
    rw [hread, hread]
    cases Number.parse? x with
    | none => rfl
    | some m => cases Number.parse? y <;> rfl
  case h_10 => rfl

/-- The order from the other side is reversed. -/
theorem compareLeaves_swap (h : compareLeaves a b = .ok o) : compareLeaves b a = .ok o.swap := by
  have hscalars (hva : a = .void → False) (hna : ∀ of, a = .null of → False) (hvb : b = .void → False)
      (hnb : ∀ of, b = .null of → False) (hdates : ∀ x y, a = .date x → b = .date y → False) :
      compareLeaves b a = .ok o.swap := by
    rw [compareLeaves_eq_compareScalars hva hna hvb hnb hdates] at h
    rw [compareLeaves_eq_compareScalars hvb hnb hva hna fun x y hx hy => hdates y x hy hx]
    exact compareScalars_swap h
  unfold compareLeaves at h
  split at h
  case h_1 =>
    cases h
    rfl
  case h_2 =>
    cases h
    rfl
  case h_3 hvb =>
    cases h
    cases b <;> first | rfl | exact (hvb rfl).elim
  case h_4 hva =>
    cases h
    cases a <;> first | rfl | exact (hva rfl).elim
  case h_5 hnb hvb =>
    cases h
    cases b <;> first | rfl | exact (hvb rfl).elim | exact (hnb _ rfl).elim
  case h_6 hna hva =>
    cases h
    cases a <;> first | rfl | exact (hva rfl).elim | exact (hna _ rfl).elim
  case h_7 x y => exact hscalars nofun nofun nofun nofun nofun
  case h_8 x y =>
    cases h
    exact congrArg Except.ok (Int.compare_swap x.toInt y.toInt).symm
  case h_9 => exact hscalars nofun nofun nofun nofun nofun
  case h_10 hva hna hvb hnb _ _ _ hdates _ => exact hscalars hva hna hvb hnb hdates

theorem isScalar_of_number {n : Number} (h : Number.of? a = some n) :
    a.isScalar = true ∧ Number.coerce? a = some n := by
  cases a with
  | integer k => exact ⟨rfl, h⟩
  | decimal x => exact ⟨rfl, h⟩
  | infinity p => exact ⟨rfl, h⟩
  | _ => cases h

theorem compareLeaves_of_isScalar (ha : a.isScalar = true) (hb : b.isScalar = true)
    (hdates : ∀ x y, a = .date x → b = .date y → False) : compareLeaves a b = compareScalars a b := by
  refine compareLeaves_eq_compareScalars ?_ ?_ ?_ ?_ hdates
  · rintro rfl
    cases ha
  · rintro of rfl
    cases ha
  · rintro rfl
    cases hb
  · rintro of rfl
    cases hb

/-- Equal scalars that are not both dates. -/
theorem compareLeaves_eq_iff_of_scalars (hequal : equalScalars a b = true)
    (hdates : ∀ x y, a = .date x → b = .date y → False) (h : compareLeaves a b = .ok o) :
    o = .eq ↔ ∀ m n, Number.of? a = some m → Number.of? b = some n → ¬m.OppositeZeros n := by
  by_cases hnumber : Number.of? a = none ∨ Number.of? b = none
  · obtain ⟨⟨ha, hb⟩, htext⟩ := plainText_eq_of_equalScalars hequal hnumber
    rw [compareLeaves_of_isScalar ha hb hdates] at h
    refine iff_of_true (compareScalars_of_plainText_eq htext hnumber h) fun m n hm hn => ?_
    rw [hm, hn] at hnumber
    rcases hnumber with hnone | hnone <;> cases hnone
  · rw [not_or] at hnumber
    obtain ⟨m, hm⟩ := Option.ne_none_iff_exists'.1 hnumber.1
    obtain ⟨n, hn⟩ := Option.ne_none_iff_exists'.1 hnumber.2
    obtain ⟨ha, hcoerce⟩ := isScalar_of_number hm
    obtain ⟨hb, hcoerce'⟩ := isScalar_of_number hn
    have hnumbers : m.equals n = true := by
      unfold equalScalars at hequal
      rwa [hm, hn] at hequal
    obtain rfl : m.compare n = o := by
      rw [compareLeaves_of_isScalar ha hb hdates, compareScalars_eq_ok_iff, hcoerce, hcoerce'] at h
      simpa using h
    rw [Number.compare_eq_iff_of_equals hnumbers]
    constructor
    · intro hzeros m' n' hm' hn'
      cases hm.symm.trans hm'
      cases hn.symm.trans hn'
      exact hzeros
    · exact fun hall => hall m n hm hn

/-- Equal payloads of a type with its own rule. None of them is a number. -/
theorem compareLeaves_eq_of_own (htype : a.type = b.type) (hown : hasOwnEquality a.type = true)
    (hequal : equalLeaves a b = true) (h : compareLeaves a b = .ok o) : o = .eq ∧ Number.of? a = none := by
  cases a with
  | void =>
    cases b with
    | void =>
      cases h
      exact ⟨rfl, rfl⟩
    | _ => cases htype
  | null x =>
    cases b with
    | null y =>
      cases h
      exact ⟨rfl, rfl⟩
    | _ => cases htype
  | boolean x =>
    cases b with
    | boolean y =>
      cases h
      obtain rfl : x = y := eq_of_beq hequal
      exact ⟨Nat.compare_eq_eq.2 rfl, rfl⟩
    | _ => cases htype
  | date x =>
    cases b with
    | date y =>
      cases h
      obtain rfl : x = y := eq_of_beq hequal
      exact ⟨Int.compare_eq_eq.2 rfl, rfl⟩
    | _ => cases htype
  | uri x =>
    cases b with
    | uri y =>
      cases h
      rw [show (Data.uri x).plainText = (Data.uri y).plainText from eq_of_beq hequal]
      exact ⟨compareText_self _, rfl⟩
    | _ => cases htype
  | error x =>
    cases b with
    | error y => cases h
    | _ => cases htype
  | _ => cases hown

/-- Equal payloads that can be compared are equal in the order, unless they are zeros with different
signs. -/
theorem compareLeaves_eq_iff (hequal : equalLeaves a b = true) (h : compareLeaves a b = .ok o) :
    o = .eq ↔ ∀ m n, Number.of? a = some m → Number.of? b = some n → ¬m.OppositeZeros n := by
  by_cases hown : a.type = b.type → hasOwnEquality a.type = false
  · rw [equalLeaves_eq_equalScalars hown] at hequal
    refine compareLeaves_eq_iff_of_scalars hequal ?_ h
    rintro x y rfl rfl
    cases hown rfl
  · rw [Classical.not_imp, Bool.not_eq_false] at hown
    obtain ⟨heq, hnone⟩ := compareLeaves_eq_of_own hown.1 hown.2 hequal h
    refine iff_of_true heq fun m n hm => ?_
    rw [hnone] at hm
    cases hm

end Value

end Reactor
