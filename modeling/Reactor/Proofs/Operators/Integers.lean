import Reactor.Proofs.Collections.Items
import Reactor.Proofs.Operators.Errors

/-!
# Arithmetic of integers

Integers are words of 64 bits. A result that no word holds becomes a decimal, so that no operator wraps around
and none fails.

* `Data.Finds` : an operator found the integer with a property, or there is none.
* `Number.finds_fit`, `Number.finds_quotient`, `Number.remainder_spec` : the operations on words.
* `Value.OnIntegers` : what the operators do with two integers.
* `Value.foldItems_integers` : a list of integers is folded without loss.
* `Value.integers_are_exact` : operators, sums and products of integers are exact.
-/

namespace Reactor

/-- The payload is the integer with the property, or a decimal if no word has it. -/
def Data.Finds (p : Int → Prop) : Data → Prop
  | .integer n => p n.toInt
  | .decimal _ => ∀ n : Int64, ¬p n.toInt
  | _ => False

/-- The computation leaves the state alone and returns a payload with the property. -/
def Eval.Leaves (act : Eval Value) (ctx : Context) (w : World) (P : Data → Prop) : Prop :=
  ∃ r, act ctx w = .value r w ∧ P r.data

/-! ## Words -/

namespace Number

variable {a b : Int64} {n : Int}

/-- The words hold the integers of 64 bits. -/
theorem bounds_toInt (a : Int64) : -int64Bound ≤ a.toInt ∧ a.toInt < int64Bound :=
  ⟨a.le_toInt, a.toInt_lt⟩

/-- An integer is given back as a word if one holds it. -/
theorem finds_fit (n : Int) (x : Decimal) : (fit n x).toData.Finds (· = n) := by
  unfold fit
  cases h : int64? n with
  | some m => exact toInt_of_int64? h
  | none =>
    intro m hm
    have hbounds := bounds_toInt m
    rw [hm] at hbounds
    rw [int64?, if_pos hbounds] at h
    cases h

/-- A quotient that is exact is given back as a word if one holds it. -/
theorem finds_quotient (hb : b.toInt ≠ 0) : (quotient a b).toData.Finds (· * b.toInt = a.toInt) := by
  unfold quotient
  split
  · rename_i hmod
    have hdvd : b.toInt ∣ a.toInt := Int.dvd_of_tmod_eq_zero hmod
    have hiff (q : Int) : q * b.toInt = a.toInt ↔ q = a.toInt.tdiv b.toInt := by
      constructor
      · intro h
        rw [← h, Int.mul_tdiv_cancel _ hb]
      · rintro rfl
        exact Int.tdiv_mul_cancel hdvd
    simp only [hiff]
    exact finds_fit _ _
  · rename_i hmod
    intro q hq
    rw [← hq] at hmod
    exact hmod (Int.mul_tmod_left _ _)

/-- A remainder has the sign of the dividend and is smaller than the divisor, so that a word holds it. -/
theorem remainder_spec (hb : b.toInt ≠ 0) :
    ∃ r : Int64, rem (int a) (int b) = int r ∧ r.toInt = a.toInt.tmod b.toInt ∧
      r.toInt.natAbs < b.toInt.natAbs ∧ 0 ≤ r.toInt * a.toInt := by
  have hzero : (int b).isZero = false := by
    rw [isZero, beq_eq_false_iff_ne]
    rintro rfl
    exact hb rfl
  have hlt : (a.toInt.tmod b.toInt).natAbs < b.toInt.natAbs := by
    rw [Int.natAbs_tmod]
    exact Nat.mod_lt _ (Int.natAbs_pos.2 hb)
  have hword : (Int64.ofInt (a.toInt.tmod b.toInt)).toInt = a.toInt.tmod b.toInt := by
    have hbounds := bounds_toInt b
    simp only [int64Bound] at hbounds
    refine Int64.toInt_ofInt_of_le ?_ ?_ <;> omega
  refine ⟨_, by rw [rem, hzero]; rfl, hword, by rw [hword]; exact hlt, ?_⟩
  rw [hword]
  rcases Int.le_total 0 a.toInt with ha | ha
  · exact Int.mul_nonneg (Int.tmod_nonneg _ ha) ha
  · have hneg : a.toInt.tmod b.toInt ≤ 0 := by
      have := Int.tmod_nonneg (a := -a.toInt) b.toInt (by omega)
      rw [Int.neg_tmod] at this
      omega
    exact Int.mul_nonneg_of_nonpos_of_nonpos hneg ha

end Number

namespace Value

open Eval

/-! ## Operators on two integers -/

section Operands

variable {x y : Value} {a b : Int64} {ctx : Context} {w : World}

theorem leaves_carry {act : Eval Value} {P : Data → Prop} {r : Value}
    (run : act ctx w = .value (carry r x y) w) (h : P r.data) : act.Leaves ctx w P :=
  ⟨_, run, by rw [data_carry]; exact h⟩

theorem plus_integers (hx : x.data = .integer a) (hy : y.data = .integer b) (h : 0 < ctx.budget) :
    x.plus y ctx w = .value (carry (plain (Number.add (.int a) (.int b)).toData) x y) w := by
  obtain ⟨depth, hdepth⟩ : ∃ n, ctx.budget = n + 1 := ⟨ctx.budget - 1, by omega⟩
  obtain ⟨data, notes⟩ := x
  obtain ⟨data', notes'⟩ := y
  obtain rfl : data = .integer a := hx
  obtain rfl : data' = .integer b := hy
  rw [plus, Eval.bind_apply, budget_apply, hdepth]
  rfl

theorem minus_integers (hx : x.data = .integer a) (hy : y.data = .integer b) (h : 0 < ctx.budget) :
    x.minus y ctx w = .value (carry (plain (Number.sub (.int a) (.int b)).toData) x y) w := by
  obtain ⟨depth, hdepth⟩ : ∃ n, ctx.budget = n + 1 := ⟨ctx.budget - 1, by omega⟩
  obtain ⟨data, notes⟩ := x
  obtain ⟨data', notes'⟩ := y
  obtain rfl : data = .integer a := hx
  obtain rfl : data' = .integer b := hy
  rw [minus, Eval.bind_apply, budget_apply, hdepth]
  rfl

/-- The other operators only look at the payloads. -/
theorem strict_integers {f : Data → Data → Except Error Value} {r : Value} (hx : x.data = .integer a)
    (hy : y.data = .integer b) (hf : f (.integer a) (.integer b) = .ok r) :
    strict f x y ctx w = .value (carry r x y) w := by
  obtain ⟨data, notes⟩ := x
  obtain ⟨data', notes'⟩ := y
  obtain rfl : data = .integer a := hx
  obtain rfl : data' = .integer b := hy
  have hresult : (ofExcept (f (.integer a) (.integer b)) : Eval Value) = pure r := by rw [hf]; rfl
  change (ofExcept (f (.integer a) (.integer b)) >>= fun r => pure (carry r _ _)) ctx w = _
  rw [hresult]
  rfl

theorem negate_integer (hx : x.data = .integer a) :
    x.negate ctx w = .value (carry (plain (Number.neg (.int a)).toData) x .void) w := by
  obtain ⟨data, notes⟩ := x
  obtain rfl : data = .integer a := hx
  rfl

theorem abs_integer (hx : x.data = .integer a) :
    x.abs ctx w = if a < 0 then x.negate ctx w else .value x w := by
  obtain ⟨data, notes⟩ := x
  obtain rfl : data = .integer a := hx
  change (if decide (a < 0) = true then _ else _ : Eval Value) ctx w = _
  by_cases h : a < 0
  · rw [if_pos h, if_pos (decide_eq_true h)]
  · rw [if_neg h, if_neg (by simpa using h)]
    rfl

/-- What the operators do with two integers: they return the mathematical result as an integer if a word holds
it, and otherwise a decimal. A quotient is an integer only if it is exact, and division by zero gives an
infinity. -/
structure OnIntegers (x y : Value) (a b : Int64) (ctx : Context) (w : World) : Prop where
  plus : (x.plus y).Leaves ctx w (Data.Finds (· = a.toInt + b.toInt))
  minus : (x.minus y).Leaves ctx w (Data.Finds (· = a.toInt - b.toInt))
  multiply : (x.multiply y).Leaves ctx w (Data.Finds (· = a.toInt * b.toInt))
  negate : x.negate.Leaves ctx w (Data.Finds (· = -a.toInt))
  abs : x.abs.Leaves ctx w (Data.Finds (· = (a.toInt.natAbs : Int)))
  divide : b ≠ 0 → (x.divide y).Leaves ctx w (Data.Finds (· * b.toInt = a.toInt))
  modulus : b ≠ 0 → (x.modulus y).Leaves ctx w fun r => ∃ n : Int64, r = .integer n ∧
    n.toInt = a.toInt.tmod b.toInt ∧ n.toInt.natAbs < b.toInt.natAbs ∧ 0 ≤ n.toInt * a.toInt
  divideZero : b = 0 → (x.divide y).Leaves ctx w (· = .infinity (decide (0 ≤ a.toInt)))
  modulusZero : b = 0 → (x.modulus y).Leaves ctx w (· = .infinity (decide (0 ≤ a.toInt)))

theorem not_isNegative_int (a : Int64) : (!(Number.int a).isNegative) = decide (0 ≤ a.toInt) := by
  change (!decide (a < 0)) = _
  rw [← decide_not, decide_eq_decide, Int64.lt_iff_toInt_lt, Int64.toInt_zero, Int.not_lt]

theorem toInt_ne_zero (hb : b ≠ 0) : b.toInt ≠ 0 :=
  fun h => hb (Int64.toInt_inj.1 h)

theorem onIntegers (hx : x.data = .integer a) (hy : y.data = .integer b) (h : 0 < ctx.budget) :
    OnIntegers x y a b ctx w where
  plus := leaves_carry (plus_integers hx hy h) (by rw [Number.add_int]; exact Number.finds_fit _ _)
  minus := leaves_carry (minus_integers hx hy h) (by rw [Number.sub_int]; exact Number.finds_fit _ _)
  multiply := leaves_carry (strict_integers (f := multiplyData) hx hy rfl) (Number.finds_fit _ _)
  negate := leaves_carry (negate_integer hx) (Number.finds_fit _ _)
  abs := by
    by_cases ha : a < 0
    · have hlt : a.toInt < 0 := Int64.lt_iff_toInt_lt.1 ha
      rw [Int.ofNat_natAbs_of_nonpos (Int.le_of_lt hlt)]
      exact leaves_carry (by rw [abs_integer hx, if_pos ha, negate_integer hx]) (Number.finds_fit _ _)
    · have hle : 0 ≤ a.toInt := Int.not_lt.1 fun hlt => ha (Int64.lt_iff_toInt_lt.2 hlt)
      rw [Int.natAbs_of_nonneg hle]
      exact ⟨x, by rw [abs_integer hx, if_neg ha], by rw [hx]; exact rfl⟩
  divide hb := by
    refine leaves_carry (strict_integers (f := divideData) hx hy rfl) ?_
    rw [data_plain, Number.div, if_neg (by simpa [Number.isZero] using hb)]
    exact Number.finds_quotient (toInt_ne_zero hb)
  modulus hb := by
    obtain ⟨n, hn, hspec⟩ := Number.remainder_spec (a := a) (toInt_ne_zero hb)
    refine leaves_carry (strict_integers (f := numeric "%" Number.rem) hx hy rfl) ⟨n, ?_, hspec⟩
    rw [data_plain, hn]
    rfl
  divideZero hb := by
    subst hb
    refine leaves_carry (strict_integers (f := divideData) hx hy rfl) ?_
    rw [← not_isNegative_int]
    rfl
  modulusZero hb := by
    subst hb
    refine leaves_carry (strict_integers (f := numeric "%" Number.rem) hx hy rfl) ?_
    rw [← not_isNegative_int]
    rfl

end Operands

/-! ## Folds -/

/-- A result that a word holds is the integer. -/
theorem eq_integer_of_finds {p : Int → Prop} {r : Data} {c : Int64} (h : r.Finds p)
    (hc : p c.toInt) (hp : ∀ m n, p m → p n → m = n) : r = .integer c := by
  cases r with
  | integer n => rw [Int64.toInt_inj.1 (hp _ _ h hc)]
  | decimal x => exact (h c hc).elim
  | _ => exact h.elim

section Folds

variable {f : Value → Value → Eval Value} {g : Int → Int → Int} (total : List Int → Int)

/-- The operator gives the result of two integers if a word holds it. -/
def Computes (f : Value → Value → Eval Value) (g : Int → Int → Int) : Prop :=
  ∀ {x y : Value} {a b : Int64} {ctx : Context} {w : World}, x.data = .integer a → y.data = .integer b →
    0 < ctx.budget → (f x y).Leaves ctx w (Data.Finds (· = g a.toInt b.toInt))

/-- A list of integers is folded without loss if a word holds the total of each prefix. The total of a list is
the one of the list whose first two elements are put together. -/
theorem inTurn_integers (hf : Computes f g) (hone : ∀ m, total [m] = m)
    (hcons : ∀ m n rest, total (m :: n :: rest) = total (g m n :: rest)) {first : Value}
    {items : List Value} {m : Int64} {ints : List Int64} {ctx : Context} {w : World}
    (hbudget : 0 < ctx.budget) (hfirst : first.data = .integer m)
    (hitems : items.map data = ints.map .integer)
    (hfits : ∀ pre, pre <+: ints → ∃ c : Int64, c.toInt = total (m.toInt :: pre.map Int64.toInt)) :
    (Eval.inTurn places places f first items).Leaves ctx w fun r =>
      ∃ c : Int64, r = .integer c ∧ c.toInt = total (m.toInt :: ints.map Int64.toInt) := by
  induction items generalizing first m ints with
  | nil =>
    cases ints with
    | nil => exact ⟨first, rfl, m, hfirst, (hone _).symm⟩
    | cons n ints => cases hitems
  | cons item items ih =>
    cases ints with
    | nil => cases hitems
    | cons n ints =>
      obtain ⟨hitem, hrest⟩ := List.cons_eq_cons.1 hitems
      obtain ⟨c, hc⟩ := hfits [n] (List.prefix_append [n] ints)
      rw [List.map_cons, List.map_nil, hcons, hone] at hc
      let held := first.places ++ (item.places ++ items.flatMap places)
      obtain ⟨r, run, hr⟩ : (f first item).Leaves
          { ctx with thread := { ctx.thread with held := held ++ ctx.thread.held } } w
          (Data.Finds (· = g m.toInt n.toInt)) := hf hfirst hitem hbudget
      have hdata : r.data = .integer c := eq_integer_of_finds hr hc fun _ _ h h' => h.trans h'.symm
      have hfits' : ∀ pre, pre <+: ints →
          ∃ c' : Int64, c'.toInt = total (c.toInt :: pre.map Int64.toInt) := by
        intro pre hpre
        obtain ⟨c', hc'⟩ := hfits (n :: pre) (List.cons_prefix_cons.2 ⟨rfl, hpre⟩)
        rw [List.map_cons, hcons, ← hc] at hc'
        exact ⟨c', hc'⟩
      obtain ⟨s, runs, d, hs, hd⟩ := ih hdata hrest hfits'
      refine ⟨s, ?_, d, hs, ?_⟩
      · rw [inTurn_cons, Eval.bind_apply, holding_apply, run]
        exact runs
      · rw [hd, List.map_cons, hcons, hc]

/-- The same of a list whose elements are folded from the first one on, if there is one. -/
theorem foldItems_integers (hf : Computes f g) (hone : ∀ m, total [m] = m)
    (hcons : ∀ m n rest, total (m :: n :: rest) = total (g m n :: rest)) {unit : Int64}
    (hnil : total [] = unit.toInt) {items : List Value} {ints : List Int64} {ctx : Context} {w : World}
    (hbudget : 0 < ctx.budget) (hitems : items.map data = ints.map .integer)
    (hfits : ∀ pre, pre <+: ints → ∃ c : Int64, c.toInt = total (pre.map Int64.toInt)) :
    (foldItems f (.integer unit) items).Leaves ctx w fun r =>
      ∃ c : Int64, r = .integer c ∧ c.toInt = total (ints.map Int64.toInt) := by
  cases items with
  | nil =>
    cases ints with
    | nil => exact ⟨_, rfl, unit, rfl, hnil.symm⟩
    | cons n ints => cases hitems
  | cons first items =>
    cases ints with
    | nil => cases hitems
    | cons m ints =>
      obtain ⟨hfirst, hrest⟩ := List.cons_eq_cons.1 hitems
      exact inTurn_integers total hf hone hcons hbudget hfirst hrest fun pre hpre =>
        hfits (m :: pre) (List.cons_prefix_cons.2 ⟨rfl, hpre⟩)

end Folds

/-- **Arithmetic of integers.** No operator on integers wraps around or fails: the result is the mathematical
one if a word of 64 bits holds it, else a decimal. So the sum and the product of a list of integers are exact if
words hold those of each prefix. -/
theorem integers_are_exact {ctx : Context} (h : 0 < ctx.budget) (w : World) :
    (∀ (x y : Value) (a b : Int64), x.data = .integer a → y.data = .integer b →
      OnIntegers x y a b ctx w) ∧
    ∀ (v : Value) (items : List Value) (ints : List Int64), items? v.data = some items →
      items.map data = ints.map .integer →
      ((∀ pre, pre <+: ints → ∃ c : Int64, c.toInt = (pre.map Int64.toInt).foldl (· + ·) 0) →
        v.sum.Leaves ctx w fun r =>
          ∃ c : Int64, r = .integer c ∧ c.toInt = (ints.map Int64.toInt).foldl (· + ·) 0) ∧
      ((∀ pre, pre <+: ints → ∃ c : Int64, c.toInt = (pre.map Int64.toInt).foldl (· * ·) 1) →
        v.product.Leaves ctx w fun r =>
          ∃ c : Int64, r = .integer c ∧ c.toInt = (ints.map Int64.toInt).foldl (· * ·) 1) := by
  refine ⟨fun x y a b hx hy => onIntegers hx hy h, fun v items ints hv hitems => ⟨?_, ?_⟩⟩
  · intro hfits
    obtain ⟨r, run, hr⟩ := foldItems_integers (List.foldl (· + ·) 0) (w := w)
      (fun hx hy h => (onIntegers hx hy h).plus) Int.zero_add (fun m n rest => by simp)
      Int64.toInt_zero.symm h hitems hfits
    exact ⟨r, by rw [sum, Eval.bind_apply, toList_of_items? hv]; exact run, hr⟩
  · intro hfits
    obtain ⟨r, run, hr⟩ := foldItems_integers (List.foldl (· * ·) 1) (w := w)
      (fun hx hy h => (onIntegers hx hy h).multiply) Int.one_mul (fun m n rest => by simp)
      Int64.toInt_one.symm h hitems hfits
    exact ⟨r, by rw [product, Eval.bind_apply, toList_of_items? hv]; exact run, hr⟩

/-- The least word divided by minus one does not fit, and leaves no remainder. -/
theorem least_by_minus_one :
    let ctx := Context.ofBudget 1 default
    (∃ r, (integer Int64.minValue).divide (integer (-1)) ctx {} = .value r {} ∧ r.tag = .decimal) ∧
      ∃ r, (integer Int64.minValue).modulus (integer (-1)) ctx {} = .value r {} ∧ r.data = .integer 0 := by
  intro ctx
  obtain ⟨ops, -⟩ := integers_are_exact (show 0 < ctx.budget from Nat.one_pos) {}
  have on := ops (integer Int64.minValue) (integer (-1)) _ _ rfl rfl
  obtain ⟨r, hr, hdiv⟩ := on.divide (by decide)
  obtain ⟨s, hs, n, hn, hmod, -⟩ := on.modulus (by decide)
  refine ⟨⟨r, hr, ?_⟩, s, hs, ?_⟩
  · cases hdata : r.data with
    | integer q =>
      rw [hdata] at hdiv
      have hq : q.toInt * (-1 : Int64).toInt = Int64.minValue.toInt := hdiv
      have hlt := q.toInt_lt
      have hmin : Int64.minValue.toInt = -9223372036854775808 := rfl
      have hone : (-1 : Int64).toInt = -1 := rfl
      rw [hmin, hone] at hq
      omega
    | decimal x => rw [tag, hdata]; rfl
    | _ =>
      rw [hdata] at hdiv
      exact hdiv.elim
  · have hzero : n.toInt = 0 := hmod
    rw [hn, Int64.toInt_inj.1 (hzero.trans Int64.toInt_zero.symm)]

end Value

end Reactor
