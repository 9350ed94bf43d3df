import Reactor.Proofs.Calendar.Words
import Reactor.Proofs.Ranges.Points

/-!
# Ranges of integers and of days

The elements of a range are as many steps apart from its start as their place says, and the last one is where
another step would go past the end. Lengths are natural numbers of 64 bits and elements integers of 64 bits. Here
both are worked out once more, operation by operation, and no operation leaves its type.

* `Value.stretch` : the numbers from one number to another one, in single steps.
* `Value.getElem_itemsOfEnds`, `Value.between_numberAt` : the item at a place, which is not behind the end.
* `Value.lengthInWords?`, `Value.numberInWords?` : length and elements, operation by operation.
* `Value.Spans.expand` : how a range of integers or of days is measured, expanded, searched and turned around.
-/

namespace Reactor.Value

open Calendar

variable {v x : Value} {kind : RangeKind} {k m n : Int} {ctx : Context} {w : World} {i : Nat}

/-! ## Elements -/

/-- The numbers from one number to another one, in single steps. -/
def stretch (m n : Int) : List Int :=
  (List.range ((n - m).natAbs + 1)).map fun (i : Nat) => m + (n - m).sign * i

@[simp] theorem length_stretch (m n : Int) : (stretch m n).length = (n - m).natAbs + 1 := by
  simp [stretch]

@[simp] theorem getElem_stretch {m n : Int} (hi : i < (stretch m n).length) :
    (stretch m n)[i] = m + (n - m).sign * i := by
  simp [stretch]

/-- Up to the distance, steps towards the other number do not go past it. -/
theorem between_of_le_distance {d : Int} (hd : 0 ≤ d) (hle : d ≤ (n - m).natAbs) :
    Between m n (m + (n - m).sign * d) := by
  unfold Between
  rcases Int.lt_trichotomy m n with hlt | rfl | hlt
  · rw [Int.sign_eq_one_of_pos (by omega)]
    omega
  · simp
  · rw [Int.sign_eq_neg_one_of_neg (by omega)]
    omega

theorem mem_stretch : k ∈ stretch m n ↔ Between m n k := by
  constructor
  · intro hk
    obtain ⟨i, hi, rfl⟩ := List.mem_iff_getElem.1 hk
    rw [length_stretch] at hi
    rw [getElem_stretch]
    exact between_of_le_distance (by omega) (by omega)
  · intro hk
    unfold Between at hk
    refine List.mem_iff_getElem.2 ⟨(k - m).natAbs, by rw [length_stretch]; omega, ?_⟩
    rw [getElem_stretch]
    rcases Int.lt_trichotomy m n with hlt | rfl | hlt
    · rw [Int.sign_eq_one_of_pos (by omega)]
      omega
    · obtain rfl : k = m := by omega
      simp
    · rw [Int.sign_eq_neg_one_of_neg (by omega)]
      omega

/-- Turned around, the numbers are those from the other end. -/
theorem stretch_swap (m n : Int) : stretch n m = (stretch m n).reverse := by
  have hlength : (stretch n m).length = (stretch m n).reverse.length := by
    rw [List.length_reverse, length_stretch, length_stretch]
    omega
  refine List.ext_getElem hlength fun i hi hi' => ?_
  rw [length_stretch] at hi
  rw [List.getElem_reverse, getElem_stretch, getElem_stretch, length_stretch]
  rcases Int.lt_trichotomy m n with hlt | rfl | hlt
  · rw [Int.sign_eq_neg_one_of_neg (by omega), Int.sign_eq_one_of_pos (by omega)]
    omega
  · simp
  · rw [Int.sign_eq_one_of_pos (by omega), Int.sign_eq_neg_one_of_neg (by omega)]
    omega

/-! ## Items -/

/-- The number of the element at a place. -/
def numberAt (kind : RangeKind) (m n : Int) (i : Nat) : Int :=
  m + (n - m).sign * (i * kind.step)

theorem step_pos (kind : RangeKind) : 0 < kind.step := by
  cases kind <;> decide

theorem lengthOfEnds_le (kind : RangeKind) (m n : Int) :
    lengthOfEnds (kind, m, n) ≤ (n - m).natAbs / kind.step + 1 :=
  Nat.min_le_left _ _

theorem lengthOfEnds_swap (kind : RangeKind) (m n : Int) :
    lengthOfEnds (kind, n, m) = lengthOfEnds (kind, m, n) := by
  rw [lengthOfEnds, lengthOfEnds, show (m - n).natAbs = (n - m).natAbs by omega]

/-- No element goes past the end. -/
theorem between_numberAt (hi : i < lengthOfEnds (kind, m, n)) : Between m n (numberAt kind m n i) := by
  have hle : i * kind.step ≤ (n - m).natAbs := by
    have hplace : i ≤ (n - m).natAbs / kind.step := by
      have := lengthOfEnds_le kind m n
      omega
    exact (Nat.le_div_iff_mul_le (step_pos kind)).1 hplace
  exact between_of_le_distance (by positivity) (by exact_mod_cast hle)

@[simp] theorem length_itemsOfEnds (length : Nat) (ends : RangeKind × Int × Int) :
    (itemsOfEnds length ends).length = length := by
  simp [itemsOfEnds]

/-- With ends that coincide there is one element, wherever the steps lead. -/
theorem add_mul_step (hi : i < lengthOfEnds (kind, m, n)) :
    m + i * (if m ≤ n then (kind.step : Int) else -kind.step) = numberAt kind m n i := by
  unfold numberAt
  rcases Int.lt_trichotomy m n with hlt | rfl | hlt
  · rw [if_pos (by omega), Int.sign_eq_one_of_pos (by omega)]
    omega
  -- the sign is zero and the step is not, but there is only the first place
  · have hplace : i = 0 := by
      have := lengthOfEnds_le kind m m
      simp at this
      omega
    simp [hplace]
  · rw [if_neg (by omega), Int.sign_eq_neg_one_of_neg (by omega)]
    simp

theorem getElem_itemsOfEnds (hi : i < (itemsOfEnds (lengthOfEnds (kind, m, n)) (kind, m, n)).length) :
    (itemsOfEnds (lengthOfEnds (kind, m, n)) (kind, m, n))[i] = rangeItem kind (numberAt kind m n i) := by
  rw [length_itemsOfEnds] at hi
  simp only [itemsOfEnds, List.getElem_map, List.getElem_range]
  exact congrArg (rangeItem kind) (add_mul_step hi)

/-- A number that an integer or an instant can stand for is the number of the item that is made for it. -/
theorem isPoint_rangeItem (hkind : kind ≠ .characters)
    (hk : -9223372036854775808 ≤ k ∧ k < 9223372036854775808) : (rangeItem kind k).data.IsPoint kind k := by
  have hword : (Int64.ofInt k).toInt = k := Int64.toInt_ofInt_of_le hk.1 hk.2
  cases kind with
  | integers =>
    have := Data.IsPoint.integer (Int64.ofInt k)
    rwa [hword] at this
  | days =>
    have := Data.IsPoint.date (Int64.ofInt k)
    rwa [hword] at this
  | characters => exact absurd rfl hkind

/-- In single steps the items are those of all numbers between the ends. -/
theorem itemsOfEnds_eq_map (hkind : kind ≠ .days) (hlength : lengthOfEnds (kind, m, n) ≤ maxRange) :
    itemsOfEnds (lengthOfEnds (kind, m, n)) (kind, m, n) = (stretch m n).map (rangeItem kind) := by
  have hstep : kind.step = 1 := by
    cases kind with
    | days => exact absurd rfl hkind
    | integers => rfl
    | characters => rfl
  have hsize : lengthOfEnds (kind, m, n) = (n - m).natAbs + 1 := by
    simp only [lengthOfEnds, hstep, Nat.div_one, maxRange, wordBound] at hlength ⊢
    omega
  refine List.ext_getElem (by simp [hsize]) fun i hi hi' => ?_
  rw [getElem_itemsOfEnds hi, List.getElem_map, getElem_stretch, numberAt, hstep]
  simp

/-! ## Words -/

/-- A number, if it is a natural number of 64 bits. -/
def natural64? (n : Nat) : Option Nat :=
  if n < wordBound then some n else none

/-- The length of a range of integers or of days, operation by operation. The last element of a range of
integers is counted as long as the length stays a word. -/
def lengthInWords? (kind : RangeKind) (m n : Int) : Option Nat := do
  let distance ← natural64? (n - m).natAbs
  match kind with
  | .integers => return Nat.min (distance + 1) (wordBound - 1)
  | _ => natural64? (distance / kind.step + 1)

/-- The number of the element at a place, operation by operation. -/
def numberInWords? (kind : RangeKind) (m n : Int) (i : Nat) : Option Int := do
  let step ← word? (if m ≤ n then kind.step else -kind.step)
  add? m (← mul? (← word? i) step)

/-- The range goes from the least integer to the greatest one or the other way. -/
def IsFull (kind : RangeKind) (m n : Int) : Prop :=
  kind = .integers ∧ (m = -int64Bound ∧ n = int64Bound - 1 ∨ m = int64Bound - 1 ∧ n = -int64Bound)

theorem natural64?_eq {d : Nat} (h : d < 18446744073709551616) : natural64? d = some d :=
  if_pos h

theorem Spans.bounds (h : v.Spans kind m n) : (-9223372036854775808 ≤ m ∧ m < 9223372036854775808) ∧
    -9223372036854775808 ≤ n ∧ n < 9223372036854775808 := by
  obtain ⟨_, ha, hb⟩ := h
  exact ⟨ha.bounds, hb.bounds⟩

theorem lengthOfEnds_full (h : IsFull kind m n) : lengthOfEnds (kind, m, n) = wordBound - 1 := by
  obtain ⟨rfl, ⟨rfl, rfl⟩ | ⟨rfl, rfl⟩⟩ := h <;> decide

/-- Only the distance from the least to the greatest integer is the greatest natural number of 64 bits. -/
theorem Spans.lengthOfEnds_eq (h : v.Spans kind m n) (hkind : kind ≠ .characters) (hfull : ¬IsFull kind m n) :
    lengthOfEnds (kind, m, n) = (n - m).natAbs / kind.step + 1 := by
  obtain ⟨hm, hn⟩ := h.bounds
  refine Nat.min_eq_left ?_
  cases kind with
  | integers =>
    simp only [IsFull, int64Bound, true_and] at hfull
    simp only [RangeKind.step, wordBound]
    omega
  | days =>
    simp only [RangeKind.step, wordBound]
    omega
  | characters => exact absurd rfl hkind

/-- The distance of two words is a natural number of 64 bits, and so is its successor in days. -/
theorem Spans.lengthInWords?_eq (h : v.Spans kind m n) (hkind : kind ≠ .characters) :
    lengthInWords? kind m n = some (lengthOfEnds (kind, m, n)) := by
  obtain ⟨hm, hn⟩ := h.bounds
  unfold lengthInWords?
  rw [natural64?_eq (by omega)]
  cases kind with
  | integers => simp [lengthOfEnds, RangeKind.step]
  | days =>
    rw [h.lengthOfEnds_eq hkind fun hfull => nomatch hfull.1]
    show natural64? ((n - m).natAbs / 86400000 + 1) = _
    exact natural64?_eq (by omega)
  | characters => exact absurd rfl hkind

/-- No element goes past the end, so its number is a word. The way to it is one because a range is not expanded to
more than ten million elements. -/
theorem Spans.numberInWords?_eq (h : v.Spans kind m n) (hlength : lengthOfEnds (kind, m, n) ≤ maxRange)
    (hi : i < lengthOfEnds (kind, m, n)) : numberInWords? kind m n i = some (numberAt kind m n i) := by
  obtain ⟨hm, hn⟩ := h.bounds
  have hplace : (i : Int) < 10000000 := by
    unfold maxRange at hlength
    omega
  have hstep : 0 < (kind.step : Int) ∧ (kind.step : Int) ≤ 86400000 := by cases kind <;> decide
  have hway : 0 ≤ (i * kind.step : Int) ∧ (i * kind.step : Int) ≤ 10000000 * 86400000 :=
    ⟨by positivity, Int.mul_le_mul (by omega) hstep.2 (by omega) (by decide)⟩
  have hnumber : -9223372036854775808 ≤ numberAt kind m n i ∧ numberAt kind m n i < 9223372036854775808 := by
    rcases between_numberAt hi with hb | hb
    · omega
    · omega
  have hsigned : -9223372036854775808 ≤ i * (if m ≤ n then (kind.step : Int) else -kind.step) ∧
      i * (if m ≤ n then (kind.step : Int) else -kind.step) < 9223372036854775808 := by
    split
    · omega
    · rw [Int.mul_neg]
      omega
  have hgo : m + i * (if m ≤ n then (kind.step : Int) else -kind.step) = numberAt kind m n i := add_mul_step hi
  unfold numberInWords?
  rw [word?_eq (by split <;> omega), word?_eq (by omega)]
  simp only [Option.bind_eq_bind, Option.bind_some]
  rw [mul?_eq hsigned, Option.bind_some, add?_eq (by omega), hgo]

/-! ## Integers and days -/

/-- What a range has at a place. -/
structure IsElement (v : Value) (kind : RangeKind) (m n : Int) (i : Nat) (ctx : Context) (w : World) (x : Value) :
    Prop where
  point : x.data.IsPoint kind (numberAt kind m n i)
  words : numberInWords? kind m n i = some (numberAt kind m n i)
  between : Between m n (numberAt kind m n i)
  contained : v.containsValue x ctx w = .value true w

/-- The items are the integers of a range, which holds what is listed, and its negative lists them the other way
around. -/
structure ListsIntegers (v : Value) (m n : Int) (ctx : Context) (w : World) (items : List Value) : Prop where
  mem_iff : ∀ x, x ∈ items ↔ ∃ k : Int64, x = .integer k ∧ Between m n k.toInt
  contains : ∀ (x : Value) (k : Int64), x.data = .integer k →
    ∃ found, v.containsValue x ctx w = .value found w ∧ (found = true ↔ .integer k ∈ items)
  negate : ∃ r, v.negate ctx w = .value r w ∧ r.toList ctx w = .value items.reverse w

theorem Spans.isElement (h : v.Spans kind m n) (hkind : kind ≠ .characters) (hbudget : 0 < ctx.budget)
    (hlength : lengthOfEnds (kind, m, n) ≤ maxRange) (hi : i < lengthOfEnds (kind, m, n)) (w : World) :
    IsElement v kind m n i ctx w (rangeItem kind (numberAt kind m n i)) := by
  have hbetween : Between m n (numberAt kind m n i) := between_numberAt hi
  have hpoint : (rangeItem kind (numberAt kind m n i)).data.IsPoint kind (numberAt kind m n i) := by
    obtain ⟨hm, hn⟩ := h.bounds
    refine isPoint_rangeItem hkind ?_
    unfold Between at hbetween
    omega
  refine ⟨hpoint, h.numberInWords?_eq hlength hi, hbetween, ?_⟩
  rw [h.containsValue_apply hpoint hbudget, decide_eq_true hbetween]

theorem Spans.listsIntegers (h : v.Spans .integers m n) (hbudget : 0 < ctx.budget)
    (hlength : lengthOfEnds (.integers, m, n) ≤ maxRange) (w : World) :
    ListsIntegers v m n ctx w (itemsOfEnds (lengthOfEnds (.integers, m, n)) (.integers, m, n)) := by
  have hmem (x : Value) : x ∈ (stretch m n).map (rangeItem .integers) ↔
      ∃ k : Int64, x = .integer k ∧ Between m n k.toInt := by
    obtain ⟨hm, hn⟩ := h.bounds
    simp only [List.mem_map, mem_stretch]
    constructor
    · rintro ⟨k, hk, rfl⟩
      refine ⟨Int64.ofInt k, rfl, ?_⟩
      unfold Between at hk
      rwa [Int64.toInt_ofInt_of_le (by omega) (by omega)]
    · rintro ⟨k, rfl, hk⟩
      exact ⟨k.toInt, hk, congrArg integer (Int64.ofInt_toInt k)⟩
  rw [itemsOfEnds_eq_map (by decide) hlength]
  refine ⟨hmem, fun x k hx => ⟨decide (Between m n k.toInt), ?_, ?_⟩, ?_⟩
  · exact h.containsValue_apply (hx ▸ .integer k) hbudget w
  · rw [decide_eq_true_iff, hmem]
    refine ⟨fun hk => ⟨k, rfl, hk⟩, ?_⟩
    rintro ⟨j, heq, hj⟩
    cases heq
    exact hj
  · obtain ⟨r, hrun, hr⟩ := h.negate_spans ctx w
    refine ⟨r, hrun, ?_⟩
    have hback : lengthOfEnds (.integers, n, m) ≤ maxRange := (lengthOfEnds_swap ..).trans_le hlength
    rw [hr.toList_of_le hback, itemsOfEnds_eq_map (by decide) hback, stretch_swap, List.map_reverse]

/-- **Ranges of integers and of days.** The size is worked out in words, and only that of the full range of integers
is not the number of steps and one. The range holds what lies between its ends, in whichever order they are. With at
most ten million elements it is expanded to that many, each a step further and none behind the end; with more it
is not expanded. -/
theorem Spans.expand (h : v.Spans kind m n) (hkind : kind ≠ .characters) (hbudget : 0 < ctx.budget) (w : World) :
    ∃ size, v.size ctx w = .value size w ∧ lengthInWords? kind m n = some size ∧
      (IsFull kind m n → size = wordBound - 1) ∧
      (¬IsFull kind m n → size = (n - m).natAbs / kind.step + 1) ∧
      (∀ (x : Value) (k : Int), x.data.IsPoint kind k →
        v.containsValue x ctx w = .value (decide (Between m n k)) w) ∧
      (size ≤ 10000000 → ∃ items, v.toList ctx w = .value items w ∧ items.length = size ∧
        (∀ (i : Nat) (hi : i < items.length), IsElement v kind m n i ctx w items[i]) ∧
        (kind = .integers → ListsIntegers v m n ctx w items)) ∧
      (10000000 < size → ∃ e, v.toList ctx w = .error e w ∧ e.kind = .invalidOperation) := by
  refine ⟨_, h.size_apply ctx w, h.lengthInWords?_eq hkind, lengthOfEnds_full, h.lengthOfEnds_eq hkind,
    fun x k hx => h.containsValue_apply hx hbudget w, fun hlength => ?_, fun hlength => ?_⟩
  · refine ⟨_, h.toList_of_le hlength ctx w, length_itemsOfEnds _ _, fun i hi => ?_, ?_⟩
    · rw [getElem_itemsOfEnds hi]
      rw [length_itemsOfEnds] at hi
      exact h.isElement hkind hbudget hlength hi w
    · rintro rfl
      exact h.listsIntegers hbudget hlength w
  · exact ⟨_, h.toList_of_lt hlength ctx w, rfl⟩

/-- Three integers down from the greatest one are listed without a step below the last of them. -/
theorem down_from_greatest :
    let last := Int64.maxValue - 2
    let v := range (integer Int64.maxValue) (integer last)
    let ctx := Context.ofBudget 1 default
    v.Spans .integers Int64.maxValue.toInt last.toInt ∧
      ∃ items, v.toList ctx {} = .value items {} ∧ items.length = 3 ∧
        ListsIntegers v Int64.maxValue.toInt last.toInt ctx {} items := by
  intro last v ctx
  have h : v.Spans .integers Int64.maxValue.toInt last.toInt :=
    .intro rfl (.integer Int64.maxValue) (.integer last)
  have hfull : ¬IsFull .integers Int64.maxValue.toInt last.toInt := by
    unfold IsFull
    decide
  obtain ⟨size, -, -, -, hsize, -, hlist, -⟩ := h.expand (by decide) (show 0 < ctx.budget from Nat.one_pos) {}
  have hthree : size = 3 := (hsize hfull).trans (by decide)
  obtain ⟨items, hrun, hlength, -, hints⟩ := hlist (by omega)
  exact ⟨h, items, hrun, hlength.trans hthree, hints rfl⟩

end Reactor.Value
